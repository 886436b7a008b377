import ImmutableCache.Cache.History
import ImmutableCache.Lib.WriteOnce

/-!
# The cache is a write-once map

The chained table with its hashes and key comparisons is, from outside, a map from keys to entries
that binds each key once: every run of the cache is a run of the write-once map, with the same
answers, and `bound w.entries` is the map that it has come to.
-/

namespace ImmutableCache

variable {υ : Type} {z : Zend} {pool : Pool} {es es' : List (Nat × Bytes)} {w w' w₀ : World υ}
  {live live' : Nat → Option Nat} {php : Serializer υ} {e : Event υ} {evs : List (Event υ)}

/-- What a request is on the map: a store inserts the entry that `immutable_cache_persist` produces,
if it does; a lookup finds an entry and answers accordingly; a request that bails out and one that
is not about a key are nothing. -/
inductive Event.Means (pool : Pool) (php : Serializer υ) (e : Event υ) :
    WriteOnce Bytes Nat → Prop
  | store {key t : Nat} {val : Zval} {k : Bytes} {ret : Bool} :
      e.req.call = .store key val t → e.req.key e.before = some k →
      e.outcome = some (.stored ret) →
      e.Means pool php (.insert k
        (persisted pool e.req.sp php e.req.depth (initEntry key val t) e.before) ret)
  | lookup {k : Bytes} {p : Option Nat} {o : Outcome υ} :
      e.req.key e.before = some k → e.req.reply php e.before p = some o → e.outcome = some o →
      e.Means pool php (.lookup k p)
  | skip : e.outcome = none ∨ e.req.key e.before = none → e.Means pool php .skip

/-- A step of the cache is a step of the map. -/
theorem Step.refines (h : Step pool z php w e w') (hinv : w.Inv pool z es live)
    (hlocks : ∀ n, w.env.lockOk n = true) : ∃ es' live' op, w'.Inv pool z es' live' ∧
      w.Le es w' es' ∧ e.Means pool php op ∧ WriteOnce.Step (bound es) op (bound es') := by
  obtain ⟨es', live', heff⟩ := h.effect hinv
  obtain ⟨hinv', hle⟩ := heff.kept
  obtain ⟨rfl, -⟩ := h
  have hlookup (k : Bytes) : e.before.lookup es k = bound es k := if_pos (hlocks _)
  have hnolock : ¬ ∃ n, e.before.env.lockOk n = false := by simp [hlocks]
  refine ⟨es', live', ?_⟩
  generalize ho : e.outcome = o at heff
  cases heff with
  | added hcall hk _ _ hadded =>
    refine ⟨_, hinv', hle, .store hcall hk ho, ?_⟩
    rw [hadded.produced, bound_append hadded.free]
    exact .inserted hadded.free
  | rejected hcall hk _ _ hwhy => exact ⟨_, hinv', hle, .store hcall hk ho, .refused (hwhy hlocks)⟩
  | leaked hcall _ _ hwhy =>
    obtain ⟨rfl, -⟩ | ⟨-, hno⟩ := hwhy
    · exact ⟨_, hinv', hle, .skip (.inl ho), .skip⟩
    · exact absurd hno hnolock
  | answered hk hreply _ =>
    rw [hlookup] at hreply
    exact ⟨_, hinv', hle, .lookup hk hreply ho, .lookup⟩
  | reported hk _ => exact ⟨_, hinv', hle, .skip (.inr hk), .skip⟩
  | aborted _ => exact ⟨_, hinv', hle, .skip (.inl ho), .skip⟩

/-- A run of the cache is a run of the map. -/
theorem run_refines (h : Run (Step pool z php) w evs w') (hinv : w.Inv pool z es live)
    (hlocks : ∀ n, w.env.lockOk n = true) : ∃ es' live' ops, w'.Inv pool z es' live' ∧
      List.Forall₂ (Event.Means pool php) evs ops ∧
      Run WriteOnce.Step (bound es) ops (bound es') := by
  induction h generalizing es live with
  | nil => exact ⟨es, live, [], hinv, .nil, .nil⟩
  | cons h1 _ ih =>
    obtain ⟨es₁, live₁, op, hinv₁, hle₁, hmeans, hstep⟩ := h1.refines hinv hlocks
    obtain ⟨es', live', ops, hinv', hall, hrun⟩ := ih hinv₁ (hle₁.env ▸ hlocks)
    exact ⟨es', live', op :: ops, hinv', .cons hmeans hall, .cons hstep hrun⟩

/-- Every run of the cache from the empty table is a run of the write-once map from the empty map,
with the same requests and answers, and comes to the same map: each key is bound to the entry of its
first successful store. -/
theorem cache_refines_writeOnce (hc : Created pool w₀) (h : Run (Step pool z php) w₀ evs w)
    (hlocks : ∀ n, w₀.env.lockOk n = true) : ∃ ops,
      List.Forall₂ (Event.Means pool php) evs ops ∧
      Run WriteOnce.Step (fun _ => none) ops (bound w.entries) ∧
      ∀ k, bound w.entries k = ops.findSome? (WriteOnce.binds k) := by
  obtain ⟨-, hdr, sz, hinv⟩ := hc.inv z
  obtain ⟨es, live, ops, hinv', hall, hrun⟩ := run_refines h hinv hlocks
  rw [hinv'.bound_entries]
  refine ⟨ops, hall, hrun, fun k => ?_⟩
  rw [WriteOnce.run_eq hrun]
  rfl

/-- In the small run a key is stored twice, and then fetched. -/
theorem cache_refines_writeOnce_small : ∃ evs w ops, evs.length = 3 ∧
    Run (Step Small.pool Small.zend Small.php) (Small.start (Small.env none)) evs w ∧
      List.Forall₂ (Event.Means Small.pool Small.php) evs ops ∧
      Run WriteOnce.Step (fun _ => none) ops (bound w.entries) := by
  obtain ⟨ops, hall, hrun, -⟩ := cache_refines_writeOnce Small.created Small.run fun _ => rfl
  exact ⟨_, _, ops, Small.events_length, Small.run, hall, hrun⟩

end ImmutableCache
