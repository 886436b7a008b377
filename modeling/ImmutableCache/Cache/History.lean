import ImmutableCache.Cache.Entries
import ImmutableCache.Cache.Info
import ImmutableCache.Cache.Lookup
import ImmutableCache.Cache.Store
import ImmutableCache.Iterator.Fetch

/-!
# Histories

A run of the cache: it is created on a fresh allocator, and then processes execute requests, each
with an address space of its own, in any order. `Step.effect` says once what a request can do to
the cache, and `run_inv` that the invariant holds at every point of a run.
-/

namespace ImmutableCache

open Bail

variable {υ : Type}

/-! ## Requests -/

/-- A call of an operation of the cache. -/
inductive Call (υ : Type) where
  | store (key : Nat) (val : Zval) (t : Nat)
  | fetch (key t : Nat)
  | find (key t : Nat)
  | exist (key : Nat)
  | stat (key : Nat)
  | info (limited : Bool)
  | smaInfo (limited : Bool)
  | iteratorFetch (it : Iterator υ)
  | iteratorTotals (it : Iterator υ)

/-- What an operation returns. -/
inductive Outcome (υ : Type) where
  | stored (ret : Bool)
  | fetched (r : Option (Bool × Fetched υ))
  | found (r : Option Nat)
  | exist (ret : Bool)
  | stat (r : Option Stat)
  | info (r : Option CacheInfo)
  | smaInfo (r : SmaInfo)
  | iteratorFetched (count : Nat) (it : Iterator υ)
  | iteratorTotaled (it : Iterator υ)

/-- A call by a process with the address space `sp`, whose values are nested at most `depth` deep. -/
structure Request (υ : Type) where
  sp : Space
  depth : Nat
  call : Call υ

namespace Request

/-- Execute the call. -/
def run (r : Request υ) (pool : Pool) (php : Serializer υ) : Op υ (Outcome υ) :=
  match r.call with
  | .store key val t => .stored <$> cacheStore pool r.sp php r.depth key val t
  | .fetch key t => .fetched <$> cacheFetch r.sp php key t
  | .find key t => .found <$> cacheFind r.sp key t
  | .exist key => .exist <$> cacheExists r.sp key
  | .stat key => .stat <$> cacheStat r.sp key
  | .info limited => .info <$> cacheInfo limited
  | .smaInfo limited => .smaInfo <$> smaInfo pool limited
  | .iteratorFetch it => (fun r => .iteratorFetched r.1 r.2) <$> fetchActive r.sp php it
  | .iteratorTotals it => .iteratorTotaled <$> iteratorTotals r.sp it

/-- The bytes of the key that the call is about. -/
def key (r : Request υ) (w : World υ) : Option Bytes :=
  match r.call with
  | .store key _ _ | .fetch key _ | .find key _ | .exist key | .stat key =>
    readStr r.sp.zend (w.view r.sp) key
  | _ => none

/-- What a lookup answers if it has found the entry `p`. -/
def reply (r : Request υ) (php : Serializer υ) (w : World υ) (p : Option Nat) :
    Option (Outcome υ) :=
  match r.call with
  | .fetch _ _ => some (.fetched (p.map fun p =>
      unpersist r.sp w.shm (w.serializer.getD php) (entryAt w.shm p).val))
  | .find _ _ => some (.found p)
  | .exist _ => some (.exist p.isSome)
  | .stat _ => some (.stat (p.map fun p => (entryAt w.shm p).stat))
  | _ => none

/-- What a process can ask for: its shared segments are those of the cache, the key is a string that
it can read, and the value is well-formed. -/
def Legal (r : Request υ) (pool : Pool) (z : Zend) (w : World υ) : Prop :=
  r.sp.On pool z ∧
    match r.call with
    | .store key val t =>
      ∃ k, WellEntry r.sp (w.view r.sp) r.depth (initEntry key val t) k
    | .fetch _ _ | .find _ _ | .exist _ | .stat _ => ∃ k, r.key w = some k
    | _ => True

end Request

/-- A request of a run, with the state that it met and its outcome, if it has not bailed out. -/
structure Event (υ : Type) where
  before : World υ
  req : Request υ
  outcome : Option (Outcome υ)

/-- A process executes a request. -/
def Step (pool : Pool) (z : Zend) (php : Serializer υ) (w : World υ) (e : Event υ) (w' : World υ) :
    Prop :=
  e.before = w ∧ e.req.Legal pool z w ∧
    match e.req.run pool php w with
    | .ok o w₁ => e.outcome = some o ∧ w' = w₁
    | .error _ w₁ => e.outcome = none ∧ w' = w₁

/-- The cache has been created on a fresh allocator. -/
def Created (pool : Pool) (w : World υ) : Prop :=
  ∃ (w₀ : World υ) (serializer : Option (Serializer υ)) (sizeHint : Int) (stime : Nat),
    w₀.sma = pool.init ∧ w₀.shm = (fun _ => none) ∧ w₀.freed = [] ∧
      cacheCreate pool serializer sizeHint stime w₀ = .ok () w

section

variable {z : Zend} {pool : Pool} {es es' : List (Nat × Bytes)} {w w' w₁ : World υ}
  {live live' : Nat → Option Nat} {php : Serializer υ} {e : Event υ} {evs : List (Event υ)}

/-! ## The start -/

/-- A table has at least one slot, and room in a `size_t`. -/
theorem makePrime_bounds (n : Int) : 0 < makePrime n ∧ makePrime n ≤ 983063 := by
  have hall : ∀ k ∈ primes, 0 < k ∧ k ≤ 983063 := by decide
  unfold makePrime
  cases hf : primes.find? fun k : Nat => decide (n < (k : Int)) with
  | none => simp
  | some k => exact hall k (List.mem_of_find?_eq_some hf)

/-- A new table is empty, and one block is allocated. -/
theorem Created.inv (h : Created pool w) (z : Zend) : w.freed = [] ∧
    ∃ hdr sz, w.Inv pool z [] (Function.update (fun _ => none) hdr (some sz)) := by
  obtain ⟨w₀, serializer, sizeHint, stime, hsma, -, hfreed, hrun⟩ := h
  obtain ⟨hpos, hle⟩ := makePrime_bounds (toInt (if 0 < sizeHint then sizeHint else 2000))
  have hwp : Wp (cacheCreate pool serializer sizeHint stime) w₀ (fun _ w => w.freed = [] ∧
      ∃ hdr sz, w.Inv pool z [] (Function.update (fun _ => none) hdr (some sz))) fun _ => True := by
    unfold cacheCreate
    generalize makePrime _ = nslots at hpos hle ⊢
    have hn : sizeofHeader + nslots * 8 + 64 + blockSize + 8 ≤ 2 ^ 64 := by
      have hL := layout
      unfold sizeofHeader
      omega
    simp only [wp_bind]
    refine (wp_smaMalloc hn (hsma ▸ pool.init_ok)).mono (fun r w₁ h₁ => ?_) fun _ _ => trivial
    obtain ⟨-, rfl⟩ | ⟨p, s, sz, rfl, hs, -, -, hok⟩ := h₁
    · simp only [wp_bind]
      exact (Harmless.warning _ w₁).mono (fun _ _ _ => trivial) fun _ _ => trivial
    simp only [wp_modify]
    refine ⟨hs.freed.trans hfreed, p, sz, ?_⟩
    refine { sma := ?_, table := ?_, nentries := rfl, ninserts := rfl, memSize := rfl, nhits := rfl
             block := by simp, nonempty := by simp, frozen := fun _ _ hq => absurd hq Pub.nil
             encoder := by simp }
    · dsimp only
      rw [hs.sma]
      exact hok
    · refine { nslots := by simpa using hpos, nodup := List.nodup_nil, keys := List.nodup_nil
               entry := by simp, chain := fun s _ => ?_ }
      simp only [chainOf, List.filter_nil, List.map_nil, Chain.nil_iff,
        List.getD_eq_getElem?_getD, List.getElem?_replicate]
      split <;> rfl
  unfold Wp at hwp
  rwa [hrun] at hwp

/-! ## The effect of a request -/

/-- The effect of a request in the state `w` with the entries `es` and the payloads `live`: its
outcome, and the state, the entries and the payloads after it. -/
inductive Effect (pool : Pool) (z : Zend) (php : Serializer υ) (w : World υ)
    (es : List (Nat × Bytes)) (live : Nat → Option Nat) (r : Request υ) :
    Option (Outcome υ) → World υ → List (Nat × Bytes) → (Nat → Option Nat) → Prop
  /-- A store adds an entry. -/
  | added {key : Nat} {val : Zval} {t p sz : Nat} {k : Bytes} {c : Ctxt} {w' : World υ} :
      r.call = .store key val t → r.key w = some k → live p = none →
      w'.Inv pool z (es ++ [(p, k)]) (Function.update live p (some sz)) →
      Added pool r.sp php r.depth es live w (initEntry key val t) k c p w' →
      Effect pool z php w es live r (some (.stored true)) w' (es ++ [(p, k)])
        (Function.update live p (some sz))
  /-- A store is rejected. -/
  | rejected {key : Nat} {val : Zval} {t : Nat} {k : Bytes} {w' : World υ} :
      r.call = .store key val t → r.key w = some k → Kept pool z es live w w' →
      Untouched es w w' →
      ((∀ n, w.env.lockOk n = true) →
        persisted pool r.sp php r.depth (initEntry key val t) w = none ∨ bound es k ≠ none) →
      Effect pool z php w es live r (some (.stored false)) w' es live
  /-- A store leaves its block behind. -/
  | leaked {key : Nat} {val : Zval} {t p sz : Nat} {o : Option (Outcome υ)} {w' : World υ} :
      r.call = .store key val t → live p = none →
      Kept pool z es (Function.update live p (some sz)) w w' →
      o = none ∧ CopyAborts pool r.sp php r.depth (initEntry key val t) w ∨
        (o = none ∨ o = some (.stored false)) ∧ (∃ n, w.env.lockOk n = false) →
      Effect pool z php w es live r o w' es (Function.update live p (some sz))
  /-- A lookup answers. -/
  | answered {k : Bytes} {o : Outcome υ} {w' : World υ} :
      r.key w = some k → r.reply php w (w.lookup es k) = some o → Kept pool z es live w w' →
      Effect pool z php w es live r (some o) w' es live
  /-- A report or a step of an iterator. -/
  | reported {o : Outcome υ} {w' : World υ} :
      r.key w = none → Kept pool z es live w w' → Effect pool z php w es live r (some o) w' es live
  /-- The request bails out. -/
  | aborted {w' : World υ} :
      Kept pool z es live w w' → Effect pool z php w es live r none w' es live

/-- The specification of a store, as an effect. -/
theorem Effect.store {r : Request υ} {key : Nat} {val : Zval} {t : Nat} {k : Bytes}
    (hinv : w.Inv pool z es live) (hon : r.sp.On pool z) (hcall : r.call = .store key val t)
    (hw : WellEntry r.sp (view r.sp w.shm es) r.depth (initEntry key val t) k)
    (hk : r.key w = some k) :
    Wp (cacheStore pool r.sp php r.depth key val t) w
      (fun ret w' => ∃ es' live', Effect pool z php w es live r (some (.stored ret)) w' es' live')
      fun w' => ∃ es' live', Effect pool z php w es live r none w' es' live' := by
  have hz := hon.zend
  subst hz
  refine (wp_cacheStore hinv hon hw).mono (fun ret w' h => ?_) fun w' h => ?_
  · obtain ⟨rfl, c, p, hadded⟩ | ⟨rfl, hrej, hwhy⟩ := h
    · obtain ⟨sz, hp, hinv'⟩ := hadded.inv
      exact ⟨_, _, .added hcall hk hp hinv' hadded⟩
    · obtain ⟨hkept, hun⟩ | ⟨⟨p, sz, hp, hkept⟩, hlock⟩ := hrej
      · exact ⟨_, _, .rejected hcall hk hkept hun hwhy⟩
      · exact ⟨_, _, .leaked hcall hp hkept (.inr ⟨.inr rfl, hlock⟩)⟩
  · obtain hkept | ⟨⟨p, sz, hp, hkept⟩, hcopy | hlock⟩ := h
    · exact ⟨_, _, .aborted hkept⟩
    · exact ⟨_, _, .leaked hcall hp hkept (.inl ⟨rfl, hcopy⟩)⟩
    · exact ⟨_, _, .leaked hcall hp hkept (.inr ⟨.inl rfl, hlock⟩)⟩

/-- The reports and the steps of an iterator, and the lookups without statistics. -/
def Request.Quiet (r : Request υ) : Prop :=
  match r.call with
  | .store _ _ _ | .fetch _ _ | .find _ _ => False
  | _ => True

/-- They leave the shared state alone. -/
theorem Request.Quiet.harmless {r : Request υ} (h : r.Quiet) : Harmless (r.run pool php) := by
  unfold Request.Quiet at h
  unfold Request.run
  cases hc : r.call with
  | store _ _ _ | fetch _ _ | find _ _ =>
    rw [hc] at h
    exact h.elim
  | exist key => exact .map (.cacheExists _ _)
  | stat key => exact .map (.cacheStat _ _)
  | info limited => exact .map (.cacheInfo limited)
  | smaInfo limited => exact .map (.smaInfo pool limited)
  | iteratorFetch it => exact .map (.fetchActive _ _ it)
  | iteratorTotals it => exact .map (.iteratorTotals _ it)

/-- Every request has an effect. -/
theorem Request.wp_run {r : Request υ} (hinv : w.Inv pool z es live) (h : r.Legal pool z w) :
    Wp (r.run pool php) w
      (fun o w' => ∃ es' live', Effect pool z php w es live r (some o) w' es' live')
      fun w' => ∃ es' live', Effect pool z php w es live r none w' es' live' := by
  obtain ⟨hon, hcall⟩ := h
  have hview : w.view r.sp = view r.sp w.shm es := hinv.view_eq r.sp
  have hz := hon.zend
  subst hz
  have hquiet (hq : r.Quiet) (hkey : r.key w = none) : Wp (r.run pool php) w
      (fun o w' => ∃ es' live', Effect pool _ php w es live r (some o) w' es' live')
      fun w' => ∃ es' live', Effect pool _ php w es live r none w' es' live' :=
    (hq.harmless w).mono (fun _ _ hs => ⟨_, _, .reported hkey (hinv.kept hs)⟩)
      fun _ hs => ⟨_, _, .aborted (hinv.kept hs)⟩
  cases hc : r.call with
  | store key val t =>
    rw [hc] at hcall
    obtain ⟨k, hw⟩ := hcall
    have hk : r.key w = some k := by
      rw [Request.key, hc]
      exact hw.key
    rw [Request.run, hc]
    exact wp_map _ |>.2 (Effect.store hinv hon hc (hview ▸ hw) hk)
  | fetch key t =>
    rw [hc] at hcall
    obtain ⟨k, hk⟩ := hcall
    have hk' : readStr r.sp.zend (view r.sp w.shm es) key = some k := by
      rw [← hview, ← hk, Request.key, hc]
    rw [Request.run, hc]
    refine wp_map _ |>.2 ((wp_cacheFetch hinv hon hk').mono (fun o w' h => ?_) fun w' h => ?_)
    · exact ⟨_, _, .answered hk (by rw [Request.reply, hc, h.1]; rfl) h.2⟩
    · exact ⟨_, _, .aborted h⟩
  | find key t =>
    rw [hc] at hcall
    obtain ⟨k, hk⟩ := hcall
    have hk' : readStr r.sp.zend (view r.sp w.shm es) key = some k := by
      rw [← hview, ← hk, Request.key, hc]
    rw [Request.run, hc]
    refine wp_map _ |>.2 ((wp_cacheFind hinv hon hk').mono (fun o w' h => ?_) fun w' h => ?_)
    · exact ⟨_, _, .answered hk (by rw [Request.reply, hc, h.1]) h.2⟩
    · exact ⟨_, _, .aborted h⟩
  | exist key =>
    rw [hc] at hcall
    obtain ⟨k, hk⟩ := hcall
    have hk' : readStr r.sp.zend (view r.sp w.shm es) key = some k := by
      rw [← hview, ← hk, Request.key, hc]
    rw [Request.run, hc]
    refine wp_map _ |>.2 ((wp_cacheExists hinv hon hk').mono (fun o w' h => ?_) fun w' h => ?_)
    · exact ⟨_, _, .answered hk (by rw [Request.reply, hc, h.1]) (hinv.kept h.2)⟩
    · exact ⟨_, _, .aborted (hinv.kept h)⟩
  | stat key =>
    rw [hc] at hcall
    obtain ⟨k, hk⟩ := hcall
    have hk' : readStr r.sp.zend (view r.sp w.shm es) key = some k := by
      rw [← hview, ← hk, Request.key, hc]
    rw [Request.run, hc]
    refine wp_map _ |>.2 ((wp_cacheStat hinv hon hk').mono (fun o w' h => ?_) fun w' h => ?_)
    · exact ⟨_, _, .answered hk (by rw [Request.reply, hc, h.1]) (hinv.kept h.2)⟩
    · exact ⟨_, _, .aborted (hinv.kept h)⟩
  | info limited => exact hquiet (by rw [Request.Quiet, hc]; trivial) (by rw [Request.key, hc])
  | smaInfo limited => exact hquiet (by rw [Request.Quiet, hc]; trivial) (by rw [Request.key, hc])
  | iteratorFetch it => exact hquiet (by rw [Request.Quiet, hc]; trivial) (by rw [Request.key, hc])
  | iteratorTotals it => exact hquiet (by rw [Request.Quiet, hc]; trivial) (by rw [Request.key, hc])

/-- What holds when a request has returned or bailed out holds after its step. -/
theorem Step.wp {Q : Option (Outcome υ) → World υ → Prop} (h : Step pool z php w e w')
    (hwp : Wp (e.req.run pool php) w (fun o => Q (some o)) (Q none)) : Q e.outcome w' := by
  obtain ⟨-, -, hrun⟩ := h
  unfold Wp at hwp
  cases hr : e.req.run pool php w with
  | ok o w₁ =>
    rw [hr] at hrun hwp
    obtain ⟨ho, rfl⟩ := hrun
    rw [ho]
    exact hwp
  | error u w₁ =>
    rw [hr] at hrun hwp
    obtain ⟨ho, rfl⟩ := hrun
    rw [ho]
    exact hwp

/-- A step has the effect of its request. -/
theorem Step.effect (h : Step pool z php w e w') (hinv : w.Inv pool z es live) :
    ∃ es' live', Effect pool z php w es live e.req e.outcome w' es' live' :=
  h.wp (Q := fun o w' => ∃ es' live', Effect pool z php w es live e.req o w' es' live')
    (Request.wp_run hinv h.2.1)

/-- A request keeps the invariant, and what is published. -/
theorem Effect.kept {r : Request υ} {o : Option (Outcome υ)}
    (h : Effect pool z php w es live r o w' es' live') :
    w'.Inv pool z es' live' ∧ w.Le es w' es' := by
  cases h with
  | added _ _ _ hinv hadded => exact ⟨hinv, hadded.le⟩
  | rejected _ _ hkept _ _ => exact hkept
  | leaked _ _ hkept _ => exact hkept
  | answered _ _ hkept => exact hkept
  | reported _ hkept => exact hkept
  | aborted hkept => exact hkept

/-! ## Runs -/

/-- The invariant holds after a run, and what was published still is. -/
theorem run_kept (h : Run (Step pool z php) w evs w') (hinv : w.Inv pool z es live) :
    ∃ es' live', w'.Inv pool z es' live' ∧ w.Le es w' es' := by
  induction h generalizing es live with
  | nil => exact ⟨es, live, hinv, .refl _ es⟩
  | cons h1 _ ih =>
    obtain ⟨es₁, live₁, heff⟩ := h1.effect hinv
    obtain ⟨hinv₁, hle₁⟩ := heff.kept
    obtain ⟨es', live', hinv', hle'⟩ := ih hinv₁
    exact ⟨es', live', hinv', hle₁.trans hinv hle'⟩

/-- The invariant holds in every state that a cache can come to. -/
theorem run_inv (hc : Created pool w) (h : Run (Step pool z php) w evs w') :
    ∃ es live, w'.Inv pool z es live := by
  obtain ⟨-, hdr, sz, hinv⟩ := hc.inv z
  obtain ⟨es, live, hinv', -⟩ := run_kept h hinv
  exact ⟨es, live, hinv'⟩

/-- The requests of a run are legal. -/
theorem run_legal (h : Run (Step pool z php) w evs w') (he : e ∈ evs) :
    ∃ w₁, e.req.Legal pool z w₁ := by
  induction h with
  | nil => cases he
  | cons h1 _ ih =>
    rcases List.mem_cons.1 he with rfl | he
    · exact ⟨_, h1.2.1⟩
    · exact ih he

/-- Execute requests one after the other. -/
def execute (pool : Pool) (php : Serializer υ) :
    List (Request υ) → World υ → List (Event υ) × World υ
  | [], w => ([], w)
  | r :: rs, w =>
    match r.run pool php w with
    | .ok o w₁ => (⟨w, r, some o⟩ :: (execute pool php rs w₁).1, (execute pool php rs w₁).2)
    | .error _ w₁ => (⟨w, r, none⟩ :: (execute pool php rs w₁).1, (execute pool php rs w₁).2)

/-- Requests that are legal in any state can be executed one after the other. -/
theorem execute_run {rs : List (Request υ)} (h : ∀ r ∈ rs, ∀ w, r.Legal pool z w) (w : World υ) :
    Run (Step pool z php) w (execute pool php rs w).1 (execute pool php rs w).2 := by
  induction rs generalizing w with
  | nil => exact .nil
  | cons r rs ih =>
    have hrest := ih fun r hr => h r (List.mem_cons_of_mem _ hr)
    have hlegal := h r List.mem_cons_self w
    rw [execute]
    split
    next o w₁ hr => exact .cons ⟨rfl, hlegal, by rw [hr]; exact ⟨rfl, rfl⟩⟩ (hrest w₁)
    next u w₁ hr => exact .cons ⟨rfl, hlegal, by rw [hr]; exact ⟨rfl, rfl⟩⟩ (hrest w₁)

/-- The store of a scalar is legal if the process can read the key in its own memory. -/
theorem Request.Legal.scalar {sp : Space} {depth key t : Nat} {val : Zval} {k : Bytes}
    (hon : sp.On pool z) (hkey : sp.shared key = false) (hread : readStr z sp.req key = some k)
    (hval : val.isScalar = true) (hdef : val ≠ .undef) (w : World υ) :
    Request.Legal ⟨sp, depth, .store key val t⟩ pool z w := by
  have hz := hon.zend
  subst hz
  refine ⟨hon, k, fun p hp => if_neg (by rw [hp]; decide), ?_, ?_⟩
  · obtain ⟨o, ho, hh⟩ := readStr_eq_some.1 hread
    exact readStr_eq_some.2 ⟨o, by simp [World.view, view, initEntry, hkey, ho], hh⟩
  · cases val <;> trivial

end

/-! ## A small cache

One segment of the smallest size, and the small process. -/

namespace Small

def pool : Pool where
  num := 1
  size := 2 ^ 20
  shmaddr _ := 2 ^ 32
  num_pos := by decide
  size_ge := Nat.le_refl _
  aligned _ := rfl
  apart hi hj hne := (hne ((Nat.lt_one_iff.1 hi).trans (Nat.lt_one_iff.1 hj).symm)).elim
  fits _ := by decide

/-- A process with the engine's empty array and the shared segments is one of the small cache. -/
theorem space_on {sp : Space} (hzend : sp.zend = zend) (hshared : sp.shared = shared)
    (hempty : sp.req 16 = some emptyArray.2) : sp.On pool zend where
  zend := hzend
  shared q := by
    rw [hshared]
    exact (Bool.or_false _).symm
  emptyArray := by
    rw [hshared]
    exact ⟨by decide, _, hempty, rfl, rfl⟩

/-- The small process has the shared segments of the cache. -/
theorem on : sp.On pool zend := space_on rfl rfl rfl

/-- The state of a process at its start, in the environment `env`. -/
def fresh (env : Env) : World Bytes where
  env := env
  lockTries := 0
  emallocs := 0
  held := []
  callbacks := []
  warnings := []
  thrown := 0
  freed := []
  encoder := fun _ => none
  sma := pool.init
  shm := fun _ => none
  header := default
  slots := []
  serializer := none
  loadedSerializer := false

/-- Locks are acquired, and the allocations in the request heap succeed but for the one numbered
`n`. -/
def env (n : Option Nat) : Env where
  lockOk _ := true
  emallocOk i := decide (n ≠ some i)
  protectMemory := false

/-- The cache after its creation with a size hint of 1. -/
def start (env : Env) : World Bytes :=
  match cacheCreate pool none 1 0 (fresh env) with
  | .ok _ w => w
  | .error _ w => w

/-- Whether a program returns. -/
def returns {α : Type} (x : Op Bytes α) (w : World Bytes) : Bool :=
  match x w with
  | .ok _ _ => true
  | .error _ _ => false

/-- Whether a program returns a value of a kind. -/
def gives {α : Type} (x : Op Bytes α) (w : World Bytes) (f : α → Bool) : Bool :=
  match x w with
  | .ok a _ => f a
  | .error _ _ => false

/-- A program that gives such a value returns it. -/
theorem of_gives {α : Type} {x : Op Bytes α} {w : World Bytes} {f : α → Bool}
    (h : gives x w f = true) : ∃ a w', x w = .ok a w' ∧ f a = true := by
  unfold gives at h
  split at h
  next a w' hr => exact ⟨a, w', hr, h⟩
  next => cases h

/-- The small cache is what the creation leaves. -/
theorem start_eq {env : Env} (h : returns (cacheCreate pool none 1 0) (fresh env) = true) :
    cacheCreate pool none 1 0 (fresh env) = .ok () (start env) := by
  unfold returns at h
  unfold start
  split
  next hr => rw [hr]
  next hr =>
    rw [hr] at h
    cases h

/-- It has been created, if the creation returns. -/
theorem created_of {env : Env} (h : returns (cacheCreate pool none 1 0) (fresh env) = true) :
    Created pool (start env) :=
  ⟨fresh env, none, 1, 0, rfl, rfl, rfl, start_eq h⟩

/-- The environment of the small cache is the one given. -/
theorem start_env (env : Env) : (start env).env = env := by
  have hwp : Wp (cacheCreate pool none 1 0) (fresh env) (fun _ w => w.env = env)
      fun w => w.env = env := by
    have hn : sizeofHeader + makePrime (toInt (if (0 : Int) < 1 then 1 else 2000)) * 8 + 64 +
        blockSize + 8 ≤ 2 ^ 64 := by decide
    simp only [cacheCreate, wp_bind]
    refine (wp_smaMalloc hn pool.init_ok).mono (fun r w₁ h₁ => ?_) fun w₁ h₁ => h₁.env
    obtain ⟨h₁, rfl⟩ | ⟨p, s, sz, rfl, h₁, -⟩ := h₁
    · simp only [wp_bind]
      refine (Harmless.warning _ w₁).mono (fun _ w₂ h₂ => ?_) fun w₂ h₂ => (h₁.trans h₂).env
      exact (h₁.trans h₂).env
    · exact h₁.env
  unfold Wp at hwp
  unfold start
  split
  next hr => rwa [hr] at hwp
  next hr => rwa [hr] at hwp

/-- The small cache, with locks and allocations that all succeed. -/
theorem created : Created pool (start (env none)) := created_of (by decide +kernel)

/-- Store the number 1 under `"a"`. -/
def storeA : Request Bytes := ⟨sp, 0, .store 104 (.long 1) 0⟩

/-- The store of the number is legal in every state. -/
theorem storeA_legal (w : World Bytes) : storeA.Legal pool zend w :=
  .scalar on (by decide) (k := [97]) (by decide) rfl (by decide) w

/-- Store the array `["b"]` under `"a"`. -/
def storeArray : Request Bytes := ⟨sp, 1, .store 104 (.array 168 true) 0⟩

/-- A process can read its own memory. -/
theorem view_req {sp : Space} {p : Nat} (hp : sp.shared p = false) (w : World Bytes) :
    w.view sp p = sp.req p := if_neg (by rw [hp]; decide)

/-- So is the store of the array. -/
theorem storeArray_legal (w : World Bytes) : storeArray.Legal pool zend w := by
  have hview {p : Nat} (hp : sp.shared p = false) : w.view sp p = sp.req p := view_req hp w
  have hstr (p : Nat) (s : ZendString) (hp : sp.shared p = false) (h : sp.req p = some (.str s))
      (hs : s.h = 0) : readStr zend (w.view sp) p = some s.val :=
    readStr_eq_some.2 ⟨s, (hview hp).trans h, .inl hs, rfl⟩
  refine ⟨on, [97], fun p hp => hview hp, hstr 104 ⟨false, 0, [97]⟩ (by decide) rfl rfl, ?_⟩
  change WellZval sp (w.view sp) 1 (WellHt sp (w.view sp) 1) (.array 168 true)
  rw [WellZval, if_neg (by decide)]
  refine ⟨_, hview (by decide), .inr (.inl ⟨by decide, rfl, _, _, hview (by decide), rfl,
    by decide, fun v hv _ => ?_⟩)⟩
  obtain rfl := List.mem_singleton.1 hv
  exact ⟨_, hstr 136 ⟨false, 0, [98]⟩ (by decide) rfl rfl⟩

/-- Fetch `"a"`. -/
def fetchA : Request Bytes := ⟨sp, 0, .fetch 104 0⟩

/-- The key at 104 is `"a"`. -/
theorem readStr_a (w : World Bytes) : readStr sp.zend (w.view sp) 104 = some [97] :=
  readStr_eq_some.2 ⟨⟨false, 0, [97]⟩, view_req (by decide) w, .inl rfl, rfl⟩

/-- The fetch of `"a"` is legal in every state. -/
theorem fetchA_legal (w : World Bytes) : fetchA.Legal pool zend w := ⟨on, [97], readStr_a w⟩

/-- The array is stored, a second store of the key is rejected, and the array is fetched. -/
def requests : List (Request Bytes) := [storeArray, storeArray, fetchA]

/-- The events of the three requests in a new cache. -/
def events : List (Event Bytes) := (execute pool php requests (start (env none))).1

/-- The small cache after the three requests. -/
def used : World Bytes := (execute pool php requests (start (env none))).2

/-- The events are a run. -/
theorem run : Run (Step pool zend php) (start (env none)) events used := by
  refine execute_run (fun r hr w => ?_) _
  simp only [requests, List.mem_cons, List.not_mem_nil, or_false] at hr
  rcases hr with rfl | rfl | rfl
  · exact storeArray_legal w
  · exact storeArray_legal w
  · exact fetchA_legal w

/-- There are three events. -/
theorem events_length : events.length = 3 := by decide +kernel

/-- The array is stored. -/
theorem used_entry : ∃ x ∈ used.entries, (entryAt used.shm x.1).val.isArray = true := by
  decide +kernel

/-- Whether the event is a fetch of `"a"` that has got an array in the shared segment. -/
def gotArray (e : Event Bytes) : Bool :=
  match e.req.call, e.outcome with
  | .fetch 104 0, some (.fetched (some (true, .zval (.array p _)))) => decide (p ≠ zend.emptyArray)
  | _, _ => false

/-- The array is fetched. -/
theorem fetched : ∃ e ∈ events, ∃ p rc, e.req.call = .fetch 104 0 ∧
    e.outcome = some (.fetched (some (true, .zval (.array p rc)))) ∧ p ≠ zend.emptyArray := by
  have hany : events.any gotArray = true := by decide +kernel
  obtain ⟨e, he, hgot⟩ := List.any_eq_true.1 hany
  unfold gotArray at hgot
  split at hgot
  next p rc hcall ho => exact ⟨e, he, p, rc, hcall, ho, of_decide_eq_true hgot⟩
  next => cases hgot

end Small

end ImmutableCache
