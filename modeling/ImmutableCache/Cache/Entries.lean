import ImmutableCache.Cache.Lookup
import ImmutableCache.Cache.Store

/-!
# The entries of a table

`World.entries` reads the entries off the table, by walking along all its chains. It is the
abstraction of the cache as an association list, with `bound w.entries` the map from keys to
entries. Under the invariant these are the entries that the invariant is about, in another order.
-/

namespace ImmutableCache

/-- The entries of a chain, with a bound on their number. -/
def walk (shm : Mem) : Nat → Option Nat → List Nat
  | _, none => []
  | 0, some _ => []
  | fuel + 1, some p => p :: walk shm fuel (nextAt shm p)

/-- The bytes of the key of the entry at `p`. -/
def keyBytes (shm : Mem) (p : Nat) : Bytes :=
  match shm (entryAt shm p).key with
  | some (.str s) => s.val
  | _ => []

variable {υ : Type}

/-- The entries in the chain of slot `s`. -/
def World.chain (w : World υ) (s : Nat) : List Nat :=
  walk w.shm w.header.nentries (w.slots.getD s none)

/-- The entries of the table, with the bytes of their keys. -/
def World.entries (w : World υ) : List (Nat × Bytes) :=
  (List.range w.slots.length).flatMap fun s => (w.chain s).map fun p => (p, keyBytes w.shm p)

/-- What a process may read. -/
def World.view (w : World υ) (sp : Space) : Mem := ImmutableCache.view sp w.shm w.entries

variable {z : Zend} {pool : Pool} {shm : Mem} {es es' : List (Nat × Bytes)} {w : World υ}
  {live : Nat → Option Nat} {P : Nat → Prop} {p : Nat} {k : Bytes}

/-- With enough fuel the walk gives the whole chain. -/
theorem walk_eq {head : Option Nat} {ps : List Nat} {fuel : Nat}
    (hc : Chain (nextAt shm) head ps) (hf : ps.length ≤ fuel) : walk shm fuel head = ps := by
  induction ps generalizing fuel head with
  | nil =>
    rw [Chain.nil_iff.1 hc]
    cases fuel <;> rfl
  | cons p ps ih =>
    obtain ⟨rfl, hc⟩ := hc
    obtain ⟨fuel, rfl⟩ := Nat.exists_eq_add_of_le' (Nat.zero_lt_of_lt hf)
    rw [walk, ih hc (Nat.le_of_succ_le_succ hf)]

/-- The key of an entry is the one that the table has for it. -/
theorem HasKey.keyBytes (h : HasKey z P shm p k) : keyBytes shm p = k := by
  obtain ⟨e, he, -, o, ho, -, -, hv⟩ := h
  rw [ImmutableCache.keyBytes, entryAt_eq he, ho]
  exact hv

/-- Two lists with the same members bind the same keys to the same entries. -/
theorem bound_congr (hn : (es.map Prod.snd).Nodup) (h : ∀ x, x ∈ es' ↔ x ∈ es) :
    bound es' = bound es := by
  funext k
  cases hb : bound es k with
  | none =>
    rw [bound_eq_none] at hb ⊢
    exact fun x hx => hb x ((h x).1 hx)
  | some p =>
    rw [bound_eq_some hn] at hb
    have hfind : (es'.find? fun x => x.2 = k).isSome = true :=
      List.find?_isSome.2 ⟨(p, k), (h _).2 hb, by simp⟩
    obtain ⟨x, hx⟩ := Option.isSome_iff_exists.1 hfind
    have hxk : x.2 = k := by simpa using List.find?_some hx
    have hxe := (h x).1 (List.mem_of_find?_eq_some hx)
    -- `es` has one entry with the key
    obtain rfl : x = (p, k) := List.inj_on_of_nodup_map hn hxe hb hxk
    rw [bound, hx]
    rfl

namespace World.Inv

variable (h : w.Inv pool z es live)

include h

/-- The chain of a slot has the entries whose keys hash to it. -/
theorem chain_eq {s : Nat} (hs : s < w.slots.length) :
    w.chain s = chainOf z w.slots.length es s :=
  walk_eq (h.table.chain s hs) ((Table.length_chainOf_le _ _ _ _).trans h.nentries.ge)

/-- The entries of the table are those of the invariant. -/
theorem mem_entries (x : Nat × Bytes) : x ∈ w.entries ↔ x ∈ es := by
  simp only [World.entries, List.mem_flatMap, List.mem_range, List.mem_map]
  constructor
  · rintro ⟨s, hs, p, hp, rfl⟩
    rw [h.chain_eq hs, Table.mem_chainOf] at hp
    obtain ⟨k, hk, -⟩ := hp
    rwa [(h.table.entry _ hk).keyBytes]
  · intro hx
    have hs : z.hash x.2 % w.slots.length < w.slots.length := Nat.mod_lt _ h.table.nslots
    refine ⟨_, hs, x.1, ?_, by rw [(h.table.entry x hx).keyBytes]⟩
    rw [h.chain_eq hs, Table.mem_chainOf]
    exact ⟨x.2, hx, rfl⟩

/-- The entries are read off the table in an order that only they and the slots decide. -/
theorem entries_congr {w' : World υ} {live' : Nat → Option Nat} (h' : w'.Inv pool z es live')
    (hs : w'.slots.length = w.slots.length) : w'.entries = w.entries := by
  rw [World.entries, World.entries, hs]
  refine List.flatMap_congr fun s hm => ?_
  have hlt : s < w.slots.length := List.mem_range.1 hm
  rw [h.chain_eq hlt, h'.chain_eq (hs ▸ hlt), hs]
  refine List.map_congr_left fun p hp => ?_
  obtain ⟨k, hk, -⟩ := Table.mem_chainOf.1 hp
  rw [(h.table.entry _ hk).keyBytes, (h'.table.entry _ hk).keyBytes]

/-- Reading the table off the memory gives the same bindings. -/
theorem bound_entries : bound w.entries = bound es := bound_congr h.table.keys h.mem_entries

/-- And the same published memory. -/
theorem pub_entries (q : Nat) : Pub w.shm w.entries q ↔ Pub w.shm es q := by
  unfold Pub
  constructor
  · rintro ⟨x, hx, hq⟩
    exact ⟨x, (h.mem_entries x).1 hx, hq⟩
  · rintro ⟨x, hx, hq⟩
    exact ⟨x, (h.mem_entries x).2 hx, hq⟩

/-- And the same view for every process. -/
theorem view_eq (sp : Space) : w.view sp = ImmutableCache.view sp w.shm es := by
  funext q
  simp only [World.view, ImmutableCache.view, h.pub_entries]

end World.Inv

end ImmutableCache
