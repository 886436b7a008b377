import ImmutableCache.Sma.Run

/-!
# The shared memory of the cache

The data segments of an `immutable_cache_sma_t`, each with its own heap. Seen from outside, the
allocator is a partial map `live` from the addresses of the allocated payloads to their sizes, of
which no two overlap. `Pool.Holds` relates the two: allocating in a segment adds one address to
`live`, with at least the bytes asked for, and freeing a live address removes it and nothing else.
-/

namespace ImmutableCache

open Segment

/-- Where the data segments lie: `sma->num`, `sma->size` and the `shmaddr` of each segment, as
`immutable_cache_sma_init` sets them up. The segments are mapped side by side at word-aligned
addresses. -/
structure Pool where
  num : Nat
  size : Nat
  shmaddr : Nat → Nat
  num_pos : 0 < num
  size_ge : 2 ^ 20 ≤ size
  aligned : ∀ i, shmaddr i % 8 = 0
  apart : ∀ {i j : Nat}, i < num → j < num → i ≠ j →
    shmaddr i + size ≤ shmaddr j ∨ shmaddr j + size ≤ shmaddr i
  fits : ∀ i, shmaddr i + size < 2 ^ 64

/-- The part of an `immutable_cache_sma_t` that changes: the segment that allocations try first,
and the segments. The code has an `immutable_cache_sma_t` in each process, and so a `last`; here the
processes share one. It only says which segment is tried first, and no more is used of it than that
there is such a segment (`Pool.Holds.last_lt`). -/
structure Sma where
  last : Nat
  segs : Nat → Segment

/-- The allocator after `immutable_cache_sma_init`. -/
def Pool.init (pool : Pool) : Sma := ⟨0, fun _ => smaInitSegment pool.size⟩

/-- `immutable_cache_sma_contains_pointer`. -/
def Pool.containsPointer (pool : Pool) (p : Nat) : Bool :=
  (List.range pool.num).any fun i =>
    decide (pool.shmaddr i ≤ p ∧ p < pool.shmaddr i + pool.size)

/-- The search of `immutable_cache_sma_free` for the segment of `p`. -/
def Pool.segmentOf (pool : Pool) (p : Nat) : Option Nat :=
  (List.range pool.num).find? fun i =>
    decide (pool.shmaddr i ≤ p ∧ p < pool.shmaddr i + pool.size)

/-- `sma_allocate` in segment `i`. -/
def Sma.allocate (sma : Sma) (i n : Nat) : Option (Nat × Nat) × Sma :=
  let r := smaAllocate (sma.segs i) n minBlockSize
  (r.1, { sma with segs := Function.update sma.segs i r.2 })

/-- `sma_deallocate` in segment `i`. -/
def Sma.deallocate (sma : Sma) (i offset : Nat) : Sma :=
  { sma with segs := Function.update sma.segs i (smaDeallocate (sma.segs i) offset) }

/-- The payload of the block `c` of segment `i`: its address and its bytes. -/
def Pool.IsPayload (pool : Pool) (i : Nat) (c : Chunk) (p sz : Nat) : Prop :=
  c.free = false ∧ p = pool.shmaddr i + (c.off + blockSize) ∧ sz = c.size - blockSize

/-- The segments hold heaps with the blocks `cs`, and the live ones are the payloads in `live`. -/
structure Pool.Holds (pool : Pool) (sma : Sma) (cs : Nat → List Chunk) (live : Nat → Option Nat) :
    Prop where
  last_lt : sma.last < pool.num
  heap : ∀ i < pool.num, ∃ order, Heap (sma.segs i) (cs i) order
  segsize : ∀ i < pool.num, (sma.segs i).segsize = pool.size
  live_iff : ∀ p sz, live p = some sz ↔ ∃ i < pool.num, ∃ c ∈ cs i, pool.IsPayload i c p sz

/-- The allocator is sound, with the payloads in `live`. -/
def Pool.Ok (pool : Pool) (sma : Sma) (live : Nat → Option Nat) : Prop :=
  ∃ cs, pool.Holds sma cs live

variable {pool : Pool} {sma : Sma} {cs : Nat → List Chunk} {live : Nat → Option Nat} {i p q n : Nat}

/-- A fresh allocator is sound, with nothing allocated. -/
theorem Pool.init_ok (pool : Pool) : pool.Ok pool.init fun _ => none := by
  have hL := layout
  have hge := pool.size_ge
  have hfits := pool.fits 0
  refine ⟨fun _ => [⟨start, pool.size - start - 2 * blockSize, true⟩], ?_⟩
  refine { last_lt := pool.num_pos, heap := ?_, segsize := fun _ _ => rfl, live_iff := ?_ }
  · exact fun i _ => ⟨_, smaInitSegment_heap (by omega) (by omega)⟩
  · simp [Pool.IsPayload]

/-- Freeing a block does not change the size of the segment. -/
theorem smaDeallocate_segsize (s : Segment) (offset : Nat) :
    (smaDeallocate s offset).segsize = s.segsize := by
  unfold smaDeallocate smaMergePrev smaMergeNext
  dsimp only
  split <;> split <;> rfl

namespace Pool.Holds

/-- A payload lies inside its segment. -/
theorem payload_bounds (h : pool.Holds sma cs live) (hi : i < pool.num) {c : Chunk} {sz : Nat}
    (hc : c ∈ cs i) (hp : pool.IsPayload i c p sz) :
    pool.shmaddr i + start + blockSize ≤ p ∧
      p + sz + 2 * blockSize ≤ pool.shmaddr i + pool.size ∧ p % 8 = 0 := by
  have hL := layout
  obtain ⟨order, hh⟩ := h.heap i hi
  obtain ⟨qs, hw, -⟩ := hh.walk
  obtain ⟨h1, h2, -, h4, h5⟩ := hw.mem hc
  obtain ⟨h6, -⟩ := hh.last_eq
  have h7 := h.segsize i hi
  have h8 := pool.aligned i
  obtain ⟨-, rfl, rfl⟩ := hp
  omega

/-- Every payload lies inside one segment. -/
theorem bounds (h : pool.Holds sma cs live) {sz : Nat} (hp : live p = some sz) :
    ∃ i < pool.num, pool.shmaddr i + start + blockSize ≤ p ∧
      p + sz + 2 * blockSize ≤ pool.shmaddr i + pool.size ∧ p % 8 = 0 := by
  obtain ⟨i, hi, c, hc, hpay⟩ := (h.live_iff p sz).1 hp
  exact ⟨i, hi, h.payload_bounds hi hc hpay⟩

/-- Two payloads do not overlap. -/
theorem apart (h : pool.Holds sma cs live) {a b : Nat} (hp : live p = some a)
    (hq : live q = some b) (hne : p ≠ q) : p + a ≤ q ∨ q + b ≤ p := by
  obtain ⟨i, hi, c, hc, hpc⟩ := (h.live_iff p a).1 hp
  obtain ⟨j, hj, d, hd, hqd⟩ := (h.live_iff q b).1 hq
  have hL := layout
  have hpb := h.payload_bounds hi hc hpc
  have hqb := h.payload_bounds hj hd hqd
  by_cases hij : i = j
  · subst hij
    obtain ⟨order, hh⟩ := h.heap i hi
    obtain ⟨qs, hw, -⟩ := hh.walk
    obtain ⟨-, rfl, rfl⟩ := hpc
    obtain ⟨-, rfl, rfl⟩ := hqd
    have hcd : c ≠ d := by
      rintro rfl
      exact hne rfl
    have := hw.disjoint hc hd hcd
    have := (hw.mem hc).2.2.2.1
    have := (hw.mem hd).2.2.2.1
    omega
  · have := pool.apart hi hj hij
    omega

/-- An address has one segment, one block and one size. -/
theorem payload_unique (h : pool.Holds sma cs live) {j a b : Nat} {c d : Chunk} (hi : i < pool.num)
    (hj : j < pool.num) (hc : c ∈ cs i) (hd : d ∈ cs j) (hpc : pool.IsPayload i c p a)
    (hpd : pool.IsPayload j d p b) : i = j ∧ c = d := by
  have hL := layout
  have hpb := h.payload_bounds hi hc hpc
  have hqb := h.payload_bounds hj hd hpd
  by_cases hij : i = j
  · subst hij
    obtain ⟨order, hh⟩ := h.heap i hi
    obtain ⟨qs, hw, -⟩ := hh.walk
    obtain ⟨-, hp, -⟩ := hpc
    obtain ⟨-, hp', -⟩ := hpd
    exact ⟨rfl, hw.off_inj hc hd (by omega)⟩
  · have := pool.apart hi hj hij
    omega

/-- A change of one segment that swaps its heap, when `live'` lists the new payloads. -/
theorem update (h : pool.Holds sma cs live) {s' : Segment} {cs' : List Chunk} {order : List Nat}
    {live' : Nat → Option Nat} {last : Nat} (hlast : last < pool.num) (hh : Heap s' cs' order)
    (hseg : s'.segsize = pool.size)
    (hlive : ∀ p sz, live' p = some sz ↔ (∃ c ∈ cs', pool.IsPayload i c p sz) ∨
      ∃ j < pool.num, j ≠ i ∧ ∃ c ∈ cs j, pool.IsPayload j c p sz) (hi : i < pool.num) :
    pool.Ok ⟨last, Function.update sma.segs i s'⟩ live' := by
  refine ⟨Function.update cs i cs', ?_⟩
  refine { last_lt := hlast, heap := ?_, segsize := ?_, live_iff := ?_ }
  · intro j hj
    dsimp only
    by_cases hij : j = i
    · subst hij
      rw [Function.update_self, Function.update_self]
      exact ⟨order, hh⟩
    · rw [Function.update_of_ne hij, Function.update_of_ne hij]
      exact h.heap j hj
  · intro j hj
    dsimp only
    by_cases hij : j = i
    · subst hij
      rw [Function.update_self]
      exact hseg
    · rw [Function.update_of_ne hij]
      exact h.segsize j hj
  · intro p sz
    rw [hlive]
    constructor
    · rintro (⟨c, hc, hp⟩ | ⟨j, hj, hij, c, hc, hp⟩)
      · exact ⟨i, hi, c, by rwa [Function.update_self], hp⟩
      · exact ⟨j, hj, c, by rwa [Function.update_of_ne hij], hp⟩
    · rintro ⟨j, hj, c, hc, hp⟩
      by_cases hij : j = i
      · subst hij
        rw [Function.update_self] at hc
        exact .inl ⟨c, hc, hp⟩
      · rw [Function.update_of_ne hij] at hc
        exact .inr ⟨j, hj, hij, c, hc, hp⟩

/-- The payloads of the other segments are those that `live` has outside segment `i`. -/
theorem live_split (h : pool.Holds sma cs live) (hi : i < pool.num) (p sz : Nat) :
    live p = some sz ↔ (∃ c ∈ cs i, pool.IsPayload i c p sz) ∨
      ∃ j < pool.num, j ≠ i ∧ ∃ c ∈ cs j, pool.IsPayload j c p sz := by
  rw [h.live_iff]
  constructor
  · rintro ⟨j, hj, c, hc, hp⟩
    by_cases hij : j = i
    · subst hij
      exact .inl ⟨c, hc, hp⟩
    · exact .inr ⟨j, hj, hij, c, hc, hp⟩
  · rintro (⟨c, hc, hp⟩ | ⟨j, hj, -, c, hc, hp⟩)
    · exact ⟨i, hi, c, hc, hp⟩
    · exact ⟨j, hj, c, hc, hp⟩

/-- `sma_allocate` in a segment finds no free block, or makes one new payload with at least the
bytes asked for. -/
theorem allocate (h : pool.Holds sma cs live) (hi : i < pool.num)
    (hn : n + blockSize + 8 ≤ 2 ^ 64) :
    (sma.allocate i n = (none, sma) ∧
      ∀ c ∈ cs i, c.free = true → c.size < alignword (n + blockSize)) ∨
    ∃ off sz, (sma.allocate i n).1 = some (off, sz) ∧ n ≤ sz ∧
      live (pool.shmaddr i + off) = none ∧
      ∀ last < pool.num, pool.Ok { (sma.allocate i n).2 with last := last }
        (Function.update live (pool.shmaddr i + off) (some sz)) := by
  obtain ⟨order, hh⟩ := h.heap i hi
  obtain ⟨qs, hw, -⟩ := hh.walk
  have hL := layout
  rcases hh.smaAllocate_spec hn with
    ⟨he, hall⟩ | ⟨pre, c, post, sz, order', s', hcs, hf, hnsz, hszc, he, hseg, hs⟩
  · refine .inl ⟨?_, hall⟩
    simp [Sma.allocate, he]
  have hcm : c ∈ cs i := by rw [hcs]; simp
  have hcb := hw.mem hcm
  -- the block taken was free, so its payload is not live
  have hnew : live (pool.shmaddr i + (c.off + blockSize)) = none := by
    by_contra hne
    obtain ⟨b, hb⟩ := Option.ne_none_iff_exists'.1 hne
    obtain ⟨j, hj, d, hd, hpay⟩ := (h.live_iff _ _).1 hb
    have hdb := h.payload_bounds hj hd hpay
    have hle := hh.last_eq
    have hsz := h.segsize i hi
    by_cases hij : j = i
    · subst hij
      obtain ⟨hdl, hpe, -⟩ := hpay
      have : d = c := hw.off_inj hd hcm (by omega)
      rw [this, hf] at hdl
      cases hdl
    · have := pool.apart hj hi hij
      omega
  -- in both branches the live blocks are the old ones and the new one
  have hlive : ∀ rest : List Chunk, (∀ d ∈ rest, d.free = true) → ∀ p b,
      (Function.update live (pool.shmaddr i + (c.off + blockSize)) (some (sz - blockSize)) p =
          some b ↔
        (∃ d ∈ pre ++ ⟨c.off, sz, false⟩ :: (rest ++ post), pool.IsPayload i d p b) ∨
          ∃ j < pool.num, j ≠ i ∧ ∃ d ∈ cs j, pool.IsPayload j d p b) := by
    intro rest hrest p b
    have hold : live p = some b →
        Function.update live (pool.shmaddr i + (c.off + blockSize)) (some (sz - blockSize)) p =
          some b := by
      intro hp
      rw [Function.update_of_ne, hp]
      rintro rfl
      rw [hnew] at hp
      cases hp
    constructor
    · intro hp
      by_cases hx : p = pool.shmaddr i + (c.off + blockSize)
      · rw [hx, Function.update_self] at hp
        exact .inl ⟨⟨c.off, sz, false⟩, by simp, rfl, hx, (Option.some.inj hp).symm⟩
      · rw [Function.update_of_ne hx] at hp
        refine ((h.live_split hi p b).1 hp).imp_left ?_
        rintro ⟨d, hd, hpay⟩
        rw [hcs] at hd
        refine ⟨d, ?_, hpay⟩
        simp only [List.mem_append, List.mem_cons] at hd ⊢
        rcases hd with hd | rfl | hd
        · exact .inl hd
        · have := hpay.1
          rw [hf] at this
          cases this
        · exact .inr (.inr (.inr hd))
    · rintro (⟨d, hd, hpay⟩ | hother)
      · simp only [List.mem_append, List.mem_cons] at hd
        rcases hd with hd | rfl | hd | hd
        · exact hold ((h.live_split hi p b).2 (.inl ⟨d, by rw [hcs]; simp [hd], hpay⟩))
        · obtain ⟨-, rfl, rfl⟩ := hpay
          rw [Function.update_self]
        · have := hpay.1
          rw [hrest d hd] at this
          cases this
        · exact hold ((h.live_split hi p b).2 (.inl ⟨d, by rw [hcs]; simp [hd], hpay⟩))
      · exact hold ((h.live_split hi p b).2 (.inr hother))
  refine .inr ⟨c.off + blockSize, sz - blockSize, by rw [Sma.allocate, he], by omega, hnew, ?_⟩
  intro last hlast
  rw [Sma.allocate, he]
  rcases hs with ⟨-, hs⟩ | ⟨-, hs⟩
  · exact h.update hlast hs (hseg.trans (h.segsize i hi)) (hlive [] (by simp)) hi
  · exact h.update hlast hs (hseg.trans (h.segsize i hi))
      (hlive [⟨c.off + sz, c.size - sz, true⟩] (by simp)) hi

/-- `immutable_cache_sma_free` finds the segment of a payload. -/
theorem segmentOf_eq (h : pool.Holds sma cs live) (hi : i < pool.num) {c : Chunk} {sz : Nat}
    (hc : c ∈ cs i) (hp : pool.IsPayload i c p sz) : pool.segmentOf p = some i := by
  have hL := layout
  have hb := h.payload_bounds hi hc hp
  rw [segmentOf, List.find?_range_eq_some]
  refine ⟨by simp; omega, by simpa using hi, fun j hj => ?_⟩
  have := pool.apart (Nat.lt_trans hj hi) hi (Nat.ne_of_lt hj)
  simp
  omega

/-- `sma_deallocate` of a payload takes it out of `live`. -/
theorem deallocate (h : pool.Holds sma cs live) {sz : Nat} (hp : live p = some sz) :
    ∃ i < pool.num, pool.segmentOf p = some i ∧
      pool.Ok (sma.deallocate i (p - pool.shmaddr i)) (Function.update live p none) := by
  obtain ⟨i, hi, c, hc, hpay⟩ := (h.live_iff p sz).1 hp
  refine ⟨i, hi, h.segmentOf_eq hi hc hpay, ?_⟩
  obtain ⟨order, hh⟩ := h.heap i hi
  obtain ⟨qs, hw, -⟩ := hh.walk
  obtain ⟨hlive, hpe, hsz⟩ := hpay
  obtain ⟨pre, post, hcs⟩ := List.append_of_mem hc
  rw [hcs] at hh
  obtain ⟨order', hh'⟩ := hh.smaDeallocate_spec hlive
  have hoff : p - pool.shmaddr i = c.off + blockSize := by omega
  rw [Sma.deallocate, hoff]
  refine h.update h.last_lt hh' ?_ ?_ hi
  · rw [smaDeallocate_segsize]
    exact h.segsize i hi
  intro q b
  have hsplit := h.live_split hi q b
  constructor
  · intro hq
    have hne : q ≠ p := by
      rintro rfl
      rw [Function.update_self] at hq
      cases hq
    rw [Function.update_of_ne hne] at hq
    refine (hsplit.1 hq).imp_left ?_
    rintro ⟨d, hd, hpay⟩
    rw [hcs] at hd
    refine ⟨d, (mem_release hpay.1).2 ?_, hpay⟩
    simp only [List.mem_append, List.mem_cons] at hd ⊢
    rcases hd with hd | rfl | hd
    · exact .inl hd
    · exact absurd (hpay.2.1.trans hpe.symm) hne
    · exact .inr hd
  · intro hq
    have hold : live q = some b ∧ q ≠ p := by
      rcases hq with ⟨d, hd, hpay⟩ | ⟨j, hj, hij, d, hd, hpay⟩
      · have hd' := (mem_release hpay.1).1 hd
        have hm : d ∈ cs i := by
          rw [hcs]
          simp only [List.mem_append, List.mem_cons] at hd' ⊢
          tauto
        refine ⟨hsplit.2 (.inl ⟨d, hm, hpay⟩), ?_⟩
        -- a second block at this offset would be `c`, which has left the list
        rintro rfl
        have hdc : d = c := (h.payload_unique hi hi hm hc hpay ⟨hlive, hpe, hsz⟩).2
        have hnd := hw.nodup_off
        rw [hcs, List.map_append, List.map_cons, List.perm_middle.nodup_iff,
          ← List.map_append] at hnd
        exact (List.nodup_cons.1 hnd).1 (hdc ▸ List.mem_map_of_mem hd')
      · refine ⟨hsplit.2 (.inr ⟨j, hj, hij, d, hd, hpay⟩), ?_⟩
        rintro rfl
        exact hij (h.payload_unique hj hi hd hc hpay ⟨hlive, hpe, hsz⟩).1
    rw [Function.update_of_ne hold.2]
    exact hold.1

end Pool.Holds

/-- The addresses of a payload lie in the shared segments. -/
theorem Pool.Ok.containsPointer (h : pool.Ok sma live) {sz : Nat} (hp : live p = some sz)
    (hle : p ≤ q) (hlt : q < p + sz) : pool.containsPointer q = true := by
  obtain ⟨cs, hcs⟩ := h
  obtain ⟨i, hi, hb⟩ := hcs.bounds hp
  have hL := layout
  rw [Pool.containsPointer, List.any_eq_true]
  exact ⟨i, List.mem_range.2 hi, by simp; omega⟩

/-- Two payloads do not overlap. -/
theorem Pool.Ok.apart (h : pool.Ok sma live) {a b : Nat} (hp : live p = some a)
    (hq : live q = some b) (hne : p ≠ q) : p + a ≤ q ∨ q + b ≤ p :=
  h.elim fun _ hcs => hcs.apart hp hq hne

end ImmutableCache
