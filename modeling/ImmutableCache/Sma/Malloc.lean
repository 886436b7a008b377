import ImmutableCache.Sma.Pool
import Mathlib.Data.List.TakeWhile

/-!
# `immutable_cache_sma_malloc_ex`

An allocation tries the segment that served the last one, and then the others in order; it stops
when a lock is refused. `Pool.mallocEx` is one call, for any outcome of its attempts to lock a
segment, and `Pool.free` is `immutable_cache_sma_free`. A run of calls starts from fresh segments;
beside the allocator it keeps the payloads handed out and not freed yet.

Two results hold at every state of a run whose requests do not wrap (`Sma.Fits`). A call returns
`NULL` exactly if no segment has a free block that is large enough, and a payload that is given out
and freed leaves the others alone (`mallocEx_complete_iff`). For a request near the top of the range,
on which `size + header` or its alignment wraps, a call gets a block that is far too small unless
it finds no free block at all (`mallocEx_sound_iff`).
-/

namespace ImmutableCache

open Segment

/-- The loop of `immutable_cache_sma_malloc_ex` over the segments other than `last`: the segment, the
offset of the payload and `*allocated`. `allocate` is `sma_allocate` in a segment, and `lock` says
which segments the call can lock. -/
def mallocLoop (lock : Nat → Bool) (allocate : Sma → Nat → Option (Nat × Nat) × Sma) (last : Nat) :
    List Nat → Sma → Option (Nat × Nat × Nat) × Sma
  | [], sma => (none, sma)
  | i :: is, sma =>
    if i = last then mallocLoop lock allocate last is sma
    else if lock i then
      match allocate sma i with
      | (some a, sma) => (some (i, a), { sma with last := i })
      | (none, sma) => mallocLoop lock allocate last is sma
    else (none, sma)

/-- `immutable_cache_sma_malloc_ex`, given `sma_allocate` in a segment: the address of the payload
and `*allocated`. -/
def Pool.mallocWith (pool : Pool) (lock : Nat → Bool)
    (allocate : Sma → Nat → Option (Nat × Nat) × Sma) (sma : Sma) : Option (Nat × Nat) × Sma :=
  let last := sma.last
  if lock last then
    match allocate sma last with
    | (some a, sma) => (some (pool.shmaddr last + a.1, a.2), sma)
    | (none, sma) =>
      let r := mallocLoop lock allocate last (List.range pool.num) sma
      (r.1.map fun a => (pool.shmaddr a.1 + a.2.1, a.2.2), r.2)
  else (none, sma)

/-- `immutable_cache_sma_malloc_ex`. -/
def Pool.mallocEx (pool : Pool) (lock : Nat → Bool) (sma : Sma) (n : Nat) :
    Option (Nat × Nat) × Sma :=
  pool.mallocWith lock (fun sma i => sma.allocate i n) sma

/-- `immutable_cache_sma_free` of a pointer into a segment, where `lock` says whether it can lock
that segment. -/
def Pool.free (pool : Pool) (lock : Bool) (sma : Sma) (p : Nat) : Sma :=
  match pool.segmentOf p with
  | some i => if lock then sma.deallocate i (p - pool.shmaddr i) else sma
  | none => sma

/-- The segments that a call looks into, in this order, if it finds no block in any. -/
def Pool.tried (pool : Pool) (lock : Nat → Bool) (last : Nat) : List Nat :=
  (last :: (List.range pool.num).filter (· ≠ last)).takeWhile lock

/-- The free list of the segment is empty. -/
def Segment.Full (s : Segment) : Prop := s.fnext first = s.last

/-- The block size that `sma_allocate` computes for a request: with the header, and aligned. -/
def realsize (n : Nat) : Nat := alignword (SizeT.add n blockSize)

/-- Neither the sum with the header nor its alignment wraps; or the sum wraps past 0, and none of
the segments that the call looks into has a free block. -/
def Sma.Fits (pool : Pool) (lock : Nat → Bool) (sma : Sma) (n : Nat) : Prop :=
  n + blockSize + 8 ≤ 2 ^ 64 ∨
    ∀ i ∈ pool.tried lock sma.last, 2 ^ 64 < n + blockSize ∧ (sma.segs i).Full

/-! ## One segment -/

section Segment

variable {s : Segment} {cs : List Chunk} {order : List Nat} {n f : Nat}

/-- Without a block the segment is as before. -/
theorem smaAllocate_none_snd (h : (smaAllocate s n f).1 = none) : (smaAllocate s n f).2 = s := by
  unfold smaAllocate at h ⊢
  generalize alignword (SizeT.add n blockSize) = r at h ⊢
  by_cases hav : s.avail < r
  · simp only [if_pos hav]
  · simp only [if_neg hav] at h ⊢
    cases hb : findBlock s r with
    | none => rfl
    | some cur =>
      rw [hb] at h
      cases h

/-- There is no block if `avail` is too small or `find_block` finds none. -/
theorem smaAllocate_none {r : Nat} (hr : realsize n = r) :
    (smaAllocate s n f).1 = none ↔ s.avail < r ∨ findBlock s r = none := by
  unfold smaAllocate
  rw [realsize] at hr
  simp only [hr]
  by_cases hav : s.avail < r
  · simp only [hav, if_true, true_or]
  · simp only [hav, if_false, false_or]
    cases findBlock s r with
    | none => simp only
    | some cur => simp only [reduceCtorEq]

namespace Heap

/-- One free block is at most all of them together. -/
theorem size_le_avail (h : Heap s cs order) {c : Chunk} (hc : c ∈ cs) (hf : c.free = true) :
    c.size + blockSize ≤ s.avail := by
  have := h.avail
  obtain ⟨cs₁, cs₂, rfl⟩ := List.append_of_mem hc
  simp only [freeBytes_append, freeBytes_cons, Chunk.tag_free hf] at this
  omega

/-- The check of `avail` rejects no request that a free block can serve: there is no block exactly
if every free block is too small. -/
theorem smaAllocate_none_iff (h : Heap s cs order) (hr : 0 < realsize n) :
    (smaAllocate s n f).1 = none ↔ ∀ c ∈ cs, c.free = true → c.size < realsize n := by
  rw [smaAllocate_none rfl]
  rcases h.findBlock_spec hr with ⟨hnone, hall⟩ | ⟨c, hc, hf, hge, hfound⟩
  · exact ⟨fun _ => hall, fun _ => .inr hnone⟩
  · have := h.size_le_avail hc hf
    constructor
    · rintro (hav | hnone)
      · omega
      · rw [hfound] at hnone
        cases hnone
    · intro hall
      have := hall c hc hf
      omega

/-- A segment without a free block is full. -/
theorem full_iff (h : Heap s cs order) : s.Full ↔ ∀ c ∈ cs, c.free = false := by
  have hl := h.links
  have hL := layout
  constructor
  · intro hfull c hc
    by_contra hf
    obtain ⟨o₁, o₂, rfl⟩ := h.split hc (by simpa using hf)
    -- the node after `first` would be a block, which lies before `last`
    obtain ⟨z, o₃, hz⟩ : ∃ z o₃, o₁ ++ c.off :: o₂ = z :: o₃ :=
      List.exists_cons_of_ne_nil (by simp)
    rw [hz] at hl
    have hn : s.fnext first = z := hl.1
    have := h.order_range (o := z) (by rw [hz]; simp)
    rw [Segment.Full, hn] at hfull
    omega
  · intro hall
    cases order with
    | nil => exact hl.1
    | cons o order =>
      have ho : o ∈ o :: order := by simp
      obtain ⟨c, hc, hf, -⟩ := h.mem_order.1 ho
      rw [hall c hc] at hf
      cases hf

end Heap

/-- The block size of a request that does not wrap. -/
theorem realsize_eq (hn : n + blockSize + 8 ≤ 2 ^ 64) :
    realsize n = alignword (n + blockSize) ∧ n + blockSize ≤ realsize n := by
  have hL := layout
  have hadd : SizeT.add n blockSize = n + blockSize := SizeT.add_eq (by omega)
  have hr : alignword (n + blockSize) = (n + blockSize + 7) / 8 * 8 :=
    SizeT.alignUp_eight (by omega) (by omega)
  rw [realsize, hadd]
  exact ⟨rfl, by omega⟩

/-- The block size of a request that wraps is at most a header, and 0 for the first eight. -/
theorem realsize_wrap (hn : n < 2 ^ 64) (hwrap : 2 ^ 64 < n + blockSize + 8) :
    realsize n ≤ blockSize ∧ (realsize n ≠ 0 ↔ 2 ^ 64 < n + blockSize) := by
  have hL := layout
  rw [realsize, alignword, hL.1]
  unfold SizeT.alignUp SizeT.mul SizeT.add SizeT.sub
  omega

namespace Heap

/-- A request that wraps gets a block unless the segment is full, and in a full segment too when
its block size is 0. -/
theorem smaAllocate_wrap (h : Heap s cs order) (hn : n < 2 ^ 64)
    (hwrap : 2 ^ 64 < n + blockSize + 8) :
    (smaAllocate s n f).1 = none ↔ 2 ^ 64 < n + blockSize ∧ s.Full := by
  obtain ⟨hle, h0⟩ := realsize_wrap hn hwrap
  rw [← h0]
  have hav := h.avail
  rcases Nat.eq_zero_or_pos (realsize n) with hr | hr
  · simp only [hr, ne_eq, not_true, false_and, iff_false]
    rw [smaAllocate_none hr]
    -- whatever follows `first` has at least 0 bytes
    have hn0 : s.fnext first ≠ 0 := by
      obtain ⟨z, o₃, hz⟩ : ∃ z o₃, order ++ [s.last] = z :: o₃ :=
        List.exists_cons_of_ne_nil (by simp)
      have hl := h.links
      rw [hz] at hl
      have := h.node_pos h.last_eq.2 (o := z) (by rw [hz]; simp)
      have := hl.1
      omega
    have hseg : ∃ k, s.segsize = k + 1 := Nat.exists_eq_succ_of_ne_zero (by
      have := h.last_eq
      have := layout
      omega)
    obtain ⟨k, hk⟩ := hseg
    rintro (hlt | hfind)
    · omega
    · rw [findBlock, hk, findFit, if_neg hn0, if_pos (Nat.zero_le _)] at hfind
      cases hfind
  · rw [h.smaAllocate_none_iff hr, h.full_iff]
    have hr0 : realsize n ≠ 0 := hr.ne'
    obtain ⟨qs, hw, -⟩ := h.walk
    constructor
    · intro hall
      refine ⟨hr0, fun c hc => ?_⟩
      by_contra hf
      have := hall c hc (by simpa using hf)
      have := (hw.mem hc).2.2.2.1
      omega
    · rintro ⟨-, hall⟩ c hc hf
      rw [hall c hc] at hf
      cases hf

/-- The payload of a new block lies between the sentinels. -/
theorem smaAllocate_bounds {off sz : Nat} (h : Heap s cs order) (hn : n + blockSize + 8 ≤ 2 ^ 64)
    (he : (smaAllocate s n minBlockSize).1 = some (off, sz)) :
    start + blockSize ≤ off ∧ off + sz ≤ s.last ∧ off % 8 = 0 := by
  have hL := layout
  obtain ⟨qs, hw, -⟩ := h.walk
  rcases h.smaAllocate_spec hn with ⟨hnone, -⟩ | ⟨pre, c, post, b, -, s', rfl, -, hnb, hb, hs, -⟩
  · rw [hnone] at he
    cases he
  · rw [hs] at he
    cases he
    have := hw.mem (c := c) (by simp)
    omega

end Heap

end Segment

/-! ## One call -/

section Call

variable {pool : Pool} {lock : Nat → Bool} {sma : Sma} {n : Nat}

/-- What a call does in segment `i`. -/
theorem Sma.allocate_of {i : Nat} {r : Option (Nat × Nat)} {s : Segment}
    (h : smaAllocate (sma.segs i) n minBlockSize = (r, s)) :
    sma.allocate i n = (r, { sma with segs := Function.update sma.segs i s }) := by
  rw [allocate, h]

/-- Whether `sma_allocate` finds a block in segment `i`. -/
theorem Sma.allocate_fst {i : Nat} {r : Option (Nat × Nat)} :
    (sma.allocate i n).1 = r ↔ (smaAllocate (sma.segs i) n minBlockSize).1 = r := by
  cases hx : smaAllocate (sma.segs i) n minBlockSize with
  | mk r' s => rw [allocate_of hx]

/-- Without a block the allocator is as before. -/
theorem Sma.allocate_none {i : Nat} (h : (sma.allocate i n).1 = none) :
    (sma.allocate i n).2 = sma := by
  have hs := smaAllocate_none_snd (allocate_fst.1 h)
  cases hx : smaAllocate (sma.segs i) n minBlockSize with
  | mk r s =>
    rw [hx] at hs
    have hs' : s = sma.segs i := hs
    rw [allocate_of hx, hs', Function.update_eq_self]

/-- The allocator after segment `i` has served a request. -/
def Sma.served (sma : Sma) (i n : Nat) : Sma :=
  ⟨i, Function.update sma.segs i (smaAllocate (sma.segs i) n minBlockSize).2⟩

/-- The loop gets the block of the first segment that has one, or leaves all as it is. -/
theorem mallocLoop_eq {allocate : Sma → Nat → Option (Nat × Nat) × Sma} (lock : Nat → Bool)
    (last : Nat) (hnone : ∀ i, (allocate sma i).1 = none → (allocate sma i).2 = sma) : ∀ is : List Nat,
    mallocLoop lock allocate last is sma = (none, sma) ∧
      (∀ i ∈ (is.filter (· ≠ last)).takeWhile lock, (allocate sma i).1 = none) ∨
    ∃ i ∈ (is.filter (· ≠ last)).takeWhile lock, ∃ a, (allocate sma i).1 = some a ∧
      mallocLoop lock allocate last is sma = (some (i, a), { (allocate sma i).2 with last := i })
  | [] => .inl ⟨rfl, by simp⟩
  | i :: is => by
    have ih := mallocLoop_eq lock last hnone is
    rw [mallocLoop]
    by_cases hi : i = last
    · rw [if_pos hi, List.filter_cons_of_neg (by simpa using hi)]
      exact ih
    rw [if_neg hi, List.filter_cons_of_pos (by simpa using hi)]
    cases hl : lock i with
    | false => exact .inl ⟨by simp, by simp [hl]⟩
    | true =>
      rw [List.takeWhile_cons_of_pos hl, if_pos rfl]
      cases ha : (allocate sma i).1 with
      | some a =>
        refine .inr ⟨i, by simp, a, ha, ?_⟩
        rw [← Prod.mk.eta (p := allocate sma i), ha]
      | none =>
        rw [← Prod.mk.eta (p := allocate sma i), ha, hnone i ha]
        rcases ih with ⟨he, hall⟩ | ⟨j, hj, a, hja, he⟩
        · exact .inl ⟨he, List.forall_mem_cons.2 ⟨ha, hall⟩⟩
        · exact .inr ⟨j, List.mem_cons_of_mem _ hj, a, hja, he⟩

/-- A call gets the block of the first segment that has one, among those it tries. -/
theorem Pool.mallocWith_eq (pool : Pool) (lock : Nat → Bool)
    (allocate : Sma → Nat → Option (Nat × Nat) × Sma) (sma : Sma)
    (hnone : ∀ i, (allocate sma i).1 = none → (allocate sma i).2 = sma)
    (hlast : (allocate sma sma.last).2.last = sma.last) :
    pool.mallocWith lock allocate sma = (none, sma) ∧
      (∀ i ∈ pool.tried lock sma.last, (allocate sma i).1 = none) ∨
    ∃ i ∈ pool.tried lock sma.last, ∃ off sz, (allocate sma i).1 = some (off, sz) ∧
      pool.mallocWith lock allocate sma =
        (some (pool.shmaddr i + off, sz), { (allocate sma i).2 with last := i }) := by
  rw [mallocWith, tried]
  dsimp only
  cases hl : lock sma.last with
  | false => exact .inl ⟨by simp, by simp [hl]⟩
  | true =>
    rw [List.takeWhile_cons_of_pos hl, if_pos rfl]
    cases ha : (allocate sma sma.last).1 with
    | some a =>
      obtain ⟨off, sz⟩ := a
      refine .inr ⟨sma.last, by simp, off, sz, ha, ?_⟩
      rw [← Prod.mk.eta (p := allocate sma sma.last), ha]
      have hset : ∀ t : Sma, t.last = sma.last → t = { t with last := sma.last } := by
        rintro ⟨last, segs⟩ rfl
        rfl
      exact congrArg (Prod.mk _) (hset _ hlast)
    | none =>
      rw [← Prod.mk.eta (p := allocate sma sma.last), ha, hnone _ ha]
      rcases mallocLoop_eq lock sma.last hnone (List.range pool.num) with
        ⟨he, hall⟩ | ⟨i, hi, ⟨off, sz⟩, ha', he⟩
      · exact .inl ⟨by dsimp only; rw [he]; rfl, List.forall_mem_cons.2 ⟨ha, hall⟩⟩
      · exact .inr ⟨i, List.mem_cons_of_mem _ hi, off, sz, ha', by dsimp only; rw [he]; rfl⟩

/-- What `mallocWith_eq` says of `sma_allocate`. -/
theorem Pool.mallocEx_eq (pool : Pool) (lock : Nat → Bool) (sma : Sma) (n : Nat) :
    pool.mallocEx lock sma n = (none, sma) ∧
      (∀ i ∈ pool.tried lock sma.last, (smaAllocate (sma.segs i) n minBlockSize).1 = none) ∨
    ∃ i ∈ pool.tried lock sma.last, ∃ off sz,
      (smaAllocate (sma.segs i) n minBlockSize).1 = some (off, sz) ∧
      pool.mallocEx lock sma n = (some (pool.shmaddr i + off, sz), sma.served i n) := by
  have hnone : ∀ i, (sma.allocate i n).1 = none → (sma.allocate i n).2 = sma :=
    fun i => Sma.allocate_none
  rcases pool.mallocWith_eq lock (fun sma i => sma.allocate i n) sma hnone rfl with
    ⟨he, hall⟩ | ⟨i, hi, off, sz, ha, he⟩
  · exact .inl ⟨he, fun i hi => Sma.allocate_fst.1 (hall i hi)⟩
  · exact .inr ⟨i, hi, off, sz, Sma.allocate_fst.1 ha, he⟩

/-- A call tries data segments only. -/
theorem Pool.tried_lt {last i : Nat} (hlast : last < pool.num)
    (hi : i ∈ pool.tried lock last) : i < pool.num := by
  have := List.takeWhile_subset _ hi
  simp only [List.mem_cons, List.mem_filter, List.mem_range] at this
  rcases this with rfl | h
  · exact hlast
  · exact h.1

/-- With all locks acquired, a call tries every data segment. -/
theorem Pool.mem_tried {last i : Nat} (hi : i < pool.num) :
    i ∈ pool.tried (fun _ => true) last := by
  rw [tried, List.takeWhile_eq_self_iff.2 fun _ _ => rfl]
  simp only [List.mem_cons, List.mem_filter, List.mem_range, decide_eq_true_eq]
  tauto

/-- What a call that gets a block in a segment does to the allocator. -/
theorem Pool.Holds.served {cs : Nat → List Chunk} {live : Nat → Option Nat} {i off sz : Nat}
    (h : pool.Holds sma cs live) (hi : i < pool.num) (hn : n + blockSize + 8 ≤ 2 ^ 64)
    (ha : (smaAllocate (sma.segs i) n minBlockSize).1 = some (off, sz)) :
    n ≤ sz ∧ live (pool.shmaddr i + off) = none ∧ start + blockSize ≤ off ∧
      off + sz ≤ (sma.segs i).last ∧ off % 8 = 0 ∧
      pool.Ok (sma.served i n) (Function.update live (pool.shmaddr i + off) (some sz)) := by
  obtain ⟨order, hh⟩ := h.heap i hi
  obtain ⟨h1, h2, h3⟩ := hh.smaAllocate_bounds hn ha
  rcases h.allocate hi hn with ⟨hnone, -⟩ | ⟨off', sz', ha', hsz, hlive, hok⟩
  · have : (sma.allocate i n).1 = none := by rw [hnone]
    rw [Sma.allocate_fst, ha] at this
    cases this
  · rw [Sma.allocate_fst, ha] at ha'
    cases ha'
    exact ⟨hsz, hlive, h1, h2, h3, hok i hi⟩

/-- A request that fits where it matters gets nothing, or a payload that is large enough and lies
between the sentinels of one segment. -/
theorem Pool.Holds.mallocEx {cs : Nat → List Chunk} {live : Nat → Option Nat}
    (h : pool.Holds sma cs live) (hn : n < 2 ^ 64) (hfits : sma.Fits pool lock n) :
    pool.mallocEx lock sma n = (none, sma) ∨ ∃ i < pool.num, ∃ off sz,
      pool.mallocEx lock sma n = (some (pool.shmaddr i + off, sz), sma.served i n) ∧ n ≤ sz ∧
      live (pool.shmaddr i + off) = none ∧ start + blockSize ≤ off ∧
      off + sz ≤ (sma.segs i).last ∧ off % 8 = 0 ∧
      pool.Ok (sma.served i n) (Function.update live (pool.shmaddr i + off) (some sz)) := by
  rcases pool.mallocEx_eq lock sma n with ⟨he, -⟩ | ⟨i, hi, off, sz, ha, he⟩
  · exact .inl he
  have hlt := Pool.tried_lt h.last_lt hi
  rcases Nat.lt_or_ge (2 ^ 64) (n + blockSize + 8) with hwrap | hle
  · -- the segment is full, and so has no block for a request that wraps
    obtain ⟨order, hh⟩ := h.heap i hlt
    have hfull := hfits.resolve_left (by omega) i hi
    rw [(hh.smaAllocate_wrap hn hwrap).2 hfull] at ha
    cases ha
  · exact .inr ⟨i, hlt, off, sz, he, h.served hlt hle ha⟩

/-- Freeing a live payload frees it in the segment where it lies. -/
theorem Pool.Holds.free {cs : Nat → List Chunk} {live : Nat → Option Nat} {p sz : Nat}
    (h : pool.Holds sma cs live) (hp : live p = some sz) :
    ∃ i < pool.num, pool.segmentOf p = some i ∧ pool.shmaddr i + start + blockSize ≤ p ∧
      p + sz ≤ pool.shmaddr i + (sma.segs i).last ∧
      pool.free true sma p = sma.deallocate i (p - pool.shmaddr i) ∧
      pool.Ok (pool.free true sma p) (Function.update live p none) := by
  obtain ⟨i, hi, hseg, hok⟩ := h.deallocate hp
  obtain ⟨j, hj, c, hc, hpay⟩ := (h.live_iff p sz).1 hp
  have hb := h.payload_bounds hj hc hpay
  obtain rfl : i = j := Option.some.inj (hseg.symm.trans (h.segmentOf_eq hj hc hpay))
  have hfree : pool.free true sma p = sma.deallocate i (p - pool.shmaddr i) := by
    rw [Pool.free, hseg]
    rfl
  obtain ⟨order, hh⟩ := h.heap i hi
  have := hh.last_eq
  have := h.segsize i hi
  exact ⟨i, hi, hseg, by omega, by omega, hfree, by rw [hfree]; exact hok⟩

end Call

/-! ## Runs -/

/-- The allocator and the payloads that are live, with their sizes. -/
structure PoolState where
  sma : Sma
  live : Nat → Option Nat

/-- A call of the allocator, with the outcomes of its attempts to lock a segment. -/
inductive PoolReq where
  | malloc (lock : Nat → Bool) (n : Nat)
  | free (lock : Bool) (p : Nat)

section Run

variable {pool : Pool} {st st' : PoolState} {req : PoolReq} {reqs : List PoolReq} {n : Nat}

/-- The state after `immutable_cache_sma_init`. -/
def PoolState.init (pool : Pool) : PoolState := ⟨pool.init, fun _ => none⟩

/-- The state after an allocation. -/
def PoolState.malloc (pool : Pool) (st : PoolState) (lock : Nat → Bool) (n : Nat) : PoolState :=
  let r := pool.mallocEx lock st.sma n
  ⟨r.2, r.1.elim st.live fun a => Function.update st.live a.1 (some a.2)⟩

/-- The state after freeing a payload. -/
def PoolState.free (pool : Pool) (st : PoolState) (lock : Bool) (p : Nat) : PoolState :=
  ⟨pool.free lock st.sma p, if lock then Function.update st.live p none else st.live⟩

/-- The segments hold heaps, with the live payloads. -/
def PoolState.Ok (pool : Pool) (st : PoolState) : Prop := pool.Ok st.sma st.live

/-- One call: an allocation of any `size_t`, or a deallocation of a live payload. -/
def PoolStep (pool : Pool) (st : PoolState) (req : PoolReq) (st' : PoolState) : Prop :=
  match req with
  | .malloc lock n => n < 2 ^ 64 ∧ st' = st.malloc pool lock n
  | .free lock p => st.live p ≠ none ∧ st' = st.free pool lock p

/-- One call, which does not wrap where that matters. -/
def PoolStepFits (pool : Pool) (st : PoolState) (req : PoolReq) (st' : PoolState) : Prop :=
  PoolStep pool st req st' ∧ ∀ lock n, req = .malloc lock n → st.sma.Fits pool lock n

/-- An allocation that fits where it matters keeps the heaps. -/
theorem PoolState.malloc_ok {lock : Nat → Bool} (hok : st.Ok pool) (hn : n < 2 ^ 64)
    (hfits : st.sma.Fits pool lock n) : (st.malloc pool lock n).Ok pool := by
  obtain ⟨cs, h⟩ := hok
  rw [PoolState.malloc, PoolState.Ok]
  rcases h.mallocEx hn hfits with he | ⟨i, -, off, sz, he, -, -, -, -, -, hok⟩
  · rw [he]
    exact ⟨cs, h⟩
  · rw [he]
    exact hok

/-- Freeing a live payload keeps the heaps. -/
theorem PoolState.free_ok {lock : Bool} {p : Nat} (hok : st.Ok pool) (hp : st.live p ≠ none) :
    (st.free pool lock p).Ok pool := by
  obtain ⟨cs, h⟩ := hok
  obtain ⟨sz, hsz⟩ := Option.ne_none_iff_exists'.1 hp
  obtain ⟨i, -, hseg, -, -, -, hok⟩ := h.free hsz
  cases lock with
  | true => exact hok
  | false =>
    have he : pool.free false st.sma p = st.sma := by
      rw [Pool.free, hseg]
      rfl
    rw [PoolState.free, he, PoolState.Ok]
    exact ⟨cs, h⟩

/-- The heaps are sound in every state of a run whose requests fit where it matters. -/
theorem Pool.run_ok (hrun : Run (PoolStepFits pool) (.init pool) reqs st) : st.Ok pool := by
  have hinit : (PoolState.init pool).Ok pool := pool.init_ok
  refine hrun.invariant ?_ hinit
  intro st st' req _ hok hstep
  obtain ⟨hstep, hfits⟩ := hstep
  cases req with
  | malloc lock n =>
    obtain ⟨hn, rfl⟩ := hstep
    exact PoolState.malloc_ok hok hn (hfits lock n rfl)
  | free lock p =>
    obtain ⟨hp, rfl⟩ := hstep
    exact PoolState.free_ok hok hp

/-- A call gets nothing and leaves the allocator as it is, or gets a payload of at least `n` bytes
between the sentinels of a segment; in both cases the heaps stay sound. -/
def PoolState.MallocSound (pool : Pool) (st : PoolState) (lock : Nat → Bool) (n : Nat) : Prop :=
  (pool.mallocEx lock st.sma n = (none, st.sma) ∨
    ∃ p sz sma', pool.mallocEx lock st.sma n = (some (p, sz), sma') ∧ n ≤ sz ∧
      ∃ i < pool.num, pool.shmaddr i + start + blockSize ≤ p ∧
        p + sz ≤ pool.shmaddr i + (st.sma.segs i).last) ∧
  (st.malloc pool lock n).Ok pool

/-- Between the sentinels of a segment there is no room for a request that wraps. -/
theorem Pool.Holds.no_room {sma : Sma} {cs : Nat → List Chunk} {live : Nat → Option Nat}
    {i p sz : Nat} (h : pool.Holds sma cs live) (hi : i < pool.num)
    (hwrap : 2 ^ 64 < n + blockSize + 8) (hsz : n ≤ sz)
    (hle : p + sz ≤ pool.shmaddr i + (sma.segs i).last) : False := by
  obtain ⟨order, hh⟩ := h.heap i hi
  have := hh.last_eq
  have := h.segsize i hi
  have := pool.fits i
  have := layout
  omega

/-- A call is sound in a state with sound heaps exactly if its request fits where it matters. -/
theorem PoolState.Ok.mallocSound_iff {lock : Nat → Bool} (hok : st.Ok pool) (hn : n < 2 ^ 64) :
    st.MallocSound pool lock n ↔ st.sma.Fits pool lock n := by
  obtain ⟨cs, h⟩ := hok
  constructor
  · rintro ⟨hsound, -⟩
    rcases Nat.lt_or_ge (2 ^ 64) (n + blockSize + 8) with hwrap | hle
    · rcases hsound with hnone | ⟨p, sz, sma', -, hsz, i, hi, -, hle⟩
      · right
        intro i hi
        obtain ⟨order, hh⟩ := h.heap i (Pool.tried_lt h.last_lt hi)
        rw [← hh.smaAllocate_wrap hn hwrap]
        rcases pool.mallocEx_eq lock st.sma n with ⟨-, hall⟩ | ⟨j, -, off, sz, -, he⟩
        · exact hall i hi
        · rw [hnone] at he
          cases he
      · exact (h.no_room hi hwrap hsz hle).elim
    · exact .inl hle
  · intro hfits
    refine ⟨?_, PoolState.malloc_ok ⟨cs, h⟩ hn hfits⟩
    rcases h.mallocEx hn hfits with he | ⟨i, hi, off, sz, he, hsz, -, h1, h2, -, -⟩
    · exact .inl he
    · exact .inr ⟨_, sz, _, he, hsz, i, hi, by omega, by omega⟩

/-- In every state of a run whose requests fit where it matters, a call with any `size_t` is sound
exactly if its request fits where it matters. -/
theorem mallocEx_sound_iff {lock : Nat → Bool}
    (hrun : Run (PoolStepFits pool) (.init pool) reqs st) (hn : n < 2 ^ 64) :
    st.MallocSound pool lock n ↔ st.sma.Fits pool lock n :=
  (Pool.run_ok hrun).mallocSound_iff hn

/-- The payload of `sz` bytes at `p` in segment `i`, new in the allocator `sma'` after the state `st`
got a request for `n` bytes. -/
structure PoolState.Gives (pool : Pool) (st : PoolState) (n p sz i : Nat) (sma' : Sma) : Prop where
  seg_lt : i < pool.num
  aligned : p % wordSize = 0
  usable : n ≤ sz
  inside : pool.shmaddr i + start + blockSize ≤ p ∧ p + sz ≤ pool.shmaddr i + (st.sma.segs i).last
  /-- It lies in no other segment. -/
  only : ∀ j < pool.num, j ≠ i → p + sz ≤ pool.shmaddr j ∨ pool.shmaddr j + pool.size ≤ p
  disjoint : ∀ q b, st.live q = some b → p + sz ≤ q ∨ q + b ≤ p
  segs_eq : ∀ j, j ≠ i → sma'.segs j = st.sma.segs j
  last_lt : sma'.last < pool.num
  live : pool.Ok sma' (Function.update st.live p (some sz))
  /-- `immutable_cache_sma_free` takes it back. -/
  segmentOf : pool.segmentOf p = some i
  free_segs_eq : ∀ j, j ≠ i → (pool.free true sma' p).segs j = sma'.segs j
  free_live : pool.Ok (pool.free true sma' p) st.live

/-- With all locks acquired, a call for `n` bytes gets a block exactly if some segment has a free
one that is large enough, and a live payload is freed in its own segment. -/
def PoolState.MallocComplete (pool : Pool) (st : PoolState) (n : Nat) : Prop :=
  let r := pool.mallocEx (fun _ => true) st.sma n
  ∃ cs, pool.Holds st.sma cs st.live ∧
    (r.1 = none ↔
      ∀ i < pool.num, ∀ c ∈ cs i, c.free = true → c.size < alignword (n + blockSize)) ∧
    (r.1 = none → r.2 = st.sma) ∧
    (∀ p sz, r.1 = some (p, sz) → ∃ i, st.Gives pool n p sz i r.2) ∧
    ∀ p sz, st.live p = some sz → ∃ i < pool.num, pool.segmentOf p = some i ∧
      pool.shmaddr i + start + blockSize ≤ p ∧ p + sz ≤ pool.shmaddr i + (st.sma.segs i).last ∧
      (∀ j, j ≠ i → (pool.free true st.sma p).segs j = st.sma.segs j) ∧
      pool.Ok (pool.free true st.sma p) (Function.update st.live p none)

/-- Freeing a payload changes its own segment only. -/
theorem Pool.free_segs {sma : Sma} {p i j : Nat} (hseg : pool.segmentOf p = some i) (hj : j ≠ i) :
    (pool.free true sma p).segs j = sma.segs j := by
  rw [Pool.free, hseg]
  exact Function.update_of_ne hj _ _

/-- What a call gets from segment `i`. -/
theorem Pool.Holds.gives {cs : Nat → List Chunk} {i off sz : Nat}
    (h : pool.Holds st.sma cs st.live) (hi : i < pool.num) (hn : n + blockSize + 8 ≤ 2 ^ 64)
    (ha : (smaAllocate (st.sma.segs i) n minBlockSize).1 = some (off, sz)) :
    st.Gives pool n (pool.shmaddr i + off) sz i (st.sma.served i n) := by
  obtain ⟨hsz, hnew, h1, h2, h3, cs', h'⟩ := h.served hi hn ha
  set p := pool.shmaddr i + off with hp
  have hself : Function.update st.live p (some sz) p = some sz := Function.update_self ..
  obtain ⟨order, hh⟩ := h.heap i hi
  have hle := hh.last_eq
  have hsize := h.segsize i hi
  have hal := pool.aligned i
  have hL := layout
  obtain ⟨j, hj, hseg, hj1, hj2, -, hfree⟩ := h'.free hself
  -- the segment that `free` finds is the one that gave the block
  obtain rfl : j = i := by
    by_contra hne
    have hapart := pool.apart hj hi hne
    obtain ⟨order', hh'⟩ := h'.heap j hj
    have := hh'.last_eq
    have := h'.segsize j hj
    omega
  refine { seg_lt := hi, aligned := by rw [hL.1]; omega, usable := hsz, inside := ⟨by omega, by omega⟩
           only := ?_, disjoint := ?_, segs_eq := ?_, last_lt := hi, live := ⟨cs', h'⟩
           segmentOf := hseg, free_segs_eq := fun k hk => Pool.free_segs hseg hk, free_live := ?_ }
  · intro k hk hne
    have := pool.apart hk hi hne
    omega
  · intro q b hq
    have hne : p ≠ q := by
      rintro rfl
      rw [hnew] at hq
      cases hq
    refine h'.apart hself ?_ hne
    rw [Function.update_of_ne hne.symm]
    exact hq
  · intro k hk
    exact Function.update_of_ne hk _ _
  · rw [Function.update_idem, ← hnew, Function.update_eq_self] at hfree
    exact hfree

/-- In a state with sound heaps, a call whose size and header do not wrap is complete exactly if the
alignment does not wrap either. -/
theorem PoolState.Ok.mallocComplete_iff (hok : st.Ok pool) (hn : n + blockSize < 2 ^ 64) :
    st.MallocComplete pool n ↔ n + blockSize + 8 ≤ 2 ^ 64 := by
  have hL := layout
  rw [MallocComplete]
  constructor
  · rintro ⟨cs, h, -, hnone, hsome, -⟩
    by_contra hwrap
    rcases pool.mallocEx_eq (fun _ => true) st.sma n with ⟨-, hall⟩ | ⟨i, hi, off, sz, -, he⟩
    · -- the block size is 0, and so the first segment has a block
      obtain ⟨order, hh⟩ := h.heap 0 pool.num_pos
      have hfull := hall 0 (Pool.mem_tried pool.num_pos)
      rw [hh.smaAllocate_wrap (by omega) (by omega)] at hfull
      omega
    · obtain ⟨j, hg⟩ := hsome _ sz (by rw [he])
      exact h.no_room hg.seg_lt (by omega) hg.usable hg.inside.2
  · intro hle
    obtain ⟨cs, h⟩ := hok
    obtain ⟨hr, hge⟩ := realsize_eq hle
    have hpos : 0 < realsize n := by omega
    rw [← hr]
    refine ⟨cs, h, ?_, ?_, ?_, ?_⟩
    · rcases pool.mallocEx_eq (fun _ => true) st.sma n with ⟨he, hall⟩ | ⟨i, hi, off, sz, ha, he⟩
      · rw [he]
        refine ⟨fun _ i hi => ?_, fun _ => rfl⟩
        obtain ⟨order, hh⟩ := h.heap i hi
        exact (hh.smaAllocate_none_iff hpos).1 (hall i (Pool.mem_tried hi))
      · rw [he]
        refine ⟨nofun, fun hall => ?_⟩
        have hi := Pool.tried_lt h.last_lt hi
        obtain ⟨order, hh⟩ := h.heap i hi
        rw [(hh.smaAllocate_none_iff hpos).2 (hall i hi)] at ha
        cases ha
    · intro hnone
      rcases pool.mallocEx_eq (fun _ => true) st.sma n with ⟨he, -⟩ | ⟨i, -, off, sz, -, he⟩
      · rw [he]
      · rw [he] at hnone
        cases hnone
    · intro p sz hsome
      rcases pool.mallocEx_eq (fun _ => true) st.sma n with ⟨he, -⟩ | ⟨i, hi, off, b, ha, he⟩
      · rw [he] at hsome
        cases hsome
      · rw [he] at hsome ⊢
        cases hsome
        exact ⟨i, h.gives (Pool.tried_lt h.last_lt hi) hle ha⟩
    · intro p sz hp
      obtain ⟨i, hi, hseg, h1, h2, -, hfree⟩ := h.free hp
      exact ⟨i, hi, hseg, h1, h2, fun j hj => Pool.free_segs hseg hj, hfree⟩

/-- In every state of a run whose requests fit where it matters, a call whose size and header do not
wrap is complete exactly if the alignment does not wrap either. -/
theorem mallocEx_complete_iff (hrun : Run (PoolStepFits pool) (.init pool) reqs st)
    (hn : n + blockSize < 2 ^ 64) : st.MallocComplete pool n ↔ n + blockSize + 8 ≤ 2 ^ 64 :=
  (Pool.run_ok hrun).mallocComplete_iff hn

end Run

/-- Two segments of a megabyte. -/
def Pool.two : Pool where
  num := 2
  size := 2 ^ 20
  shmaddr i := if i = 0 then 2 ^ 20 else 2 ^ 21
  num_pos := by decide
  size_ge := le_rfl
  aligned i := by split <;> decide
  apart hi hj hne := by split <;> split <;> omega
  fits i := by split <;> decide

/-- A run that allocates 100 bytes. -/
theorem Pool.two_run : ∃ st,
    Run (PoolStepFits .two) (.init .two) [.malloc (fun _ => true) 100] st := by
  refine ⟨_, .cons ⟨⟨by decide, rfl⟩, ?_⟩ .nil⟩
  rintro lock n heq
  cases heq
  exact .inl (by decide)

/-- After an allocation of 100 bytes, another call is sound. -/
theorem mallocEx_sound_iff_two : ∃ st,
    Run (PoolStepFits .two) (.init .two) [.malloc (fun _ => true) 100] st ∧
    st.MallocSound .two (fun _ => true) 200 := by
  obtain ⟨st, hrun⟩ := Pool.two_run
  exact ⟨st, hrun, (mallocEx_sound_iff hrun (by decide)).2 (.inl (by decide))⟩

/-- After an allocation of 100 bytes, another call is complete. -/
theorem mallocEx_complete_iff_two : ∃ st,
    Run (PoolStepFits .two) (.init .two) [.malloc (fun _ => true) 100] st ∧
    st.MallocComplete .two 200 := by
  obtain ⟨st, hrun⟩ := Pool.two_run
  exact ⟨st, hrun, (mallocEx_complete_iff hrun (by decide)).2 (by decide)⟩

/-- The aligned block size of a request of `2 ^ 64 - 33` bytes is 0, and the call gets a block. -/
theorem mallocEx_not_sound : ¬ ∀ (pool : Pool) (reqs : List PoolReq) (st : PoolState),
    Run (PoolStep pool) (.init pool) reqs st → ∀ (lock : Nat → Bool) (n : Nat), n < 2 ^ 64 →
      st.MallocSound pool lock n := by
  intro hall
  have hok : (PoolState.init .two).Ok .two := Pool.two.init_ok
  have hsound := hall .two [] _ .nil (fun _ => true) (2 ^ 64 - 33) (by decide)
  rcases (hok.mallocSound_iff (by decide)).1 hsound with hle | hfull
  · exact absurd hle (by decide)
  · exact absurd (hfull 0 (Pool.mem_tried (by decide))).1 (by decide)

/-- That call gets a block although none of the free blocks is large enough. -/
theorem mallocEx_not_complete : ¬ ∀ (pool : Pool) (reqs : List PoolReq) (st : PoolState),
    Run (PoolStep pool) (.init pool) reqs st → ∀ n : Nat, n + blockSize < 2 ^ 64 →
      st.MallocComplete pool n := by
  intro hall
  have hok : (PoolState.init .two).Ok .two := Pool.two.init_ok
  have hcomplete := hall .two [] _ .nil (2 ^ 64 - 33) (by decide)
  exact absurd ((hok.mallocComplete_iff (by decide)).1 hcomplete) (by decide)

end ImmutableCache
