import ImmutableCache.Sma.Malloc

/-!
# Available memory

`immutable_cache_sma_get_avail_mem` adds up the `avail` of the segments, and
`immutable_cache_sma_get_avail_size` tells whether one of them has more than a given number of bytes.
What is available and the live blocks, with their headers, add up to what was available at first
(`Pool.run_availMem`), so nothing is lost whatever has been allocated and freed, as long as the sizes
that are asked for do not wrap around. Where no segment has enough there is nothing to allocate; the
other way round, the memory that is available may lie in blocks that are too small.
-/

namespace ImmutableCache

open Segment

variable {pool : Pool} {sma : Sma} {cs : Nat → List Chunk} {live : Nat → Option Nat} {i n p : Nat}
  {s : Segment} {ds : List Chunk} {order : List Nat}

/-- `immutable_cache_sma_get_avail_mem`. -/
def Pool.getAvailMem (pool : Pool) (sma : Sma) : Nat :=
  (List.range pool.num).foldl (fun availMem i => SizeT.add availMem (sma.segs i).avail) 0

/-- `immutable_cache_sma_get_avail_size`. -/
def Pool.getAvailSize (pool : Pool) (sma : Sma) (size : Nat) : Bool :=
  (List.range pool.num).any fun i => decide (size < (sma.segs i).avail)

/-! ## One segment -/

/-- The number of bytes of the live blocks of a list, headers included. -/
def liveBytes (cs : List Chunk) : Nat := ((cs.filter (!·.free)).map (·.size)).sum

/-- The first chunk counts unless it is free. -/
theorem liveBytes_cons (c : Chunk) (cs : List Chunk) :
    liveBytes (c :: cs) = c.size - c.tag + liveBytes cs := by
  unfold liveBytes Chunk.tag
  cases hc : c.free <;> simp [hc]

/-- The blocks of a walk fill its range. -/
theorem Walk.total {a as b bs : Nat} (h : Walk s a as ds b bs) :
    a + freeBytes ds + liveBytes ds = b := by
  induction ds generalizing a as with
  | nil => exact h.1
  | cons c ds ih =>
    obtain ⟨-, -, -, -, -, -, hw⟩ := h
    have htag : c.tag ≤ c.size := by
      unfold Chunk.tag
      split <;> omega
    rw [freeBytes_cons, liveBytes_cons, ← ih hw]
    omega

/-- What is available and what is live fill the segment. -/
theorem Heap.avail_add (h : Heap s ds order) :
    s.avail + liveBytes ds = s.segsize - start - blockSize := by
  obtain ⟨qs, hw, -⟩ := h.walk
  have htotal := hw.total
  have hroom := h.room
  have havail := h.avail
  have hlast : s.last = s.segsize - 2 * blockSize := rfl
  omega

/-! ## All segments -/

/-- The segments lie side by side in an address space of 64 bits. -/
theorem Pool.num_mul_size_le (pool : Pool) : pool.num * pool.size ≤ 2 ^ 64 := by
  have hdisjoint : ∀ i ∈ Finset.range pool.num, ∀ j ∈ Finset.range pool.num, i ≠ j →
      Disjoint (Finset.Ico (pool.shmaddr i) (pool.shmaddr i + pool.size))
        (Finset.Ico (pool.shmaddr j) (pool.shmaddr j + pool.size)) := by
    intro i hi j hj hij
    have hapart := pool.apart (Finset.mem_range.1 hi) (Finset.mem_range.1 hj) hij
    rw [Finset.disjoint_left]
    intro a ha ha'
    rw [Finset.mem_Ico] at ha ha'
    omega
  have hcard := Finset.card_biUnion hdisjoint
  have hsum : ∑ i ∈ Finset.range pool.num,
      (Finset.Ico (pool.shmaddr i) (pool.shmaddr i + pool.size)).card = pool.num * pool.size := by
    simp
  have hsub : (Finset.range pool.num).biUnion
      (fun i => Finset.Ico (pool.shmaddr i) (pool.shmaddr i + pool.size)) ⊆ Finset.range (2 ^ 64) := by
    intro a ha
    obtain ⟨i, -, ha⟩ := Finset.mem_biUnion.1 ha
    have hfits := pool.fits i
    rw [Finset.mem_Ico] at ha
    exact Finset.mem_range.2 (by omega)
  have hle := Finset.card_le_card hsub
  rwa [hcard, hsum, Finset.card_range] at hle

namespace Pool.Holds

variable (h : pool.Holds sma cs live)

include h

/-- In each segment, what is available and what is allocated make up the whole. -/
theorem avail_add (hi : i < pool.num) :
    (sma.segs i).avail + liveBytes (cs i) = pool.size - start - blockSize := by
  obtain ⟨order, hheap⟩ := h.heap i hi
  rw [hheap.avail_add, h.segsize i hi]

/-- The sum does not wrap. -/
theorem getAvailMem_eq :
    pool.getAvailMem sma = ((List.range pool.num).map fun i => (sma.segs i).avail).sum := by
  have hle : ((List.range pool.num).map fun i => (sma.segs i).avail).sum ≤
      ((List.range pool.num).map fun _ => pool.size - 1).sum := by
    refine List.sum_le_sum fun i hi => ?_
    have hadd := h.avail_add (List.mem_range.1 hi)
    have hL := layout
    omega
  have hnum := pool.num_mul_size_le
  have hpos := pool.num_pos
  have hsize := pool.size_ge
  have hlt : pool.num * (pool.size - 1) < pool.num * pool.size :=
    Nat.mul_lt_mul_of_pos_left (by omega) hpos
  rw [List.map_const', List.sum_replicate, List.length_range, smul_eq_mul] at hle
  rw [getAvailMem, SizeT.foldl_add_eq (by omega), Nat.zero_add]

end Pool.Holds

/-- The payloads of the live blocks, segment by segment. -/
def Pool.payloads (pool : Pool) (cs : Nat → List Chunk) : List Nat :=
  (List.range pool.num).flatMap fun i =>
    ((cs i).filter (!·.free)).map fun c => pool.shmaddr i + (c.off + blockSize)

namespace Pool.Holds

/-- A payload belongs to a chunk that is not free. -/
theorem mem_payloads : p ∈ pool.payloads cs ↔
    ∃ i < pool.num, ∃ c ∈ cs i, pool.IsPayload i c p (c.size - blockSize) := by
  simp only [Pool.payloads, List.mem_flatMap, List.mem_range, List.mem_map, List.mem_filter,
    Bool.not_eq_true', Pool.IsPayload]
  constructor
  · rintro ⟨i, hi, c, ⟨hc, hfree⟩, rfl⟩
    exact ⟨i, hi, c, hc, hfree, rfl, trivial⟩
  · rintro ⟨i, hi, c, hc, hfree, rfl, -⟩
    exact ⟨i, hi, c, ⟨hc, hfree⟩, rfl⟩

variable (h : pool.Holds sma cs live)

include h

/-- The payloads are the addresses that are allocated. -/
theorem mem_payloads_iff : p ∈ pool.payloads cs ↔ live p ≠ none := by
  rw [mem_payloads]
  constructor
  · rintro ⟨i, hi, c, hc, hpay⟩ hno
    rw [(h.live_iff p _).2 ⟨i, hi, c, hc, hpay⟩] at hno
    cases hno
  · intro hp
    obtain ⟨sz, hsz⟩ := Option.ne_none_iff_exists'.1 hp
    obtain ⟨i, hi, c, hc, hpay⟩ := (h.live_iff p sz).1 hsz
    obtain rfl := hpay.2.2
    exact ⟨i, hi, c, hc, hpay⟩

/-- No payload is listed twice. -/
theorem nodup_payloads : (pool.payloads cs).Nodup := by
  have hone {i : Nat} {c : Chunk} (hc : c ∈ (cs i).filter (!·.free)) :
      c ∈ cs i ∧ pool.IsPayload i c (pool.shmaddr i + (c.off + blockSize)) (c.size - blockSize) := by
    rw [List.mem_filter, Bool.not_eq_true'] at hc
    exact ⟨hc.1, hc.2, rfl, rfl⟩
  refine List.nodup_flatMap.2 ⟨fun i hi => ?_, ?_⟩
  · rw [List.mem_range] at hi
    obtain ⟨order, hheap⟩ := h.heap i hi
    refine List.Nodup.map_on (fun c hc d hd hcd => ?_) (hheap.nodup.of_map.filter _)
    obtain ⟨hc, hpay⟩ := hone hc
    obtain ⟨hd, hpay'⟩ := hone hd
    rw [hcd] at hpay
    exact (h.payload_unique hi hi hc hd hpay hpay').2
  · refine List.nodup_range.pairwise_of_forall_ne fun i hi j hj hij => ?_
    rw [List.mem_range] at hi hj
    intro p hp hp'
    obtain ⟨c, hc, rfl⟩ := List.mem_map.1 hp
    obtain ⟨d, hd, hcd⟩ := List.mem_map.1 hp'
    obtain ⟨hc, hpay⟩ := hone hc
    obtain ⟨hd, hpay'⟩ := hone hd
    rw [hcd] at hpay'
    exact hij (h.payload_unique hi hj hc hd hpay hpay').1

/-- Summed up over the payloads, the blocks have the bytes that are allocated in the segments. -/
theorem sum_payloads : ((pool.payloads cs).map fun p => (live p).getD 0 + blockSize).sum =
    ((List.range pool.num).map fun i => liveBytes (cs i)).sum := by
  rw [Pool.payloads, List.map_flatMap, List.flatMap, List.sum_flatten, List.map_map]
  refine congrArg List.sum (List.map_congr_left fun i hi => ?_)
  rw [Function.comp_apply, List.map_map, liveBytes]
  refine congrArg List.sum (List.map_congr_left fun c hc => ?_)
  rw [List.mem_range] at hi
  rw [List.mem_filter, Bool.not_eq_true'] at hc
  obtain ⟨order, hheap⟩ := h.heap i hi
  obtain ⟨qs, hw, -⟩ := hheap.walk
  have hsize := (hw.mem hc.1).2.2.2.1
  have hlive : live (pool.shmaddr i + (c.off + blockSize)) = some (c.size - blockSize) :=
    (h.live_iff _ _).2 ⟨i, hi, c, hc.1, hc.2, rfl, rfl⟩
  rw [Function.comp_apply, hlive, Option.getD_some]
  omega

/-- What is available and what is live add up to the same, whatever is live. -/
theorem getAvailMem_add : pool.getAvailMem sma +
    ((pool.payloads cs).map fun p => (live p).getD 0 + blockSize).sum =
      pool.num * (pool.size - start - blockSize) := by
  rw [h.getAvailMem_eq, h.sum_payloads, ← List.sum_map_add]
  have hsum : ((List.range pool.num).map fun i => (sma.segs i).avail + liveBytes (cs i)) =
      (List.range pool.num).map fun _ => pool.size - start - blockSize :=
    List.map_congr_left fun i hi => h.avail_add (List.mem_range.1 hi)
  rw [hsum, List.map_const', List.sum_replicate, List.length_range, smul_eq_mul]

/-- A segment that has a block has more than was asked for. -/
theorem mallocEx_none {lock : Nat → Bool} (hn : n + blockSize + 8 ≤ 2 ^ 64)
    (havail : pool.getAvailSize sma n = false) : pool.mallocEx lock sma n = (none, sma) := by
  obtain ⟨hnone, -⟩ | ⟨i, hi, off, sz, hsome, -⟩ := pool.mallocEx_eq lock sma n
  · exact hnone
  exfalso
  have hr := (realsize_eq hn).2
  have hL := layout
  have hno : (smaAllocate (sma.segs i) n minBlockSize).1 = none := by
    refine (smaAllocate_none rfl).2 (.inl ?_)
    rw [Pool.getAvailSize, List.any_eq_false] at havail
    have hle := havail i (List.mem_range.2 (Pool.tried_lt h.last_lt hi))
    rw [decide_eq_true_eq] at hle
    omega
  rw [hno] at hsome
  cases hsome

end Pool.Holds

/-- At every point of a run whose requests fit, the counter adds up the segments without wrapping
around, what is available and the live payloads with their headers are what was available at first, and
where no segment has more than `n` bytes available a request for `n` bytes gets nothing, if `n` with
the header and the alignment does not wrap around. -/
theorem Pool.run_availMem {reqs : List PoolReq} {st : PoolState}
    (hrun : Run (PoolStepFits pool) (.init pool) reqs st) :
    pool.getAvailMem st.sma = ((List.range pool.num).map fun i => (st.sma.segs i).avail).sum ∧
    (∃ ps : List Nat, ps.Nodup ∧ (∀ p, p ∈ ps ↔ st.live p ≠ none) ∧
      pool.getAvailMem st.sma + (ps.map fun p => (st.live p).getD 0 + blockSize).sum =
        pool.getAvailMem pool.init) ∧
    ∀ lock n, n + blockSize + 8 ≤ 2 ^ 64 → pool.getAvailSize st.sma n = false →
      pool.mallocEx lock st.sma n = (none, st.sma) := by
  obtain ⟨cs, h⟩ := Pool.run_ok hrun
  obtain ⟨cs₀, h₀⟩ := pool.init_ok
  have hnil : pool.payloads cs₀ = [] :=
    List.eq_nil_iff_forall_not_mem.2 fun p hp => h₀.mem_payloads_iff.1 hp rfl
  have htotal := h₀.getAvailMem_add
  rw [hnil, List.map_nil, List.sum_nil, Nat.add_zero] at htotal
  refine ⟨h.getAvailMem_eq, ⟨pool.payloads cs, h.nodup_payloads, fun p => h.mem_payloads_iff, ?_⟩,
    fun lock n hn havail => h.mallocEx_none hn havail⟩
  rw [htotal]
  exact h.getAvailMem_add

/-- After an allocation of 100 bytes. -/
theorem Pool.run_availMem_two : ∃ st,
    Run (PoolStepFits .two) (.init .two) [.malloc (fun _ => true) 100] st ∧
    Pool.two.getAvailMem st.sma = ((List.range Pool.two.num).map fun i => (st.sma.segs i).avail).sum ∧
    (∃ ps : List Nat, ps.Nodup ∧ (∀ p, p ∈ ps ↔ st.live p ≠ none) ∧
      Pool.two.getAvailMem st.sma + (ps.map fun p => (st.live p).getD 0 + blockSize).sum =
        Pool.two.getAvailMem Pool.two.init) ∧
    ∀ lock n, n + blockSize + 8 ≤ 2 ^ 64 → Pool.two.getAvailSize st.sma n = false →
      Pool.two.mallocEx lock st.sma n = (none, st.sma) := by
  obtain ⟨st, hrun⟩ := Pool.two_run
  exact ⟨st, hrun, Pool.run_availMem hrun⟩

end ImmutableCache
