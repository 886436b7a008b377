import ImmutableCache.Lib.Run
import ImmutableCache.Sma.Deallocate

/-!
# Runs of the allocator on one segment

A segment starts as `immutable_cache_sma_init` leaves it and then serves requests in any order:
`sma_allocate` with any `size_t`, and `sma_deallocate` on the payload of a block that is live. The
live payload offsets are kept beside the segment. `SmaState.Ok` is the heap invariant of the whole
state: the segment holds a heap whose live blocks are exactly the live payloads.

The invariant survives every request whose block size, aligned, is a `size_t`
(`smaRun_ok`). `ALIGNWORD(size + header)` wraps to 0 for the seven requests above that, and
`sma_allocate` then hands out the `last` sentinel (`smaRun_not_ok`).
-/

namespace ImmutableCache

open Segment

/-- A segment and the payload offsets of its live blocks. -/
structure SmaState where
  seg : Segment
  live : List Nat

/-- A request to the allocator. -/
inductive SmaReq where
  | allocate (n : Nat)
  | deallocate (offset : Nat)

/-- The state of a segment of the given size after `immutable_cache_sma_init`. -/
def SmaState.init (segmentSize : Nat) : SmaState := ⟨smaInitSegment segmentSize, []⟩

/-- The state after an allocation: the payload offset, if there is one, is live. -/
def SmaState.allocate (st : SmaState) (n : Nat) : SmaState :=
  let r := smaAllocate st.seg n minBlockSize
  ⟨r.2, (r.1.map Prod.fst).toList ++ st.live⟩

/-- The state after a deallocation. -/
def SmaState.deallocate (st : SmaState) (offset : Nat) : SmaState :=
  ⟨smaDeallocate st.seg offset, st.live.erase offset⟩

/-- One request: an allocation whose size plus header is a `size_t`, or a deallocation of a live
block. -/
def SmaStep (st : SmaState) (req : SmaReq) (st' : SmaState) : Prop :=
  match req with
  | .allocate n => n + blockSize < 2 ^ 64 ∧ st' = st.allocate n
  | .deallocate offset => offset ∈ st.live ∧ st' = st.deallocate offset

/-- The heap invariant: the segment holds a heap, and its live blocks are the live payloads. -/
structure SmaState.Holds (st : SmaState) (cs : List Chunk) (order : List Nat) : Prop where
  heap : Heap st.seg cs order
  nodup : st.live.Nodup
  mem_live : ∀ off, off ∈ st.live ↔ ∃ c ∈ cs, c.free = false ∧ off = c.off + blockSize

/-- The segment of the state holds some heap. -/
def SmaState.Ok (st : SmaState) : Prop := ∃ cs order, st.Holds cs order

/-! ## The initial segment -/

/-- `immutable_cache_sma_init` leaves one free block between the sentinels. -/
theorem smaInitSegment_heap {n : Nat} (h1 : start + 3 * blockSize ≤ n) (h2 : n < 2 ^ 64) :
    Heap (smaInitSegment n) [⟨start, n - start - 2 * blockSize, true⟩] [start] := by
  have hL := layout
  have e1 : SizeT.sub n smaHeaderSize = n - smaHeaderSize := SizeT.sub_eq (by omega) h2
  have e2 : SizeT.sub (n - smaHeaderSize) blockSize = n - start :=
    (SizeT.sub_eq (by omega) (by omega)).trans (by omega)
  have e3 : SizeT.sub (n - start) blockSize = n - start - blockSize :=
    SizeT.sub_eq (by omega) (by omega)
  have e4 : SizeT.sub (n - start - blockSize) blockSize = n - start - 2 * blockSize :=
    (SizeT.sub_eq (by omega) (by omega)).trans (by omega)
  have e5 : SizeT.add smaHeaderSize blockSize = start := SizeT.add_eq (by omega)
  have e6 : SizeT.add start (n - start - 2 * blockSize) = n - 2 * blockSize :=
    (SizeT.add_eq (by omega)).trans (by omega)
  have hne : start ≠ first := by omega
  have hl1 : n - 2 * blockSize ≠ first := by omega
  have hl2 : n - 2 * blockSize ≠ start := by omega
  have hs : smaInitSegment n =
      { segsize := n, avail := n - start - blockSize
        size := Function.update (Function.update (Function.update (fun _ => 0) first 0) start
          (n - start - 2 * blockSize)) (n - 2 * blockSize) 0
        prevSize := Function.update (Function.update (Function.update (fun _ => 0) first 0) start 0)
          (n - 2 * blockSize) (n - start - 2 * blockSize)
        fnext := Function.update (Function.update (Function.update (fun _ => 0) first start) start
          (n - 2 * blockSize)) (n - 2 * blockSize) 0
        fprev := Function.update (Function.update (Function.update (fun _ => 0) first 0) start
          first) (n - 2 * blockSize) start } := by
    simp [smaInitSegment, setSize, setFnext, setFprev, setPrevSize, e1, e2, e3, e4, e5, e6,
      Function.update_of_ne hl2.symm]
  have hlast : (smaInitSegment n).last = n - 2 * blockSize := by rw [hs]; rfl
  have hwalk : Walk (smaInitSegment n) start 0 [⟨start, n - start - 2 * blockSize, true⟩]
      (n - 2 * blockSize) (n - start - 2 * blockSize) := by
    refine Walk.cons_iff.2 ⟨rfl, ?_, ?_, ?_, ?_, fun _ => rfl, ?_⟩
    · rw [hs]
      simp [Function.update_of_ne hl2.symm]
    · rw [hs]
      simp [Function.update_of_ne hl2.symm]
    · dsimp only; omega
    · omega
    · exact ⟨by dsimp only; omega, rfl⟩
  refine
    { range := ?_, nodup := by simp, links := ?_, perm := ?_, live := by simp, fnext_last := ?_
      room := ?_, bound := by rw [hs]; exact h2, walk := ⟨_, by rw [hlast]; exact hwalk, ?_⟩
      size_last := ?_, avail := ?_ }
  · rw [hlast]
    simp only [List.mem_singleton, forall_eq, le_refl, true_and]
    omega
  · rw [hlast, hs]
    simp [Function.update_of_ne hl2.symm, Function.update_of_ne hl1.symm]
  · rw [freeOffs_cons_free rfl]
    exact .refl _
  · rw [hlast, hs]
    simp
  · rw [hs]
    dsimp only
    omega
  · rw [hlast, hs]
    simp
  · rw [hlast, hs]
    simp
  · rw [hs]
    simp only [freeBytes_cons, freeBytes_nil, Chunk.tag, if_true]
    omega

/-! ## Steps -/

/-- Freeing a block keeps the other live blocks and makes no new one. -/
theorem mem_release {pre post : List Chunk} {c d : Chunk} (hd : d.free = false) :
    d ∈ release pre c post ↔ d ∈ pre ++ post := by
  have h1 : d ∈ (mergePrev pre c.off).1 ↔ d ∈ pre := by
    rcases List.eq_nil_or_concat pre with rfl | ⟨pre', e, rfl⟩
    · simp [mergePrev]
    cases hf : e.free with
    | false => simp [mergePrev, hf]
    | true =>
      have hne : d ≠ e := by rintro rfl; rw [hd] at hf; cases hf
      simp [mergePrev, hf, hne]
  have h2 : d ∈ (mergeNext post (c.off + c.size)).1 ↔ d ∈ post := by
    cases post with
    | nil => simp [mergeNext]
    | cons e post =>
      cases hf : e.free with
      | false => simp [mergeNext, hf]
      | true =>
        have hne : d ≠ e := by rintro rfl; rw [hd] at hf; cases hf
        simp [mergeNext, hf, hne]
  have h3 : ∀ a b, d ≠ ⟨a, b, true⟩ := by rintro a b rfl; cases hd
  simp [release, h1, h2, h3]

namespace SmaState.Holds

variable {st : SmaState} {cs : List Chunk} {order : List Nat}

/-- `sma_allocate` keeps the invariant when the aligned block size is a `size_t`. -/
theorem allocate {n : Nat} (h : st.Holds cs order) (hn : n + blockSize + 8 ≤ 2 ^ 64) :
    (st.allocate n).Ok := by
  obtain ⟨qs, hw, -⟩ := h.heap.walk
  rcases h.heap.smaAllocate_spec hn with
    ⟨he, -⟩ | ⟨pre, c, post, sz, order', s', rfl, hf, -, -, he, -, hs⟩
  · refine ⟨cs, order, ?_⟩
    simpa only [SmaState.allocate, he, Option.map_none, Option.toList_none, List.nil_append]
      using h
  -- in both branches the live blocks are the old ones and the new one at `c.off`
  have hnew : ∀ rest : List Chunk, (∀ d ∈ rest, d.free = true) → ∀ off,
      (off ∈ (c.off + blockSize) :: st.live ↔
        ∃ d ∈ pre ++ ⟨c.off, sz, false⟩ :: (rest ++ post),
          d.free = false ∧ off = d.off + blockSize) := by
    intro rest hrest off
    rw [List.mem_cons, h.mem_live]
    constructor
    · rintro (rfl | ⟨d, hd, hdl, rfl⟩)
      · exact ⟨⟨c.off, sz, false⟩, by simp, rfl, rfl⟩
      · refine ⟨d, ?_, hdl, rfl⟩
        simp only [List.mem_append, List.mem_cons] at hd ⊢
        rcases hd with hd | rfl | hd
        · exact .inl hd
        · rw [hf] at hdl
          cases hdl
        · exact .inr (.inr (.inr hd))
    · rintro ⟨d, hd, hdl, rfl⟩
      simp only [List.mem_append, List.mem_cons] at hd
      rcases hd with hd | rfl | hd | hd
      · exact .inr ⟨d, by simp [hd], hdl, rfl⟩
      · exact .inl rfl
      · rw [hrest d hd] at hdl; cases hdl
      · exact .inr ⟨d, by simp [hd], hdl, rfl⟩
  have hnd : ((c.off + blockSize) :: st.live).Nodup := by
    refine List.nodup_cons.2 ⟨fun hm => ?_, h.nodup⟩
    obtain ⟨d, hd, hdl, he⟩ := (h.mem_live _).1 hm
    rw [hw.off_inj hd (d := c) (by simp) (by omega), hf] at hdl
    cases hdl
  have heq : st.allocate n = ⟨s', (c.off + blockSize) :: st.live⟩ := by
    simp only [SmaState.allocate, he, Option.map_some, Option.toList_some, List.cons_append,
      List.nil_append]
  rw [heq]
  rcases hs with ⟨-, hs⟩ | ⟨-, hs⟩
  · exact ⟨_, order', hs, hnd, hnew [] (by simp)⟩
  · exact ⟨_, order', hs, hnd, hnew [⟨c.off + sz, c.size - sz, true⟩] (by simp)⟩

/-- `sma_deallocate` of a live block keeps the invariant. -/
theorem deallocate {off : Nat} (h : st.Holds cs order) (hoff : off ∈ st.live) :
    (st.deallocate off).Ok := by
  obtain ⟨c, hc, hl, rfl⟩ := (h.mem_live off).1 hoff
  obtain ⟨qs, hw, -⟩ := h.heap.walk
  obtain ⟨pre, post, rfl⟩ := List.append_of_mem hc
  obtain ⟨order', hs⟩ := h.heap.smaDeallocate_spec hl
  refine ⟨_, order', hs, h.nodup.erase _, fun off => ?_⟩
  change off ∈ st.live.erase _ ↔ _
  rw [h.nodup.mem_erase_iff, h.mem_live]
  constructor
  · rintro ⟨hne, d, hd, hdl, rfl⟩
    refine ⟨d, (mem_release hdl).2 ?_, hdl, rfl⟩
    simp only [List.mem_append, List.mem_cons] at hd ⊢
    rcases hd with hd | rfl | hd
    exacts [.inl hd, absurd rfl hne, .inr hd]
  · rintro ⟨d, hd, hdl, rfl⟩
    have hd' := (mem_release hdl).1 hd
    have hm : d ∈ pre ++ c :: post := by
      simp only [List.mem_append, List.mem_cons] at hd' ⊢
      tauto
    refine ⟨fun he => ?_, d, hm, hdl, rfl⟩
    -- two live blocks at one offset would be one block, which has left the list
    have hdc : d = c := hw.off_inj hm hc (by omega)
    have hnd := hw.nodup_off
    rw [List.map_append, List.map_cons, List.perm_middle.nodup_iff, ← List.map_append] at hnd
    exact (List.nodup_cons.1 hnd).1 (hdc ▸ List.mem_map_of_mem hd')

end SmaState.Holds

/-- The walk of `immutable_cache_sma_info` lists the nodes of the free list. -/
theorem smaInfoLinks_eq {s : Segment} : ∀ {l : List Nat} {fuel prv z : Nat},
    Links s.fnext s.fprev (prv :: (l ++ [z])) → (∀ o ∈ l ++ [z], 0 < o) → s.fnext z = 0 →
    l.length < fuel → smaInfoLinks s fuel prv = l.map fun o => (s.size o, o)
  | [], fuel + 1, prv, z, hl, _, hz, _ => by
    have hn : s.fnext prv = z := hl.1
    simp [smaInfoLinks, hn, hz]
  | o :: l, fuel + 1, prv, z, hl, hp, hz, hf => by
    obtain ⟨hn, -, hl'⟩ := hl
    have ih : smaInfoLinks s fuel o = l.map fun o => (s.size o, o) :=
      smaInfoLinks_eq hl' (fun x hx => hp x (by simp [hx])) hz (by simpa using hf)
    have hno : s.fnext o ≠ 0 := by
      obtain ⟨y, l', hy⟩ := List.exists_cons_of_ne_nil (l := l ++ [z]) (by simp)
      have hl'' : Links s.fnext s.fprev (o :: y :: l') := hy ▸ hl'
      have hy0 := hp y (by rw [List.cons_append, hy]; simp)
      have := hl''.1
      omega
    rw [smaInfoLinks, hn, if_neg hno, ih]
    rfl

/-- The report of `immutable_cache_sma_info` on a heap is the list of its free blocks. -/
theorem Heap.smaInfoLinks_eq {s : Segment} {cs : List Chunk} {order : List Nat}
    (h : Heap s cs order) :
    smaInfoLinks s s.segsize first = order.map fun o => (s.size o, o) := by
  have hL := layout
  obtain ⟨qs, hw, -⟩ := h.walk
  obtain ⟨hle, hst⟩ := h.last_eq
  refine ImmutableCache.smaInfoLinks_eq h.links (fun o ho => ?_) h.fnext_last ?_
  · exact h.node_pos hst (List.mem_cons_of_mem _ ho)
  · have h1 := h.perm.length_eq
    have h2 : (freeOffs cs).length ≤ cs.length := by
      rw [freeOffs, List.length_map]
      exact List.length_filter_le _ _
    have h3 : start + 32 * cs.length ≤ s.last := hw.length_le
    omega

/-! ## Runs -/

/-- A request that keeps the aligned block size in `size_t` keeps the invariant. -/
theorem SmaStep.ok {st st' : SmaState} {req : SmaReq} (h : SmaStep st req st') (hok : st.Ok)
    (hreq : ∀ m, req = .allocate m → m + blockSize + 8 ≤ 2 ^ 64) : st'.Ok := by
  obtain ⟨cs, order, hst⟩ := hok
  cases req with
  | allocate m =>
    obtain ⟨-, rfl⟩ := h
    exact hst.allocate (hreq m rfl)
  | deallocate offset =>
    obtain ⟨hoff, rfl⟩ := h
    exact hst.deallocate hoff

/-- A run of requests from a fresh segment keeps the heap invariant as long as no request is so
large that aligning its block wraps: the blocks tile the segment, the free list holds exactly the
free blocks, a block is free iff its `fnext` is set, and the live payloads are apart, aligned and
inside the segment. -/
theorem smaRun_ok {n : Nat} {reqs : List SmaReq} {st : SmaState} (h1 : 2 ^ 20 ≤ n)
    (h2 : n < 2 ^ 63) (hreq : ∀ m, .allocate m ∈ reqs → m + blockSize + 8 ≤ 2 ^ 64)
    (hrun : Run SmaStep (.init n) reqs st) :
    ∃ cs order, st.Holds cs order ∧
      (∀ c ∈ cs, st.seg.fnext c.off ≠ 0 ↔ c.free = true) ∧
      (∀ c ∈ cs, ∀ d ∈ cs, c ≠ d →
        c.off + c.size ≤ d.off ∨ d.off + d.size ≤ c.off) ∧
      (∀ off ∈ st.live, off % 8 = 0 ∧ start + blockSize ≤ off ∧ off ≤ st.seg.last) ∧
      smaInfoLinks st.seg st.seg.segsize first = order.map fun o => (st.seg.size o, o) := by
  have hL := layout
  have hinit : (SmaState.init n).Ok :=
    ⟨_, _, smaInitSegment_heap (by omega) (by omega), by simp [SmaState.init],
      by simp [SmaState.init]⟩
  obtain ⟨cs, order, h⟩ : st.Ok := by
    refine hrun.invariant (fun hi hok hs => hs.ok hok ?_) hinit
    rintro m rfl
    exact hreq m hi
  obtain ⟨qs, hw, -⟩ := h.heap.walk
  refine ⟨cs, order, h, fun c hc => h.heap.fnext_ne_zero h.heap.last_eq.2 hc,
    fun c hc d hd => hw.disjoint hc hd, fun off ho => ?_, h.heap.smaInfoLinks_eq⟩
  obtain ⟨c, hc, -, rfl⟩ := (h.mem_live off).1 ho
  obtain ⟨h3, h4, -, h6, h7⟩ := hw.mem hc
  exact ⟨by omega, by omega, by omega⟩

/-- A run that allocates a block and frees it. -/
theorem smaRun_ok_roundTrip : ∃ st, Run SmaStep (.init (2 ^ 20))
      [.allocate 100, .deallocate (start + blockSize)] st ∧
    ∃ cs order, st.Holds cs order := by
  have hrun : Run SmaStep (.init (2 ^ 20)) [.allocate 100, .deallocate (start + blockSize)]
      (((SmaState.init (2 ^ 20)).allocate 100).deallocate (start + blockSize)) :=
    .cons ⟨by decide, rfl⟩ (.cons ⟨by decide +kernel, rfl⟩ .nil)
  have hreq : ∀ m, .allocate m ∈ [SmaReq.allocate 100, .deallocate (start + blockSize)] →
      m + blockSize + 8 ≤ 2 ^ 64 := by
    intro m hm
    obtain rfl : m = 100 := by simpa using hm
    decide
  obtain ⟨cs, order, h, -⟩ := smaRun_ok (by decide) (by decide) hreq hrun
  exact ⟨_, hrun, cs, order, h⟩

/-- A request of `2 ^ 64 - 33` bytes does not wrap when the header is added, but its aligned size
is 0: `find_block` settles on the `last` sentinel, which is no block of the heap. -/
theorem smaRun_not_ok : ∃ st, Run SmaStep (.init (2 ^ 20)) [.allocate (2 ^ 64 - 33)] st ∧
    ¬ ∃ cs order, st.Holds cs order := by
  refine ⟨_, .cons ⟨by decide, rfl⟩ .nil, ?_⟩
  rintro ⟨cs, order, h⟩
  have hlive : ((SmaState.init (2 ^ 20)).allocate (2 ^ 64 - 33)).live =
      [((SmaState.init (2 ^ 20)).allocate (2 ^ 64 - 33)).seg.last + blockSize] := by
    decide +kernel
  obtain ⟨c, hc, -, he⟩ := (h.mem_live _).1 (by rw [hlive]; exact List.mem_singleton.2 rfl)
  have := (h.heap.range c hc).2
  omega

end ImmutableCache
