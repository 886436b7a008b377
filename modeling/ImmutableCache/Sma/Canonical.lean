import ImmutableCache.Sma.Pool

/-!
# The heap is determined by its live blocks

A free block reaches from one live block to the next, because no two free blocks are neighbours. So
the blocks of a heap are determined by the live ones among them (`Walk.unique`), and the report of
`immutable_cache_sma_info` is too, up to the order of the free list. Freeing every block gives back
the segment that `immutable_cache_sma_init` made, whatever the order of the requests
(`smaRun_canonical`).
-/

namespace ImmutableCache

open Segment

/-! ## One segment -/

namespace Walk

variable {s s' : Segment} {p ps ps' q qs qs' : Nat} {cs cs' : List Chunk} {c d : Chunk}

/-- A block after the first starts above it. -/
theorem tail_ne (h : Walk s p ps (c :: cs) q qs) {e : Chunk} (he : e ∈ cs) :
    p + c.size ≤ e.off ∧ e ≠ c := by
  obtain ⟨hoff, -, -, hsize, -, -, hrest⟩ := h
  have hle := (hrest.mem he).1
  refine ⟨hle, ?_⟩
  rintro rfl
  have := layout
  omega

/-- A free block at the start of a range ends at the first live block. -/
theorem head_size_le (h : Walk s p ps (c :: cs) q qs) (h' : Walk s' p ps' (d :: cs') q qs')
    (hc : c.free = true) (hd : d.free = true)
    (hlive : ∀ e, e.free = false → e ∈ c :: cs → e ∈ d :: cs') : d.size ≤ c.size := by
  have hcs := h.2.2.2.2.2.2
  have hcs' := h'.2.2.2.2.2.2
  cases cs with
  | nil =>
    have hend : p + c.size = q := hcs.1
    have := hcs'.le
    omega
  | cons e cs =>
    have hnext : Walk s p ps ([] ++ c :: e :: cs) q qs := h
    have he : e.free = false := hnext.next_live hc e cs rfl
    have heoff : e.off = p + c.size := hcs.1
    rcases List.mem_cons.1 (hlive e he (by simp)) with rfl | hmem
    · rw [hd] at he
      cases he
    · have := (h'.tail_ne hmem).1
      omega

/-- A walk is read off the headers, up to which blocks are free. -/
theorem det (h : Walk s p ps cs q qs) (h' : Walk s p ps' cs' q qs')
    (hfree : ∀ c ∈ cs, ∀ d ∈ cs', c.off = d.off → c.free = d.free) : cs = cs' := by
  have hL := layout
  induction cs generalizing p ps ps' cs' with
  | nil =>
    cases cs' with
    | nil => rfl
    | cons d cs' =>
      have hend : p = q := h.1
      have := (h'.mem (c := d) (by simp)).2
      have := h'.1
      omega
  | cons c cs ih =>
    cases cs' with
    | nil =>
      have hend : p = q := h'.1
      have := (h.mem (c := c) (by simp)).2
      have := h.1
      omega
    | cons d cs' =>
      have hoff : c.off = d.off := h.1.trans h'.1.symm
      have hsize : c.size = d.size := h.2.1.symm.trans h'.2.1
      have hfcd := hfree c (by simp) d (by simp) hoff
      obtain rfl : c = d := by
        cases c
        cases d
        simp_all
      refine congrArg (c :: ·) (ih h.2.2.2.2.2.2 h'.2.2.2.2.2.2 fun e he f hf => ?_)
      exact hfree e (List.mem_cons_of_mem _ he) f (List.mem_cons_of_mem _ hf)

/-- Two walks through one range with the same live blocks have the same blocks. -/
theorem unique (h : Walk s p ps cs q qs) (h' : Walk s' p ps' cs' q qs')
    (hlive : ∀ c, c.free = false → (c ∈ cs ↔ c ∈ cs')) : cs = cs' := by
  have hL := layout
  induction cs generalizing p ps ps' cs' with
  | nil =>
    cases cs' with
    | nil => rfl
    | cons d cs' =>
      have hend : p = q := h.1
      have := (h'.mem (c := d) (by simp)).2
      have := h'.1
      omega
  | cons c cs ih =>
    cases cs' with
    | nil =>
      have hend : p = q := h'.1
      have := (h.mem (c := c) (by simp)).2
      have := h.1
      omega
    | cons d cs' =>
      have hoff : c.off = d.off := h.1.trans h'.1.symm
      have hcd : c = d := by
        cases hc : c.free with
        | false => exact h'.off_inj ((hlive c hc).1 (by simp)) (by simp) hoff
        | true =>
          cases hd : d.free with
          | false => exact h.off_inj (by simp) ((hlive d hd).2 (by simp)) hoff
          | true =>
            have h1 := h.head_size_le h' hc hd fun e he => (hlive e he).1
            have h2 := h'.head_size_le h hd hc fun e he => (hlive e he).2
            have hsize : c.size = d.size := by omega
            cases c
            cases d
            simp_all
      subst hcd
      refine congrArg (c :: ·) (ih h.2.2.2.2.2.2 h'.2.2.2.2.2.2 fun e he => ?_)
      constructor
      · intro hm
        rcases List.mem_cons.1 ((hlive e he).1 (List.mem_cons_of_mem _ hm)) with hec | hm'
        · exact absurd hec (h.tail_ne hm).2
        · exact hm'
      · intro hm
        rcases List.mem_cons.1 ((hlive e he).2 (List.mem_cons_of_mem _ hm)) with hec | hm'
        · exact absurd hec (h'.tail_ne hm).2
        · exact hm'

end Walk

/-- The free blocks of a segment and its `avail`, as `immutable_cache_sma_info` reports them, agree
up to the order of the free list. -/
def Segment.SameFree (s s' : Segment) : Prop :=
  (smaInfoLinks s s.segsize first).Perm (smaInfoLinks s' s'.segsize first) ∧ s.avail = s'.avail

/-- Two heaps of one size with the same live blocks have the same free blocks. -/
theorem Heap.sameFree {s s' : Segment} {cs cs' : List Chunk} {order order' : List Nat}
    (h : Heap s cs order) (h' : Heap s' cs' order') (hseg : s.segsize = s'.segsize)
    (hlive : ∀ c, c.free = false → (c ∈ cs ↔ c ∈ cs')) : cs = cs' ∧ s.SameFree s' := by
  obtain ⟨qs, hw, -⟩ := h.walk
  obtain ⟨qs', hw', -⟩ := h'.walk
  have hlast : s.last = s'.last := by rw [Segment.last, Segment.last, hseg]
  obtain rfl : cs = cs' := hw.unique (hlast ▸ hw') hlive
  refine ⟨rfl, ?_, by rw [h.avail, h'.avail]⟩
  rw [h.smaInfoLinks_eq, h'.smaInfoLinks_eq]
  -- both lists thread the free blocks, whose sizes are those of the walk
  have hsize : order.map (fun o => (s.size o, o)) = order.map fun o => (s'.size o, o) := by
    refine List.map_congr_left fun o ho => ?_
    obtain ⟨c, hc, -, rfl⟩ := h.mem_order.1 ho
    rw [(hw.mem hc).2.2.1, (hw'.mem hc).2.2.1]
  rw [hsize]
  exact (h.perm.trans h'.perm.symm).map _

/-- A segment holds one heap. -/
theorem Heap.unique {s : Segment} {cs cs' : List Chunk} {order order' : List Nat}
    (h : Heap s cs order) (h' : Heap s cs' order') : cs = cs' := by
  obtain ⟨hstart, hlast⟩ := h.last_eq
  obtain ⟨qs, hw, -⟩ := h.walk
  obtain ⟨qs', hw', -⟩ := h'.walk
  refine hw.det hw' fun c hc d hd hoff => ?_
  have hfree := (h.fnext_ne_zero hlast hc).symm.trans (hoff ▸ h'.fnext_ne_zero hlast hd)
  exact Bool.eq_iff_iff.2 hfree

/-! ## All the segments -/

/-- The allocator has one set of payloads. -/
theorem Pool.Ok.unique {pool : Pool} {sma : Sma} {live live' : Nat → Option Nat}
    (h : pool.Ok sma live) (h' : pool.Ok sma live') : live = live' := by
  obtain ⟨cs, h⟩ := h
  obtain ⟨cs', h'⟩ := h'
  have hcs : ∀ i < pool.num, cs i = cs' i := by
    intro i hi
    obtain ⟨order, hh⟩ := h.heap i hi
    obtain ⟨order', hh'⟩ := h'.heap i hi
    exact hh.unique hh'
  funext p
  refine Option.ext fun sz => ?_
  rw [h.live_iff, h'.live_iff]
  refine exists_congr fun i => and_congr_right fun hi => ?_
  rw [hcs i hi]

/-- Two states of the allocator with the same payloads have the same free blocks. -/
theorem Pool.Ok.sameFree {pool : Pool} {sma sma' : Sma} {live : Nat → Option Nat}
    (h : pool.Ok sma live) (h' : pool.Ok sma' live) {i : Nat} (hi : i < pool.num) :
    (sma.segs i).SameFree (sma'.segs i) := by
  obtain ⟨cs, h⟩ := h
  obtain ⟨cs', h'⟩ := h'
  obtain ⟨order, hh⟩ := h.heap i hi
  obtain ⟨order', hh'⟩ := h'.heap i hi
  have hkeep {sma sma' : Sma} {cs cs' : Nat → List Chunk} {order order' : List Nat}
      (h : pool.Holds sma cs live) (h' : pool.Holds sma' cs' live)
      (hh : Heap (sma.segs i) (cs i) order) (hh' : Heap (sma'.segs i) (cs' i) order') {c : Chunk}
      (hc : c.free = false) (hm : c ∈ cs i) : c ∈ cs' i := by
    have hL := layout
    obtain ⟨qs, hw, -⟩ := hh.walk
    have hpay : pool.IsPayload i c (pool.shmaddr i + (c.off + blockSize)) (c.size - blockSize) :=
      ⟨hc, rfl, rfl⟩
    have hb := h.payload_bounds hi hm hpay
    obtain ⟨j, hj, d, hd, hpay'⟩ := (h'.live_iff _ _).1 ((h.live_iff _ _).2 ⟨i, hi, c, hm, hpay⟩)
    have hb' := h'.payload_bounds hj hd hpay'
    obtain rfl : j = i := by
      by_contra hji
      have := pool.apart hj hi hji
      omega
    obtain ⟨qs', hw', -⟩ := hh'.walk
    obtain ⟨hdl, hoff, hsize⟩ := hpay'
    have h1 := (hw.mem hm).2.2.2.1
    have h2 := (hw'.mem hd).2.2.2.1
    obtain ⟨doff, dsize, dfree⟩ := d
    obtain ⟨coff, csize, cfree⟩ := c
    dsimp only at *
    obtain rfl : doff = coff := by omega
    obtain rfl : dsize = csize := by omega
    rw [hdl] at hd
    rwa [hc]
  refine (hh.sameFree hh' ((h.segsize i hi).trans (h'.segsize i hi).symm) fun c hc => ?_).2
  exact ⟨hkeep h h' hh hh' hc, hkeep h' h hh' hh hc⟩

/-! ## Runs -/

/-- An allocation does not change the size of the segment. -/
theorem smaAllocate_segsize (s : Segment) (n fragment : Nat) :
    (smaAllocate s n fragment).2.segsize = s.segsize := by
  unfold smaAllocate
  extract_lets realsize
  by_cases h : s.avail < realsize
  · rw [if_pos h]
  · rw [if_neg h]
    cases findBlock s realsize with
    | none => rfl
    | some cur =>
      dsimp only
      split
      · rfl
      · rfl

/-- An allocation does not change the size of the segment. -/
theorem SmaState.allocate_segsize (st : SmaState) (n : Nat) :
    (st.allocate n).seg.segsize = st.seg.segsize := by
  -- the allocation is named first: unfolding it would have the kernel run `ALIGNWORD` on `n`
  obtain ⟨r, hr⟩ : ∃ r, smaAllocate st.seg n minBlockSize = r := ⟨_, rfl⟩
  have hseg := smaAllocate_segsize st.seg n minBlockSize
  rw [hr] at hseg
  rw [SmaState.allocate, hr]
  exact hseg

/-- Neither does freeing a block. -/
theorem SmaState.deallocate_segsize (st : SmaState) (offset : Nat) :
    (st.deallocate offset).seg.segsize = st.seg.segsize :=
  smaDeallocate_segsize st.seg offset

/-- A run whose requests keep the aligned block size in `size_t` reaches a heap of the same size. -/
theorem smaRun_holds {n : Nat} {reqs : List SmaReq} {st : SmaState}
    (h1 : start + 3 * blockSize ≤ n) (h2 : n < 2 ^ 64)
    (hreq : ∀ m, .allocate m ∈ reqs → m + blockSize + 8 ≤ 2 ^ 64)
    (hrun : Run SmaStep (.init n) reqs st) : st.Ok ∧ st.seg.segsize = n := by
  have hinit : (SmaState.init n).Ok :=
    ⟨_, _, smaInitSegment_heap h1 h2, by simp [SmaState.init], by simp [SmaState.init]⟩
  have hstep {st st' : SmaState} {req : SmaReq} (hm : req ∈ reqs)
      (hst : st.Ok ∧ st.seg.segsize = n) (hs : SmaStep st req st') :
      st'.Ok ∧ st'.seg.segsize = n := by
    refine ⟨hs.ok hst.1 fun m hreqm => hreq m (hreqm ▸ hm), ?_⟩
    cases req with
    | allocate m =>
      rw [hs.2, SmaState.allocate_segsize, hst.2]
    | deallocate offset =>
      rw [hs.2, SmaState.deallocate_segsize, hst.2]
  exact hrun.invariant hstep ⟨hinit, rfl⟩

/-- Two states with the same live payloads, of the same sizes, have the same free blocks. -/
theorem SmaState.Ok.sameFree {st st' : SmaState} (h : st.Ok) (h' : st'.Ok)
    (hseg : st.seg.segsize = st'.seg.segsize) (hlive : ∀ off, off ∈ st.live ↔ off ∈ st'.live)
    (hsize : ∀ off ∈ st.live, st.seg.size (off - blockSize) = st'.seg.size (off - blockSize)) :
    st.seg.SameFree st'.seg := by
  obtain ⟨cs, order, h⟩ := h
  obtain ⟨cs', order', h'⟩ := h'
  have hkeep {st st' : SmaState} {cs cs' : List Chunk} {order order' : List Nat}
      (h : st.Holds cs order) (h' : st'.Holds cs' order')
      (hlive : ∀ off, off ∈ st.live → off ∈ st'.live)
      (hsize : ∀ off ∈ st.live, st.seg.size (off - blockSize) = st'.seg.size (off - blockSize))
      {c : Chunk} (hc : c.free = false) (hm : c ∈ cs) : c ∈ cs' := by
    obtain ⟨qs, hw, -⟩ := h.heap.walk
    obtain ⟨qs', hw', -⟩ := h'.heap.walk
    have hoff : c.off + blockSize ∈ st.live := (h.mem_live _).2 ⟨c, hm, hc, rfl⟩
    obtain ⟨d, hd, hdl, he⟩ := (h'.mem_live _).1 (hlive _ hoff)
    have hcd : c.off = d.off := by omega
    have hsz := hsize _ hoff
    rw [Nat.add_sub_cancel, (hw.mem hm).2.2.1, hcd, (hw'.mem hd).2.2.1] at hsz
    have : c = d := by
      cases c
      cases d
      simp_all
    exact this ▸ hd
  refine (h.heap.sameFree h'.heap hseg fun c hc => ⟨?_, ?_⟩).2
  · exact hkeep h h' (fun off => (hlive off).1) hsize hc
  · exact hkeep h' h (fun off => (hlive off).2) (fun off ho => (hsize off ((hlive off).2 ho)).symm) hc

/-- In runs whose requests keep the aligned block size in `size_t`, the free blocks and `avail`
depend only on which blocks are live and how large they are. With no live block left, the segment
has one free block, where `immutable_cache_sma_init` put it and of the same size, and its first
`avail`. -/
theorem smaRun_canonical {n : Nat} {reqs reqs' : List SmaReq} {st st' : SmaState}
    (h1 : start + 3 * blockSize ≤ n) (h2 : n < 2 ^ 64)
    (hreq : ∀ m, .allocate m ∈ reqs → m + blockSize + 8 ≤ 2 ^ 64)
    (hreq' : ∀ m, .allocate m ∈ reqs' → m + blockSize + 8 ≤ 2 ^ 64)
    (hrun : Run SmaStep (.init n) reqs st) (hrun' : Run SmaStep (.init n) reqs' st') :
    ((∀ off, off ∈ st.live ↔ off ∈ st'.live) →
      (∀ off ∈ st.live, st.seg.size (off - blockSize) = st'.seg.size (off - blockSize)) →
      st.seg.SameFree st'.seg) ∧
    (st.live = [] → st.seg.avail = (smaInitSegment n).avail ∧
      smaInfoLinks st.seg n first = [(n - start - 2 * blockSize, start)] ∧
      smaInfoLinks (smaInitSegment n) n first = [(n - start - 2 * blockSize, start)]) := by
  obtain ⟨hok, hseg⟩ := smaRun_holds h1 h2 hreq hrun
  obtain ⟨hok', hseg'⟩ := smaRun_holds h1 h2 hreq' hrun'
  refine ⟨hok.sameFree hok' (hseg.trans hseg'.symm), fun hnil => ?_⟩
  have hstart : (SmaState.init n).Ok ∧ (SmaState.init n).seg.segsize = n :=
    smaRun_holds h1 h2 (fun _ hm => by cases hm) .nil
  obtain ⟨hok₀, hseg₀⟩ := hstart
  have hheap := smaInitSegment_heap h1 h2
  obtain ⟨hperm, havail⟩ := hok.sameFree hok₀ (hseg.trans hseg₀.symm) (by simp [hnil, SmaState.init])
    (by simp [hnil])
  have hlinks : smaInfoLinks (smaInitSegment n) n first =
      [((smaInitSegment n).size start, start)] := hheap.smaInfoLinks_eq
  obtain ⟨qs, hw, -⟩ := hheap.walk
  rw [(hw.mem (List.mem_singleton.2 rfl)).2.2.1] at hlinks
  refine ⟨havail, ?_, hlinks⟩
  change (smaInfoLinks st.seg st.seg.segsize first).Perm (smaInfoLinks (smaInitSegment n) n first)
    at hperm
  rw [hseg, hlinks] at hperm
  exact hperm.eq_singleton

/-- A run that frees two blocks in the order of their allocation, and one that frees them in the
other order. -/
theorem smaRun_canonical_orders : ∃ st st',
    Run SmaStep (.init (2 ^ 20)) [.allocate 100, .allocate 200, .deallocate 1168,
      .deallocate 1304] st ∧
    Run SmaStep (.init (2 ^ 20)) [.allocate 100, .allocate 200, .deallocate 1304,
      .deallocate 1168] st' ∧ st.seg.SameFree st'.seg := by
  have hreq : ∀ m, .allocate m ∈ [SmaReq.allocate 100, .allocate 200, .deallocate 1168,
      .deallocate 1304] → m + blockSize + 8 ≤ 2 ^ 64 := by
    intro m hm
    obtain rfl | rfl : m = 100 ∨ m = 200 := by simpa using hm
    · decide
    · decide
  have hreq' : ∀ m, .allocate m ∈ [SmaReq.allocate 100, .allocate 200, .deallocate 1304,
      .deallocate 1168] → m + blockSize + 8 ≤ 2 ^ 64 := by
    intro m hm
    obtain rfl | rfl : m = 100 ∨ m = 200 := by simpa using hm
    · decide
    · decide
  have hrun : Run SmaStep (.init (2 ^ 20)) [.allocate 100, .allocate 200, .deallocate 1168,
      .deallocate 1304] _ :=
    .cons ⟨by decide, rfl⟩ (.cons ⟨by decide, rfl⟩
      (.cons ⟨by decide +kernel, rfl⟩ (.cons ⟨by decide +kernel, rfl⟩ .nil)))
  have hrun' : Run SmaStep (.init (2 ^ 20)) [.allocate 100, .allocate 200, .deallocate 1304,
      .deallocate 1168] _ :=
    .cons ⟨by decide, rfl⟩ (.cons ⟨by decide, rfl⟩
      (.cons ⟨by decide +kernel, rfl⟩ (.cons ⟨by decide +kernel, rfl⟩ .nil)))
  have hnil : (((((SmaState.init (2 ^ 20)).allocate 100).allocate 200).deallocate 1168).deallocate
      1304).live = [] := by decide +kernel
  have hnil' : (((((SmaState.init (2 ^ 20)).allocate 100).allocate 200).deallocate 1304).deallocate
      1168).live = [] := by decide +kernel
  refine ⟨_, _, hrun, hrun', (smaRun_canonical (by decide) (by decide) hreq hreq' hrun hrun').1
    (fun off => ?_) fun off hoff => ?_⟩
  · rw [hnil, hnil']
  · rw [hnil] at hoff
    cases hoff

/-- After the request that wraps, and the release of what it was given, nothing is live, but the
one free block is short of the bytes that it had. -/
theorem smaRun_not_canonical : ∃ st, Run SmaStep (.init (2 ^ 20))
      [.allocate (2 ^ 64 - 33), .deallocate (2 ^ 20 - blockSize)] st ∧ st.live = [] ∧
    smaInfoLinks st.seg (2 ^ 20) first ≠ smaInfoLinks (smaInitSegment (2 ^ 20)) (2 ^ 20) first := by
  refine ⟨_, .cons ⟨by decide, rfl⟩ (.cons ⟨by decide +kernel, rfl⟩ .nil), ?_, ?_⟩
  · decide +kernel
  · decide +kernel

end ImmutableCache
