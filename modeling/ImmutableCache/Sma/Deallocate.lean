import ImmutableCache.Sma.Allocate

/-!
# `sma_deallocate` on a heap

While `sma_deallocate` merges the block it frees with its neighbours, the block is neither live nor
on the free list: the segment holds a heap with a gap (`Gap`), the range `[a, b)` of the block, and
the blocks before and after it. Each merge widens the gap over a free neighbour, and the last step
turns the gap into a free block. `Heap.smaDeallocate_spec` puts the three steps together.
-/

namespace ImmutableCache

open Segment

/-- The blocks before a freed block at `a`, and where the merged block begins: a free last block
is absorbed. -/
def mergePrev (pre : List Chunk) (a : Nat) : List Chunk × Nat :=
  match pre.getLast? with
  | some d => if d.free then (pre.dropLast, d.off) else (pre, a)
  | none => (pre, a)

/-- The blocks after a freed block that ends at `b`, and where the merged block ends: a free first
block is absorbed. -/
def mergeNext (post : List Chunk) (b : Nat) : List Chunk × Nat :=
  match post with
  | d :: post' => if d.free then (post', b + d.size) else (post, b)
  | [] => ([], b)

/-- The heap after the block `c` is freed. -/
def release (pre : List Chunk) (c : Chunk) (post : List Chunk) : List Chunk :=
  let (pre', a) := mergePrev pre c.off
  let (post', b) := mergeNext post (c.off + c.size)
  pre' ++ ⟨a, b - a, true⟩ :: post'

/-- A block left in front of the merged block is live: it was next to the freed block and live, or
next to a free one. -/
theorem mergePrev_live {s : Segment} {p ps q qs a : Nat} {pre post ds : List Chunk} {c e : Chunk}
    (h : Walk s p ps (pre ++ c :: post) q qs) (he : (mergePrev pre a).1 = ds ++ [e]) :
    e.free = false := by
  rcases List.eq_nil_or_concat pre with rfl | ⟨pre', d, rfl⟩
  · simp [mergePrev] at he
  cases hf : d.free with
  | false =>
    simp only [mergePrev, List.concat_eq_append, List.getLast?_append, List.getLast?_singleton,
      Option.some_or, hf, Bool.false_eq_true, if_false] at he
    obtain ⟨-, he⟩ := List.append_inj' he rfl
    cases he
    exact hf
  | true =>
    have hp : pre' = ds ++ [e] := by simpa [mergePrev, hf] using he
    subst hp
    cases hef : e.free with
    | false => rfl
    | true =>
      have h' : Walk s p ps (ds ++ e :: (d :: c :: post)) q qs := by simpa using h
      rw [h'.next_live hef d _ rfl] at hf
      cases hf

/-- A block left after the merged block is live. -/
theorem mergeNext_live {s : Segment} {p ps q qs b : Nat} {pre post ds : List Chunk} {c e : Chunk}
    (h : Walk s p ps (pre ++ c :: post) q qs) (he : (mergeNext post b).1 = e :: ds) :
    e.free = false := by
  cases post with
  | nil => simp [mergeNext] at he
  | cons d post =>
    cases hf : d.free with
    | false =>
      simp only [mergeNext, hf, Bool.false_eq_true, if_false, List.cons.injEq] at he
      rw [← he.1, hf]
    | true =>
      have hp : post = e :: ds := by simpa [mergeNext, hf] using he
      have h' : Walk s p ps ((pre ++ [c]) ++ d :: post) q qs := by simpa using h
      exact h'.next_live hf e ds hp

/-- A heap with a gap: the blocks `pre` up to offset `a`, the blocks `post` from offset `b` on, and
between them a block of the right size that the free list does not know. -/
structure Gap (s : Segment) (pre : List Chunk) (a b : Nat) (post : List Chunk)
    (order : List Nat) : Prop extends FreeList s (pre ++ post) order where
  room : start + 2 * blockSize ≤ s.segsize
  bound : s.segsize < 2 ^ 64
  left : ∃ as, Walk s start 0 pre a as ∧ s.prevSize a = as
  right : ∃ bs qs, Walk s b bs post s.last qs ∧ s.prevSize s.last = qs
  size : a + s.size a = b
  big : a + blockSize ≤ b
  aligned : a % 8 = 0
  size_last : s.size s.last = 0
  avail : s.avail = freeBytes pre + (b - a) + freeBytes post + blockSize

/-- What `smaRemove` writes. -/
theorem smaRemove_eq {s : Segment} {b : Nat} (hne : s.fnext b ≠ b) :
    smaRemove s b =
      { s with
        fnext := Function.update s.fnext (s.fprev b) (s.fnext b)
        fprev := Function.update s.fprev (s.fnext b) (s.fprev b) } := by
  simp [smaRemove, setFnext, setFprev, Function.update_of_ne hne.symm]

namespace Gap

variable {s : Segment} {pre post : List Chunk} {a b : Nat} {d : Chunk} {order : List Nat}

/-- The sentinel is where it was. -/
theorem last_eq (h : Gap s pre a b post order) :
    s.last + 2 * blockSize = s.segsize ∧ start ≤ s.last := by
  have := h.room
  have := layout
  unfold Segment.last
  omega

/-- The gap lies between the sentinels. -/
theorem range_gap (h : Gap s pre a b post order) : start ≤ a ∧ b ≤ s.last := by
  obtain ⟨as, hl, -⟩ := h.left
  obtain ⟨bs, qs, hr, -⟩ := h.right
  exact ⟨hl.le, hr.le⟩

/-- The first merge of `sma_deallocate` widens the gap over a free predecessor. -/
theorem smaMergePrev_eq (h : Gap s pre a b post order) :
    ∃ order', (smaMergePrev s a).2 = (mergePrev pre a).2 ∧
      Gap (smaMergePrev s a).1 (mergePrev pre a).1 (mergePrev pre a).2 b post order' := by
  have hL := layout
  obtain ⟨hle, hst⟩ := h.last_eq
  have hrg := h.range_gap
  have hbig := h.big
  obtain ⟨as, hl, has⟩ := h.left
  obtain ⟨bs, qs, hr, hq⟩ := h.right
  rcases hl.end_tag with ⟨rfl, -, h0⟩ | ⟨pre', d, rfl, htag, hend⟩
  · exact ⟨order, by simp [smaMergePrev, mergePrev, has, h0],
      by simpa [smaMergePrev, mergePrev, has, h0] using h⟩
  have hd := hl.mem (c := d) (by simp)
  cases hf : d.free with
  | false =>
    have h0 : s.prevSize a = 0 := by rw [has, htag, Chunk.tag_live hf]
    refine ⟨order, ?_, ?_⟩
    · simp [smaMergePrev, mergePrev, h0, hf]
    · simpa [smaMergePrev, mergePrev, h0, hf] using h
  | true =>
    have hps : s.prevSize a = d.size := by rw [has, htag, Chunk.tag_free hf]
    have hprv : a - s.prevSize a = d.off := by omega
    have hsa : s.size a = b - a := by have := h.size; omega
    have hsum : SizeT.add d.size (b - a) = b - d.off := by
      rw [SizeT.add_eq (by have := h.bound; omega)]
      omega
    have hrm := smaRemove_eq (h.fnext_ne hst (c := d) (by simp) hf).2
    have hmp : mergePrev (pre' ++ [d]) a = (pre', d.off) := by simp [mergePrev, hf]
    have hs : smaMergePrev s a =
        ((smaRemove s d.off).setSize d.off (b - d.off), d.off) := by
      unfold smaMergePrev
      rw [if_pos (by omega), hprv]
      simp only [hrm, hd.2.2.1, hsa, hsum]
    rw [hs, hmp, hrm]
    refine ⟨order.erase d.off, rfl, ?_⟩
    have hfl : FreeList ({ s with
        fnext := Function.update s.fnext (s.fprev d.off) (s.fnext d.off)
        fprev := Function.update s.fprev (s.fnext d.off) (s.fprev d.off) } : Segment)
        (pre' ++ post) (order.erase d.off) :=
      FreeList.remove (c := d) (by simpa using h.toFreeList) hst hf rfl rfl rfl
    obtain ⟨ms, hl', hms, -, -⟩ := hl.at_cons
    have hav := h.avail
    simp only [freeBytes_append, freeBytes_cons, freeBytes_nil, Chunk.tag_free hf] at hav
    refine { hfl.of_eq rfl rfl rfl with
      room := h.room, bound := h.bound, left := ⟨ms, hl'.congr fun o _ ho => ⟨?_, rfl⟩, hms⟩
      right := ⟨bs, qs, hr.congr fun o ho _ => ⟨?_, rfl⟩, hq⟩, size := ?_, big := by omega
      aligned := hd.2.2.2.2, size_last := ?_, avail := by simp only [setSize]; omega }
    · exact Function.update_of_ne (by omega) _ _
    · exact Function.update_of_ne (by omega) _ _
    · simp only [setSize, Function.update_self]
      omega
    · change Function.update s.size d.off (b - d.off) s.last = 0
      rw [Function.update_of_ne (by omega), h.size_last]

/-- The second merge of `sma_deallocate` widens the gap over a free successor. -/
theorem smaMergeNext_eq (h : Gap s pre a b post order) :
    ∃ order', Gap (smaMergeNext s a) pre a (mergeNext post b).2 (mergeNext post b).1 order' := by
  have hL := layout
  obtain ⟨hle, hst⟩ := h.last_eq
  have hrg := h.range_gap
  have hbig := h.big
  obtain ⟨as, hl, has⟩ := h.left
  obtain ⟨bs, qs, hr, hq⟩ := h.right
  have hnxt : s.nextSblock a = b := h.size
  cases post with
  | nil =>
    have h0 : s.fnext b = 0 := by rw [hr.1, h.fnext_last]
    refine ⟨order, ?_⟩
    simpa [smaMergeNext, mergeNext, hnxt, h0] using h
  | cons d post =>
    have hd := hr.mem (c := d) (by simp)
    have hdo : d.off = b := hr.1
    cases hf : d.free with
    | false =>
      have h0 : s.fnext b = 0 := by rw [← hdo, h.live d (by simp) hf]
      refine ⟨order, ?_⟩
      simpa [smaMergeNext, mergeNext, hnxt, h0, hf] using h
    | true =>
      have hn0 : s.fnext b ≠ 0 := by
        rw [← hdo]
        exact (h.fnext_ne_zero hst (by simp)).2 hf
      have hrm := smaRemove_eq (h.fnext_ne hst (c := d) (by simp) hf).2
      have hmn : mergeNext (d :: post) b = (post, b + d.size) := by simp [mergeNext, hf]
      have hsa : s.size a = b - a := by have := h.size; omega
      have hsum : SizeT.add (b - a) d.size = b + d.size - a := by
        rw [SizeT.add_eq (by have := h.bound; omega)]
        omega
      have hs : smaMergeNext s a = (smaRemove s d.off).setSize a (b + d.size - a) := by
        unfold smaMergeNext
        rw [hnxt, if_pos hn0]
        have hsd : s.size b = d.size := by rw [← hdo, hd.2.2.1]
        have hsz : (smaRemove s b).size = s.size := rfl
        simp only [hdo, hsz, hsa, hsd, hsum]
      rw [hs, hmn, hrm]
      refine ⟨order.erase d.off, ?_⟩
      have hfl : FreeList ({ s with
          fnext := Function.update s.fnext (s.fprev d.off) (s.fnext d.off)
          fprev := Function.update s.fprev (s.fnext d.off) (s.fprev d.off) } : Segment)
          (pre ++ post) (order.erase d.off) :=
        h.toFreeList.remove hst hf rfl rfl rfl
      obtain ⟨-, -, -, -, -, -, hr'⟩ := hr
      have hav := h.avail
      simp only [freeBytes_cons, Chunk.tag_free hf] at hav
      refine { hfl.of_eq rfl rfl rfl with
        room := h.room, bound := h.bound, left := ⟨as, hl.congr fun o _ ho => ⟨?_, rfl⟩, has⟩
        right := ⟨d.tag, qs, hr'.congr fun o ho _ => ⟨?_, rfl⟩, hq⟩, size := ?_
        big := by dsimp only; omega
        aligned := h.aligned, size_last := ?_, avail := by simp only [setSize]; omega }
      · exact Function.update_of_ne (by omega) _ _
      · exact Function.update_of_ne (by omega) _ _
      · simp only [setSize, Function.update_self]
        omega
      · change Function.update s.size a (b + d.size - a) s.last = 0
        rw [Function.update_of_ne (by omega), h.size_last]

/-- The last step of `sma_deallocate` makes the gap a free block, between neighbours that are not
free. -/
theorem smaInsert_eq (h : Gap s pre a b post order)
    (hpre : ∀ ds d, pre = ds ++ [d] → d.free = false)
    (hpost : ∀ d ds, post = d :: ds → d.free = false) :
    Heap (smaInsert s a) (pre ++ ⟨a, b - a, true⟩ :: post) (a :: order) := by
  have hL := layout
  obtain ⟨hle, hst⟩ := h.last_eq
  have hrg := h.range_gap
  have hbig := h.big
  obtain ⟨as, hl, has⟩ := h.left
  obtain ⟨bs, qs, hr, hq⟩ := h.right
  have has0 : as = 0 := by
    rcases hl.end_tag with ⟨-, -, h0⟩ | ⟨ds, d, hds, htag, -⟩
    · exact h0
    · rw [htag, Chunk.tag_live (hpre ds d hds)]
  have hsa : s.size a = b - a := by have := h.size; omega
  have hs : smaInsert s a =
      { s with
        prevSize := Function.update s.prevSize b (b - a)
        fnext := Function.update (Function.update s.fnext a (s.fnext first)) first a
        fprev := Function.update (Function.update s.fprev a first) (s.fnext first) a } := by
    have hne : a ≠ first := by omega
    have hab : a + (b - a) = b := by omega
    simp [smaInsert, setFnext, setFprev, setPrevSize, nextSblock, hsa, hab,
      Function.update_of_ne hne]
  have hfresh : a ∉ (pre ++ post).map (·.off) := by
    intro hm
    obtain ⟨d, hd, he⟩ := List.mem_map.1 hm
    rcases List.mem_append.1 hd with hd | hd
    · have := hl.mem hd
      omega
    · have := hr.mem hd
      omega
  rw [hs]
  have hfl : FreeList { s with
      prevSize := Function.update s.prevSize b (b - a)
      fnext := Function.update (Function.update s.fnext a (s.fnext first)) first a
      fprev := Function.update (Function.update s.fprev a first) (s.fnext first) a }
      (pre ++ ⟨a, b - a, true⟩ :: post) (a :: order) :=
    h.toFreeList.add_free (c := ⟨a, b - a, true⟩) hst rfl ⟨hrg.1, by dsimp only; omega⟩ hfresh
      rfl rfl rfl
  have hav := h.avail
  refine { hfl with
    room := h.room, bound := h.bound, walk := ?_, size_last := h.size_last, avail := ?_ }
  · refine Walk.replace (m := [⟨a, b - a, true⟩]) (x := b - a) hl hr hq ?_ (fun o _ _ => rfl)
      (fun o ho _ => Function.update_of_ne (by omega) _ _) (Function.update_self _ _ _)
      (.inr hpost)
    refine Walk.cons_iff.2 ⟨rfl, hsa, ?_, by dsimp only; omega, h.aligned, fun _ => has0, ?_⟩
    · exact (Function.update_of_ne (by omega) _ _).trans has
    · exact ⟨show a + (b - a) = b by omega, rfl⟩
  · simp only [freeBytes_append, freeBytes_cons, Chunk.tag, if_true]
    omega

end Gap

namespace Heap

variable {s : Segment} {pre post : List Chunk} {c : Chunk} {order : List Nat}

/-- Setting `avail` opens the gap at the block being freed. -/
theorem openGap (h : Heap s (pre ++ c :: post) order) (hc : c.free = false) :
    Gap (s.setAvail (SizeT.add s.avail c.size)) pre c.off (c.off + c.size) post order := by
  have hL := layout
  obtain ⟨hle, hst⟩ := h.last_eq
  obtain ⟨qs, hw, hq⟩ := h.walk
  have hcm := hw.mem (c := c) (by simp)
  obtain ⟨ms, hl, hms, -, hr⟩ := hw.at_cons
  -- the free blocks and the freed one lie side by side, so their sum does not wrap
  have hroom : freeBytes pre + c.size + freeBytes post + blockSize < 2 ^ 64 := by
    have := hl.freeBytes_le
    have := hr.freeBytes_le
    have := h.bound
    omega
  have hav := h.avail
  simp only [freeBytes_append, freeBytes_cons, Chunk.tag_live hc] at hav
  have hfl : FreeList (s.setAvail (SizeT.add s.avail c.size)) (pre ++ post) order :=
    (h.toFreeList.drop_live hc).of_eq rfl rfl rfl
  refine { hfl with
    room := h.room, bound := h.bound, left := ⟨ms, hl.congr fun _ _ _ => ⟨rfl, rfl⟩, hms⟩
    right := ⟨c.tag, qs, hr.congr fun _ _ _ => ⟨rfl, rfl⟩, hq⟩, size := ?_, big := by omega
    aligned := hcm.2.2.2.2, size_last := h.size_last, avail := ?_ }
  · change c.off + s.size c.off = _
    rw [hcm.2.2.1]
  · change SizeT.add s.avail c.size = _
    rw [SizeT.add_eq (by omega)]
    omega

/-- `sma_deallocate` frees a live block and merges it with its free neighbours. -/
theorem smaDeallocate_spec (h : Heap s (pre ++ c :: post) order) (hc : c.free = false) :
    ∃ order', Heap (smaDeallocate s (c.off + blockSize)) (release pre c post) order' := by
  obtain ⟨qs, hw, -⟩ := h.walk
  have hcm := hw.mem (c := c) (by simp)
  obtain ⟨o₁, hcur, h₁⟩ := (h.openGap hc).smaMergePrev_eq
  obtain ⟨o₂, h₂⟩ := h₁.smaMergeNext_eq
  have hd : smaDeallocate s (c.off + blockSize) =
      smaInsert (smaMergeNext (smaMergePrev (s.setAvail (SizeT.add s.avail c.size)) c.off).1
        (mergePrev pre c.off).2) (mergePrev pre c.off).2 := by
    simp only [smaDeallocate, Nat.add_sub_cancel, hcm.2.2.1, ← hcur]
  rw [hd]
  refine ⟨_, h₂.smaInsert_eq (fun ds d he => ?_) fun d ds he => ?_⟩
  · exact mergePrev_live hw he
  · exact mergeNext_live hw he

end Heap

end ImmutableCache
