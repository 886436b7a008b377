import ImmutableCache.Sma.Heap

/-!
# `sma_allocate` on a heap

On a segment that holds a heap, `find_block` searches the free list: it returns a free block of
sufficient size if there is one (`Heap.findBlock_spec`). `sma_allocate` then takes that block whole
or splits it, and in both cases the segment holds the heap in which exactly that has happened
(`Heap.smaAllocate_spec`).
-/

namespace ImmutableCache

open Segment

variable {s : Segment} {cs : List Chunk} {order : List Nat}

/-! ## `find_block` -/

/-- The choice the second loop of `find_block` makes between the block found so far and the next
one. -/
def smaller (s : Segment) (realsize found cur : Nat) : Nat :=
  if realsize ≤ s.size cur ∧ s.size cur < s.size found then cur else found

/-- The first loop of `find_block` is a search of the free list after `prv`. -/
theorem findFit_eq {r : Nat} (hr : 0 < r) : ∀ {l : List Nat} {fuel prv z : Nat},
    Links s.fnext s.fprev (prv :: (l ++ [z])) → (∀ o ∈ l ++ [z], 0 < o) → s.fnext z = 0 →
    s.size z = 0 → l.length < fuel → findFit s r fuel prv = l.find? (r ≤ s.size ·)
  | [], fuel + 1, prv, z, hl, hp, hz, hs, _ => by
    have hn : s.fnext prv = z := hl.1
    have hz0 := hp z (by simp)
    rw [findFit, hn, if_neg (by omega), hs, if_neg (by omega)]
    cases fuel with
    | zero => rfl
    | succ n => simp [findFit, hz]
  | o :: l, fuel + 1, prv, z, hl, hp, hz, hs, hf => by
    obtain ⟨hn, -, hl'⟩ := hl
    have ho := hp o (by simp)
    have ih : findFit s r fuel o = l.find? (r ≤ s.size ·) :=
      findFit_eq hr hl' (fun x hx => hp x (by simp [hx])) hz hs (by simpa using hf)
    rw [findFit, hn, if_neg (by omega), List.find?_cons]
    by_cases hfit : r ≤ s.size o
    · simp [hfit]
    · rw [if_neg hfit, ih]
      simp [hfit]

/-- The second loop of `find_block` goes through the next `i` blocks of the free list. -/
theorem betterFit_eq {r : Nat} (hr : 0 < r) : ∀ {i prv found z : Nat} {l : List Nat},
    Links s.fnext s.fprev (prv :: (l ++ [z])) → (∀ o ∈ l ++ [z], 0 < o) → s.fnext z = 0 →
    s.size z = 0 → betterFit s r i prv found = (l.take i).foldl (smaller s r) found
  | 0, _, _, _, _, _, _, _, _ => by simp [betterFit]
  | i + 1, prv, found, z, [], hl, hp, hz, hs => by
    have hn : s.fnext prv = z := hl.1
    have hz0 := hp z (by simp)
    rw [betterFit, hn, if_neg (by omega)]
    simp only [hs, Nat.le_zero, hr.ne', false_and, if_false]
    cases i with
    | zero => rfl
    | succ n => simp [betterFit, hz]
  | i + 1, prv, found, z, o :: l, hl, hp, hz, hs => by
    obtain ⟨hn, -, hl'⟩ := hl
    have ho := hp o (by simp)
    rw [betterFit, hn, if_neg (by omega), List.take_succ_cons, List.foldl_cons,
      betterFit_eq hr hl' (fun x hx => hp x (by simp [hx])) hz hs]
    rfl

/-- Whatever the second loop settles on is the block it began with or one of those it looked at,
and is large enough if the first was. -/
theorem foldl_smaller_mem {r : Nat} : ∀ (l : List Nat) (found : Nat), r ≤ s.size found →
    l.foldl (smaller s r) found ∈ found :: l ∧ r ≤ s.size (l.foldl (smaller s r) found)
  | [], found, h => ⟨by simp, h⟩
  | o :: l, found, h => by
    rw [List.foldl_cons]
    by_cases hc : r ≤ s.size o ∧ s.size o < s.size found
    · have ⟨h1, h2⟩ := foldl_smaller_mem l o hc.1
      rw [smaller, if_pos hc]
      exact ⟨List.mem_cons_of_mem _ h1, h2⟩
    · have ⟨h1, h2⟩ := foldl_smaller_mem l found h
      rw [smaller, if_neg hc]
      simp only [List.mem_cons] at h1 ⊢
      exact ⟨by tauto, h2⟩

namespace Heap

/-- The first loop of `find_block` searches the free list. -/
theorem findFit_eq (h : Heap s cs order) {r : Nat} (hr : 0 < r) :
    findFit s r s.segsize first = order.find? (r ≤ s.size ·) := by
  obtain ⟨hle, hst⟩ := h.last_eq
  obtain ⟨qs, hw, -⟩ := h.walk
  have hL := layout
  have hlen : order.length < s.segsize := by
    have h1 := h.perm.length_eq
    have h2 : (freeOffs cs).length ≤ cs.length := by
      simpa [freeOffs] using List.length_filter_le _ cs
    have h3 := hw.length_le
    rw [hL.2.1] at h3
    omega
  exact ImmutableCache.findFit_eq hr h.links
    (fun o ho => h.node_pos hst (List.mem_cons_of_mem _ ho)) h.fnext_last h.size_last hlen

/-- The loops of `find_block` run over the free list. -/
theorem findBlock_eq (h : Heap s cs order) {r : Nat} (hr : 0 < r) :
    findBlock s r = none ∧ order.find? (r ≤ s.size ·) = none ∨
      ∃ o₁ b o₂, order = o₁ ++ b :: o₂ ∧ (∀ o ∈ o₁, s.size o < r) ∧ r ≤ s.size b ∧
        findBlock s r = some ((o₂.take bestFitLimit).foldl (smaller s r) b) := by
  obtain ⟨hle, hst⟩ := h.last_eq
  have hpos : ∀ o ∈ order ++ [s.last], 0 < o := fun o ho =>
    h.node_pos hst (List.mem_cons_of_mem _ ho)
  unfold findBlock
  rw [h.findFit_eq hr]
  cases hfd : order.find? (r ≤ s.size ·) with
  | none => exact .inl ⟨rfl, rfl⟩
  | some b =>
    obtain ⟨hb, o₁, o₂, rfl, hno⟩ := List.find?_eq_some_iff_append.1 hfd
    refine .inr ⟨o₁, b, o₂, rfl, fun o ho => by simpa using hno o ho, by simpa using hb, ?_⟩
    have hl : Links s.fnext s.fprev (b :: (o₂ ++ [s.last])) := by
      have := h.links
      rw [show first :: (o₁ ++ b :: o₂ ++ [s.last]) = (first :: o₁) ++ b :: (o₂ ++ [s.last]) by
        simp, Links.append_cons] at this
      exact this.2
    exact congrArg some (betterFit_eq hr hl
      (fun o ho => hpos o (by simp only [List.mem_append, List.mem_cons] at ho ⊢; tauto))
      h.fnext_last h.size_last)

/-- `find_block` returns a free block that is large enough, or there is none. -/
theorem findBlock_spec (h : Heap s cs order) {r : Nat} (hr : 0 < r) :
    (findBlock s r = none ∧ ∀ c ∈ cs, c.free = true → c.size < r) ∨
      ∃ c ∈ cs, c.free = true ∧ r ≤ c.size ∧ findBlock s r = some c.off := by
  obtain ⟨qs, hw, -⟩ := h.walk
  rcases h.findBlock_eq hr with ⟨h1, h2⟩ | ⟨o₁, b, o₂, rfl, -, hb, he⟩
  · refine .inl ⟨h1, fun c hc hf => ?_⟩
    have := List.find?_eq_none.1 h2 c.off (h.mem_order.2 ⟨c, hc, hf, rfl⟩)
    rw [(hw.mem hc).2.2.1] at this
    simpa using this
  · have ⟨hm, hge⟩ := foldl_smaller_mem (s := s) (o₂.take bestFitLimit) b hb
    have hmo : (o₂.take bestFitLimit).foldl (smaller s r) b ∈ o₁ ++ b :: o₂ := by
      rcases List.mem_cons.1 hm with hm | hm
      · simp [hm]
      · simp [List.mem_of_mem_take hm]
    obtain ⟨c, hc, hf, hco⟩ := h.mem_order.1 hmo
    refine .inr ⟨c, hc, hf, ?_, by rw [he, hco]⟩
    rw [← hco, (hw.mem hc).2.2.1] at hge
    exact hge

end Heap

/-! ## Taking a block -/

/-- What the first branch of `sma_allocate` writes. -/
theorem smaUnlink_eq {cur : Nat} (hne : s.fprev cur ≠ cur) :
    smaUnlink s cur =
      { s with
        prevSize := Function.update s.prevSize (cur + s.size cur) 0
        fnext := Function.update s.fnext (s.fprev cur) (s.fnext cur)
        fprev := Function.update s.fprev (s.fnext cur) (s.fprev cur) } := by
  simp [smaUnlink, setFnext, setFprev, setPrevSize, nextSblock, Function.update_of_ne hne.symm]

/-- What the second branch of `sma_allocate` writes. -/
theorem smaSplit_eq {cur r : Nat} (hlt : r ≤ s.size cur) (hb : s.size cur < 2 ^ 64)
    (hn : cur + r ≠ s.fnext cur) :
    smaSplit s cur r =
      { s with
        size := Function.update (Function.update s.size cur r) (cur + r) (s.size cur - r)
        prevSize := Function.update (Function.update s.prevSize (cur + r) 0) (cur + s.size cur)
          (s.size cur - r)
        fnext := Function.update (Function.update s.fnext (cur + r) (s.fnext cur)) (s.fprev cur)
          (cur + r)
        fprev := Function.update (Function.update s.fprev (cur + r) (s.fprev cur)) (s.fnext cur)
          (cur + r) } := by
  have hsz : cur + r + (s.size cur - r) = cur + s.size cur := by omega
  simp [smaSplit, setSize, setFnext, setFprev, setPrevSize, nextSblock,
    Function.update_of_ne hn, SizeT.sub_eq hlt hb, hsz]

namespace Heap

variable {pre post : List Chunk} {c : Chunk}

/-- The number of free bytes is a `size_t`. -/
theorem avail_lt (h : Heap s cs order) : s.avail < 2 ^ 64 := by
  obtain ⟨qs, hw, -⟩ := h.walk
  have := h.last_eq
  have := h.bound
  have := hw.freeBytes_le
  have := layout
  have := h.avail
  omega

/-- Taking the free block `c` whole. -/
theorem take_whole (h : Heap s (pre ++ c :: post) order) (hf : c.free = true) :
    Heap (((smaUnlink s c.off).setFnext c.off 0).setAvail (SizeT.sub s.avail c.size))
      (pre ++ { c with free := false } :: post) (order.erase c.off) := by
  obtain ⟨qs, hw, hq⟩ := h.walk
  have hL := layout
  obtain ⟨hle, hst⟩ := h.last_eq
  have hc := hw.mem (c := c) (by simp)
  obtain ⟨ms, hpre, hms, hms0, hpost⟩ := hw.at_cons
  rw [smaUnlink_eq (h.fnext_ne hst (by simp) hf).1]
  set s₁ : Segment := { s with
    prevSize := Function.update s.prevSize (c.off + s.size c.off) 0
    fnext := Function.update s.fnext (s.fprev c.off) (s.fnext c.off)
    fprev := Function.update s.fprev (s.fnext c.off) (s.fprev c.off) } with hs₁
  have hfl₁ : FreeList s₁ (pre ++ post) (order.erase c.off) :=
    h.toFreeList.remove hst hf rfl rfl rfl
  have hd : c.off ∉ (pre ++ post).map (·.off) := by
    have := h.nodup
    rw [List.map_append, List.map_cons, List.perm_middle.nodup_iff, ← List.map_append] at this
    exact (List.nodup_cons.1 this).1
  have hfl : FreeList ((s₁.setFnext c.off 0).setAvail (SizeT.sub s.avail c.size))
      (pre ++ { c with free := false } :: post) (order.erase c.off) :=
    hfl₁.add_live rfl (h.range c (by simp)) hd rfl rfl rfl
  have hps : s₁.prevSize = Function.update s.prevSize (c.off + c.size) 0 := by
    rw [hs₁, hc.2.2.1]
  refine { hfl with
    room := h.room, bound := h.bound, walk := ?_, size_last := h.size_last, avail := ?_ }
  · refine Walk.replace (m := [{ c with free := false }]) (x := 0) hpre hpost hq ?_
      (fun o _ _ => rfl) (fun o ho _ => ?_) ?_ (.inl rfl)
    · refine Walk.cons_iff.2 ⟨rfl, hc.2.2.1, ?_, hc.2.2.2.1, hc.2.2.2.2, by simp, rfl, rfl⟩
      change s₁.prevSize c.off = ms
      rw [hps, Function.update_of_ne (by omega), hms]
    · change s₁.prevSize o = s.prevSize o
      rw [hps, Function.update_of_ne (by omega)]
    · change s₁.prevSize (c.off + c.size) = 0
      rw [hps, Function.update_self]
  · have ha := h.avail
    change SizeT.sub s.avail c.size = _
    simp only [freeBytes_append, freeBytes_cons, Chunk.tag_free hf] at ha
    rw [SizeT.sub_eq (by omega) h.avail_lt]
    simp only [freeBytes_append, freeBytes_cons, Chunk.tag_live]
    omega

/-- An offset inside a block is no block. -/
theorem rest_fresh {r : Nat} (h : Heap s (pre ++ c :: post) order) (hr : 0 < r)
    (hlt : r < c.size) : c.off + r ∉ (pre ++ c :: post).map (·.off) := by
  obtain ⟨qs, hw, -⟩ := h.walk
  intro hm
  obtain ⟨d, hd, he⟩ := List.mem_map.1 hm
  have hne : c ≠ d := by rintro rfl; omega
  have := hw.disjoint (by simp) hd hne
  have := hw.mem hd
  have := layout
  omega

/-- An offset inside a free block is not the next node of the free list. -/
theorem rest_ne_fnext {r : Nat} (h : Heap s (pre ++ c :: post) order) (hf : c.free = true)
    (hr : 0 < r) (hlt : r < c.size) : c.off + r ≠ s.fnext c.off := by
  obtain ⟨qs, hw, -⟩ := h.walk
  have hc := hw.mem (c := c) (by simp)
  intro he
  obtain ⟨o₁, o₂, rfl⟩ := h.split (c := c) (by simp) hf
  have := h.around.2
  rw [← he, List.mem_append, List.mem_singleton] at this
  rcases this with hm | hm
  · have hmo : c.off + r ∈ o₁ ++ c.off :: o₂ := by simp [hm]
    obtain ⟨d, hd, -, he⟩ := h.mem_order.1 hmo
    exact h.rest_fresh hr hlt (List.mem_map.2 ⟨d, hd, he⟩)
  · omega

/-- Splitting `r` bytes off the free block `c`. -/
theorem take_split {r : Nat} (h : Heap s (pre ++ c :: post) order) (hf : c.free = true)
    (hr : blockSize ≤ r) (hr8 : r % 8 = 0) (hrest : r + blockSize ≤ c.size) :
    ∃ o₁ o₂, order = o₁ ++ c.off :: o₂ ∧
      Heap (((smaSplit s c.off r).setFnext c.off 0).setAvail (SizeT.sub s.avail r))
        (pre ++ ⟨c.off, r, false⟩ :: ⟨c.off + r, c.size - r, true⟩ :: post)
        (o₁ ++ (c.off + r) :: o₂) := by
  obtain ⟨qs, hw, hq⟩ := h.walk
  have hL := layout
  obtain ⟨hle, hst⟩ := h.last_eq
  have hbd := h.bound
  have hc := hw.mem (c := c) (by simp)
  have hlt : s.size c.off < 2 ^ 64 := by omega
  obtain ⟨ms, hpre, hms, hms0, hpost⟩ := hw.at_cons
  have hfresh := h.rest_fresh (r := r) (by omega) (by omega)
  rw [smaSplit_eq (by omega) hlt (h.rest_ne_fnext hf (by omega) (by omega))]
  set s₁ : Segment := { s with
    size := Function.update (Function.update s.size c.off r) (c.off + r) (s.size c.off - r)
    prevSize := Function.update (Function.update s.prevSize (c.off + r) 0)
      (c.off + s.size c.off) (s.size c.off - r)
    fnext := Function.update (Function.update s.fnext (c.off + r) (s.fnext c.off))
      (s.fprev c.off) (c.off + r)
    fprev := Function.update (Function.update s.fprev (c.off + r) (s.fprev c.off))
      (s.fnext c.off) (c.off + r) } with hs₁
  obtain ⟨o₁, o₂, ho, hfl₁⟩ : ∃ o₁ o₂, order = o₁ ++ c.off :: o₂ ∧
      FreeList s₁ (pre ++ ⟨c.off + r, c.size - r, true⟩ :: post) (o₁ ++ (c.off + r) :: o₂) :=
    h.toFreeList.replace (d := ⟨c.off + r, c.size - r, true⟩) hst hf rfl
      ⟨by dsimp only; omega, by dsimp only; omega⟩ hfresh rfl rfl rfl
  refine ⟨o₁, o₂, ho, ?_⟩
  have hd : c.off ∉ (pre ++ ⟨c.off + r, c.size - r, true⟩ :: post).map (·.off) := by
    have := h.nodup
    rw [List.map_append, List.map_cons, List.perm_middle.nodup_iff, ← List.map_append] at this
    have hno := (List.nodup_cons.1 this).1
    simp only [List.map_append, List.map_cons, List.mem_append, List.mem_cons, not_or] at hno ⊢
    exact ⟨hno.1, by omega, hno.2⟩
  set s₂ : Segment := (s₁.setFnext c.off 0).setAvail (SizeT.sub s.avail r) with hs₂
  have hfl : FreeList s₂ (pre ++ ⟨c.off, r, false⟩ :: ⟨c.off + r, c.size - r, true⟩ :: post)
      (o₁ ++ (c.off + r) :: o₂) :=
    hfl₁.add_live (c := ⟨c.off, r, false⟩) rfl (h.range c (by simp)) hd rfl rfl rfl
  have hsz : s₂.size = Function.update (Function.update s.size c.off r) (c.off + r)
      (c.size - r) := by rw [← hc.2.2.1]; rfl
  have hps : s₂.prevSize = Function.update (Function.update s.prevSize (c.off + r) 0)
      (c.off + c.size) (c.size - r) := by rw [← hc.2.2.1]; rfl
  refine { hfl with
    room := h.room, bound := h.bound, walk := ?_, size_last := ?_, avail := ?_ }
  · refine Walk.replace (m := [⟨c.off, r, false⟩, ⟨c.off + r, c.size - r, true⟩])
      (x := c.size - r) hpre hpost hq ?_ (fun o ho _ => ?_) (fun o ho _ => ?_) ?_
      (.inr (hw.next_live hf))
    · refine Walk.cons_iff.2 ⟨rfl, ?_, ?_, hr, hc.2.2.2.2, by simp, ?_⟩
      · rw [hsz, Function.update_of_ne (by omega), Function.update_self]
      · rw [hps, Function.update_of_ne (by omega), Function.update_of_ne (by omega), hms]
      · refine Walk.cons_iff.2 ⟨rfl, ?_, ?_, by dsimp only; omega, by dsimp only; omega, ?_, ?_⟩
        · rw [hsz, Function.update_self]
        · change s₂.prevSize (c.off + r) = 0
          rw [hps, Function.update_of_ne (by omega), Function.update_self]
        · exact fun _ => rfl
        · exact ⟨show c.off + r + (c.size - r) = _ by omega, rfl⟩
    · rw [hsz, Function.update_of_ne (by omega), Function.update_of_ne (by omega)]
    · rw [hps, Function.update_of_ne (by omega), Function.update_of_ne (by omega)]
    · rw [hps, Function.update_self]
  · change s₂.size s.last = 0
    rw [hsz, Function.update_of_ne (by omega), Function.update_of_ne (by omega), h.size_last]
  · have ha := h.avail
    change SizeT.sub s.avail r = _
    simp only [freeBytes_append, freeBytes_cons, Chunk.tag_free hf] at ha
    rw [SizeT.sub_eq (by omega) h.avail_lt]
    simp only [freeBytes_append, freeBytes_cons, Chunk.tag]
    simp only [if_true, Bool.false_eq_true, if_false]
    omega

/-- `sma_allocate` leaves a segment alone when no free block is large enough; otherwise it takes
such a block, whole or split, and returns the offset after its header. -/
theorem smaAllocate_spec {n : Nat} (h : Heap s cs order) (hn : n + blockSize + 8 ≤ 2 ^ 64) :
    (smaAllocate s n minBlockSize = (none, s) ∧
      ∀ c ∈ cs, c.free = true → c.size < alignword (n + blockSize)) ∨
    ∃ pre c post sz order' s', cs = pre ++ c :: post ∧ c.free = true ∧ n + blockSize ≤ sz ∧
      sz ≤ c.size ∧ smaAllocate s n minBlockSize = (some (c.off + blockSize, sz - blockSize), s') ∧
      s'.segsize = s.segsize ∧
      (sz = c.size ∧ Heap s' (pre ++ ⟨c.off, sz, false⟩ :: post) order' ∨
        sz = alignword (n + blockSize) ∧ Heap s'
          (pre ++ ⟨c.off, sz, false⟩ :: ⟨c.off + sz, c.size - sz, true⟩ :: post) order') := by
  obtain ⟨qs, hw, -⟩ := h.walk
  have hL := layout
  obtain ⟨hle, hst⟩ := h.last_eq
  have hbd := h.bound
  have hr : alignword (n + blockSize) = (n + blockSize + 7) / 8 * 8 :=
    SizeT.alignUp_eight (by omega) (by omega)
  have hadd : SizeT.add n blockSize = n + blockSize := SizeT.add_eq (by omega)
  unfold smaAllocate
  rw [hadd]
  set r := alignword (n + blockSize) with hrdef
  by_cases hav : s.avail < r
  · refine .inl ⟨by simp [hav], fun c hc hf => ?_⟩
    -- one free block is at most all of them together
    have := h.avail
    obtain ⟨cs₁, cs₂, rfl⟩ := List.append_of_mem hc
    simp only [freeBytes_append, freeBytes_cons, Chunk.tag_free hf] at this
    omega
  rcases h.findBlock_spec (r := r) (by omega) with ⟨hnone, hall⟩ | ⟨c, hc, hf, hge, hfound⟩
  · exact .inl ⟨by simp [hav, hnone], hall⟩
  right
  obtain ⟨pre, post, rfl⟩ := List.append_of_mem hc
  have hcm := hw.mem hc
  have hcsz : s.size c.off = c.size := hcm.2.2.1
  have hfr : SizeT.add r (SizeT.add minBlockSize minBlockSize) = r + 80 := by
    rw [SizeT.add_eq (a := minBlockSize) (by omega), SizeT.add_eq (by omega)]
    omega
  simp only [if_neg hav, hfound, hcsz, hfr]
  by_cases hwhole : c.size = r ∨ (r < c.size ∧ c.size < r + 80)
  · have hu := smaUnlink_eq (h.fnext_ne hst hc hf).1
    have hsz : (smaUnlink s c.off).size c.off = c.size := by rw [hu]; exact hcsz
    have havail : (smaUnlink s c.off).avail = s.avail := by rw [hu]
    refine ⟨pre, c, post, c.size, order.erase c.off, _, rfl, hf, by omega, le_rfl, ?_, ?_,
      .inl ⟨rfl, h.take_whole hf⟩⟩
    · have hb : SizeT.sub c.size blockSize = c.size - blockSize :=
        SizeT.sub_eq hcm.2.2.2.1 (by omega)
      simp only [if_pos hwhole, setFnext, setAvail, hsz, havail, hb]
    · rw [hu]; rfl
  · have hrest : r + blockSize ≤ c.size := by omega
    obtain ⟨o₁, o₂, -, hheap⟩ := h.take_split hf (r := r) (by omega) (by omega) hrest
    have hle : r ≤ s.size c.off := by omega
    have hu := smaSplit_eq hle (by omega) (h.rest_ne_fnext hf (by omega) (by omega))
    have hsz : (smaSplit s c.off r).size c.off = r := by
      rw [hu]
      dsimp only
      rw [Function.update_of_ne (by omega), Function.update_self]
    have havail : (smaSplit s c.off r).avail = s.avail := by rw [hu]
    refine ⟨pre, c, post, r, _, _, rfl, hf, by omega, by omega, ?_, ?_, .inr ⟨rfl, hheap⟩⟩
    · have hb : SizeT.sub r blockSize = r - blockSize := SizeT.sub_eq (by omega) (by omega)
      simp only [if_neg hwhole, setFnext, setAvail, hsz, havail, hb]
    · simp only [hu, setAvail, setFnext]

end Heap

end ImmutableCache
