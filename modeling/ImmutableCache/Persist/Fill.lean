import ImmutableCache.Persist.Context

/-!
# What the copying pass writes

The copying pass bump-allocates: it writes only between the position where it starts and the
position where it ends, and leaves the rest of shared memory as it was (`Fills`).
-/

namespace ImmutableCache

variable {sp : Space} {d d' d₁ : Ctxt} {p : Nat}

/-- Between `d` and `d'` the copying pass has written only what it has allocated. -/
structure Fills (d d' : Ctxt) : Prop where
  cur : d.allocCur ≤ d'.allocCur
  shm : ∀ q, q < d.allocCur ∨ d'.allocCur ≤ q → d'.shm q = d.shm q
  alloc : d'.alloc = d.alloc
  size : d'.size = d.size
  memo : d'.memoizationNeeded = d.memoizationNeeded
  ser : d'.useSerialization = d.useSerialization
  str : d'.serializedStr = d.serializedStr
  /-- Only memo entries are allocated in the request heap. -/
  emallocs : d.memoizationNeeded = false → d'.emallocs = d.emallocs

namespace Fills

/-- Nothing has been written. -/
theorem refl (d : Ctxt) : Fills d d :=
  ⟨le_rfl, fun _ _ => rfl, rfl, rfl, rfl, rfl, rfl, fun _ => rfl⟩

/-- What is written in two steps lies in what they have allocated. -/
theorem trans (h : Fills d d₁) (h' : Fills d₁ d') : Fills d d' where
  cur := h.cur.trans h'.cur
  shm q hq := by
    have h1 := h.cur
    have h2 := h'.cur
    rw [h'.shm q (by omega), h.shm q (by omega)]
  alloc := h'.alloc.trans h.alloc
  size := h'.size.trans h.size
  memo := h'.memo.trans h.memo
  ser := h'.ser.trans h.ser
  str := h'.str.trans h.str
  emallocs hm := (h'.emallocs (h.memo.trans hm)).trans (h.emallocs hm)

/-- An allocation writes nothing. -/
theorem persistAlloc (d : Ctxt) (n : Nat) : Fills d (d.persistAlloc n).2 :=
  ⟨Nat.le_add_right _ _, fun _ _ => rfl, rfl, rfl, rfl, rfl, rfl, fun _ => rfl⟩

/-- A write into what has been allocated. -/
theorem write (h : Fills d d') {o : Obj} (h1 : d.allocCur ≤ p) (h2 : p < d'.allocCur) :
    Fills d (d'.write p o) where
  cur := h.cur
  shm q hq := by
    rw [Ctxt.write_allocCur] at hq
    rw [Ctxt.write_shm_of_ne (by omega), h.shm q hq]
  alloc := h.alloc
  size := h.size
  memo := h.memo
  ser := h.ser
  str := h.str
  emallocs := h.emallocs

/-- The memo table lies elsewhere. -/
theorem addAlreadyAllocated (d : Ctxt) (p q : Nat) : Fills d (addAlreadyAllocated d p q) := by
  unfold ImmutableCache.addAlreadyAllocated
  split
  next hm => exact ⟨le_rfl, fun _ _ => rfl, rfl, rfl, rfl, rfl, rfl, fun h => by simp [h] at hm⟩
  · exact .refl d

/-- An allocation of at least one byte, written at its start. -/
theorem allocWrite (d : Ctxt) {n : Nat} (hn : 0 < n) (o : Obj) :
    Fills d ((d.persistAlloc n).2.write d.allocCur o) :=
  (persistAlloc d n).write le_rfl (Nat.lt_add_of_pos_right (alignedSize_pos hn))

/-- A copied string is written to what has been allocated for it. -/
theorem copyCstr (d : Ctxt) (buf : Bytes) (hash : Nat) : Fills d (copyCstr sp d buf hash).2 :=
  allocWrite d (by unfold zstrStructSize; omega) _

/-- So is a string that has not been copied before. -/
theorem getOrCopyZstr (d : Ctxt) (p : Nat) : Fills d (getOrCopyZstr sp d p).2 := by
  unfold ImmutableCache.getOrCopyZstr
  split
  · exact .refl d
  · exact (copyCstr d _ _).trans (.addAlreadyAllocated _ _ _)

/-- So is a key. -/
theorem copyKey (d : Ctxt) (ht : HashTable) (b : Bucket) : Fills d (copyKey sp d ht b).2.2 := by
  unfold ImmutableCache.copyKey
  split
  · exact .getOrCopyZstr d _
  · exact .refl d

/-- So is a value, if tables are. -/
theorem copyZval {g : Ctxt → Nat → Nat × Ctxt} (hg : ∀ d p, Fills d (g d p).2) (d : Ctxt)
    (v : Zval) : Fills d (copyZval sp g d v).2 := by
  unfold ImmutableCache.copyZval
  split
  · exact .refl d
  split
  · exact .copyCstr d _ _
  dsimp only
  split
  · split
    · exact .refl d
    · exact .getOrCopyZstr d _
  · split
    · exact .refl d
    · exact hg d _
  · exact .refl d

section

variable {g : Ctxt → Zval → Zval × Ctxt} (hg : ∀ d v, Fills d (g d v).2)
include hg

/-- So are the elements of a packed table. -/
theorem copyPacked (d : Ctxt) (ht : HashTable) (idx : Nat) (vs : List Zval) :
    Fills d (copyPacked g d ht idx vs).2.2 := by
  induction vs generalizing d ht idx with
  | nil => exact .refl d
  | cons v vs ih =>
    rw [ImmutableCache.copyPacked]
    split
    · exact ih d ht (idx + 1)
    · exact (hg d v).trans (ih _ _ _)

/-- So are the buckets. -/
theorem copyBuckets (d : Ctxt) (ht : HashTable) (idx : Nat) (bs : List Bucket) :
    Fills d (copyBuckets sp g d ht idx bs).2.2 := by
  induction bs generalizing d ht idx with
  | nil => exact .refl d
  | cons b bs ih =>
    rw [ImmutableCache.copyBuckets]
    split
    · exact ih d ht (idx + 1)
    · exact ((copyKey d _ b).trans (hg _ _)).trans (ih _ _ _)

/-- The packed branch writes its data area and the header at `p`, which was allocated before. -/
theorem copyPackedData {t : HashTable} (h : Fills d d₁) (h1 : d.allocCur ≤ p)
    (h2 : p < d₁.allocCur) (hz : t.nNumUsed ≠ 0) : Fills d (copyPackedData sp g d₁ p t) := by
  have hc := copyPacked hg (d₁.persistAlloc (htPackedUsedSize t)).2 t.copyHeader 0
    (sp.arPacked d₁.shm t).2
  have hpos : 0 < alignedSize (htPackedUsedSize t) :=
    alignedSize_pos (by unfold htPackedUsedSize; omega)
  have hcur := h.cur
  have hend : d₁.allocCur + alignedSize (htPackedUsedSize t) ≤ _ := hc.cur
  refine ((((h.trans (.persistAlloc _ _)).trans hc).write hcur ?_).write h1 ?_)
  · exact Nat.lt_of_lt_of_le (Nat.lt_add_of_pos_right hpos) hend
  · exact Nat.lt_of_lt_of_le (Nat.lt_of_lt_of_le h2 (Nat.le_add_right _ _)) hend

/-- The bucket branch writes its data area and the header at `p`, which was allocated before. -/
theorem copyBucketData {t : HashTable} (h : Fills d d₁) (h1 : d.allocCur ≤ p)
    (h2 : p < d₁.allocCur) (hz : t.nNumUsed ≠ 0) : Fills d (copyBucketData sp g d₁ p t) := by
  have hc : Fills (d₁.persistAlloc (htUsedSize t)).2 (ImmutableCache.copyBuckets sp g
      (d₁.persistAlloc (htUsedSize t)).2 t.copyHeader 0 (sp.arData d₁.shm t).2).2.2 :=
    .copyBuckets hg _ _ _ _
  have hpos : 0 < alignedSize (htUsedSize t) := alignedSize_pos (by unfold htUsedSize; omega)
  have hcur := h.cur
  have hend : d₁.allocCur + alignedSize (htUsedSize t) ≤ _ := hc.cur
  refine ((((h.trans (.persistAlloc _ _)).trans hc).write hcur ?_).write h1 ?_)
  · exact Nat.lt_of_lt_of_le (Nat.lt_add_of_pos_right hpos) hend
  · exact Nat.lt_of_lt_of_le (Nat.lt_of_lt_of_le h2 (Nat.le_add_right _ _)) hend

end

/-- So is a table. -/
theorem copyHt (depth : Nat) (d : Ctxt) (p : Nat) : Fills d (copyHt sp depth d p).2 := by
  induction depth generalizing d p with
  | zero => exact .refl d
  | succ depth ih =>
    have hhead := (persistAlloc d sizeofHashTable).trans
      (.addAlreadyAllocated _ p (d.persistAlloc sizeofHashTable).1)
    have hlt : d.allocCur < (ImmutableCache.addAlreadyAllocated
        (d.persistAlloc sizeofHashTable).2 p (d.persistAlloc sizeofHashTable).1).allocCur := by
      rw [addAlreadyAllocated_allocCur]
      exact Nat.lt_add_of_pos_right (by decide)
    rw [ImmutableCache.copyHt]
    dsimp only
    split
    · exact hhead.write le_rfl hlt
    next hz =>
      split
      · exact copyPackedData (.copyZval ih) hhead le_rfl hlt hz
      · exact copyBucketData (.copyZval ih) hhead le_rfl hlt hz

/-- The copying pass writes only what it allocates. -/
theorem persistCopy (depth : Nat) (d : Ctxt) (orig : Entry) :
    Fills d (persistCopy sp depth d orig).2 := by
  have h₁ := Fills.persistAlloc d sizeofEntry
  have h₂ : Fills (d.persistAlloc sizeofEntry).2
      (ImmutableCache.getOrCopyZstr sp (d.persistAlloc sizeofEntry).2 orig.key).2 :=
    .getOrCopyZstr _ _
  have h₃ : Fills (ImmutableCache.getOrCopyZstr sp (d.persistAlloc sizeofEntry).2 orig.key).2
      (ImmutableCache.copyZval sp (ImmutableCache.copyHt sp depth)
        (ImmutableCache.getOrCopyZstr sp (d.persistAlloc sizeofEntry).2 orig.key).2 orig.val).2 :=
    .copyZval (.copyHt depth) _ _
  refine ((h₁.trans h₂).trans h₃).write le_rfl ?_
  have hlt : d.allocCur < (d.persistAlloc sizeofEntry).2.allocCur :=
    Nat.lt_add_of_pos_right (by decide)
  exact Nat.lt_of_lt_of_le hlt (h₂.cur.trans h₃.cur)

end Fills

end ImmutableCache
