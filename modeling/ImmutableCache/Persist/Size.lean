import ImmutableCache.Persist.Fill

/-!
# The sizing pass and the copying pass agree

The copy of an entry advances `alloc_cur` by exactly the bytes that the sizing pass counted, and no
bump allocation on the way goes past the end of the block. The two passes are run in step:
`InStep` relates a context of the sizing pass to the context of the copying pass at the same place
of the traversal. It says that the memo tables hold the same keys and that `alloc_cur` is as far
into the block as the size counted so far. Every function of the copying pass keeps it when its
counterpart succeeds.
-/

namespace ImmutableCache

variable {υ : Type} {sp : Space} {serializer : Serializer υ} {base total : Nat} {ser : Bool}
  {c c' c₁ d : Ctxt} {p : Nat}

/-- The sizing pass at `c` and the copying pass at `d` have come to the same place, on a block of
`total` bytes at `base`. -/
structure InStep (base total : Nat) (ser : Bool) (c d : Ctxt) : Prop where
  alloc : d.alloc = base
  size : d.size = total
  memo : d.memoizationNeeded = c.memoizationNeeded
  serCalc : c.useSerialization = ser
  serCopy : d.useSerialization = ser
  /-- The same pointers have been counted and copied. -/
  keys : d.alreadyAllocated.map Prod.fst = c.alreadyCounted
  /-- What has been counted has been allocated. -/
  cur : d.allocCur = base + c.size
  /-- No allocation has gone past the end. -/
  fits : d.overrun = false

namespace InStep

/-- Counting some bytes keeps step with allocating them, as long as they fit. -/
theorem alloc_step (h : InStep base total ser c d) {n : Nat}
    (hn : (c.addSize n).size ≤ total) :
    InStep base total ser (c.addSize n) (d.persistAlloc n).2 := by
  have hle : c.size + alignedSize n ≤ total := hn
  refine { alloc := h.alloc, size := h.size, memo := h.memo, serCalc := h.serCalc,
           serCopy := h.serCopy, keys := h.keys, cur := ?_, fits := ?_ }
  · simp only [Ctxt.persistAlloc, Ctxt.addSize, h.cur]
    omega
  · simp only [Ctxt.persistAlloc, h.fits, Bool.false_or, decide_eq_false_iff_not, h.alloc, h.size,
      h.cur]
    omega

/-- Writing into the block changes no position. -/
theorem write (h : InStep base total ser c d) (p : Nat) (o : Obj) :
    InStep base total ser c (d.write p o) :=
  { alloc := h.alloc, size := h.size, memo := h.memo, serCalc := h.serCalc, serCopy := h.serCopy,
    keys := h.keys, cur := h.cur, fits := h.fits }

/-- A pointer that the sizing pass has counted before is one that the copying pass finds. -/
theorem seen (h : InStep base total ser c d) (hp : sp.shared p = false)
    (hm : calcMemoize c p = (true, c₁)) : c₁ = c ∧ ∃ q, getAlreadyAllocated sp d p = some q := by
  unfold calcMemoize at hm
  split at hm
  · cases hm
  next hneed =>
    split at hm
    next hmem =>
      obtain ⟨-, rfl⟩ := Prod.mk.inj hm
      refine ⟨rfl, ?_⟩
      rw [← h.keys] at hmem
      obtain ⟨⟨k, q⟩, hkq, hk⟩ := List.mem_map.1 hmem
      have hneed' : d.memoizationNeeded = true := by simpa [h.memo] using hneed
      have hsome : (d.alreadyAllocated.lookup (pointerToHashKey p)).isSome := by
        rw [List.lookup_isSome_iff]
        exact ⟨(k, q), hkq, by simp [← hk]⟩
      simpa [getAlreadyAllocated, hp, hneed'] using Option.isSome_iff_exists.1 hsome
    · cases hm

/-- A pointer that is new to the sizing pass is new to the copying pass. -/
theorem fresh (h : InStep base total ser c d) (hp : sp.shared p = false)
    (hm : calcMemoize c p = (false, c₁)) : getAlreadyAllocated sp d p = none := by
  unfold calcMemoize at hm
  split at hm
  next hneed =>
    have hneed' : d.memoizationNeeded = false := by simpa [h.memo] using hneed
    simp [getAlreadyAllocated, hp, hneed']
  next hneed =>
    split at hm
    · cases hm
    next hmem =>
      have hnone : d.alreadyAllocated.lookup (pointerToHashKey p) = none := by
        rw [List.lookup_eq_none_iff]
        intro x hx
        rw [← h.keys] at hmem
        simp only [bne_iff_ne, ne_eq]
        exact fun he => hmem (List.mem_map.2 ⟨x, hx, he.symm⟩)
      simp [getAlreadyAllocated, hp, hnone]

/-- Entering a new pointer into both memo tables. -/
theorem memoize (h : InStep base total ser c d) (hm : calcMemoize c p = (false, c₁)) (q : Nat) :
    InStep base total ser c₁ (addAlreadyAllocated d p q) := by
  unfold calcMemoize at hm
  split at hm
  next hneed =>
    obtain ⟨-, rfl⟩ := Prod.mk.inj hm
    have hneed' : d.memoizationNeeded = false := by simpa [h.memo] using hneed
    simpa [addAlreadyAllocated, hneed'] using h
  next hneed =>
    split at hm
    · cases hm
    · obtain ⟨-, rfl⟩ := Prod.mk.inj hm
      have hneed' : d.memoizationNeeded = true := by simpa [h.memo] using hneed
      rw [addAlreadyAllocated, if_pos hneed']
      exact { alloc := h.alloc, size := h.size, memo := h.memo, serCalc := h.serCalc,
              serCopy := h.serCopy, keys := by simp [h.keys], cur := h.cur, fits := h.fits }

end InStep

/-- The sizing pass only adds bytes and memo entries of its own. -/
structure Grows (c c' : Ctxt) : Prop where
  size : c.size ≤ c'.size
  memo : c'.memoizationNeeded = c.memoizationNeeded
  allocated : c'.alreadyAllocated = c.alreadyAllocated
  shm : c'.shm = c.shm
  overrun : c'.overrun = c.overrun

namespace Grows

/-- Nothing has been added. -/
theorem refl (c : Ctxt) : Grows c c := ⟨le_rfl, rfl, rfl, rfl, rfl⟩

/-- What is added in two steps. -/
theorem trans (h : Grows c c₁) (h' : Grows c₁ c') : Grows c c' :=
  ⟨h.size.trans h'.size, h'.memo.trans h.memo, h'.allocated.trans h.allocated, h'.shm.trans h.shm,
    h'.overrun.trans h.overrun⟩

/-- Bytes are added. -/
theorem addSize (c : Ctxt) (n : Nat) : Grows c (c.addSize n) :=
  ⟨Nat.le_add_right _ _, rfl, rfl, rfl, rfl⟩

/-- A pointer is counted. -/
theorem calcMemoize (c : Ctxt) (p : Nat) : Grows c (calcMemoize c p).2 := by
  unfold ImmutableCache.calcMemoize
  split
  · exact .refl c
  split
  · exact .refl c
  · exact ⟨le_rfl, rfl, rfl, rfl, rfl⟩

end Grows

/-- Outside the shared segments both passes read the same string. -/
theorem Space.zstr_req (hp : sp.shared p = false) (m m' : Mem) : sp.zstr m p = sp.zstr m' p := by
  simp [Space.zstr, Space.deref_req hp]

/-- Outside the shared segments both passes read the same table. -/
theorem Space.ht_req (hp : sp.shared p = false) (m m' : Mem) : sp.ht m p = sp.ht m' p := by
  simp [Space.ht, Space.deref_req hp]

/-! ## Strings -/

/-- A string is sized. -/
theorem Grows.calcStr (c : Ctxt) (p : Nat) : Grows c (calcStr sp c p) := by
  unfold ImmutableCache.calcStr
  split
  · exact .refl c
  · have hs := Grows.calcMemoize c p
    split
    next hm =>
      rw [hm] at hs
      exact hs
    next hm =>
      rw [hm] at hs
      exact hs.trans (.addSize _ _)

/-- `copy_cstr` allocates what `ADD_SIZE_STR` counts. -/
theorem InStep.copyCstr (h : InStep base total ser c d) {buf : Bytes} {hash : Nat}
    (hn : (c.addSizeStr buf.length).size ≤ total) :
    InStep base total ser (c.addSizeStr buf.length) (copyCstr sp d buf hash).2 :=
  (h.alloc_step hn).write _ _

/-- A memo entry can be made before the allocation that it is for. -/
theorem addAlreadyAllocated_persistAlloc (d : Ctxt) (n q : Nat) :
    addAlreadyAllocated (d.persistAlloc n).2 p q =
      ((addAlreadyAllocated d p q).persistAlloc n).2 := by
  cases hm : d.memoizationNeeded <;> simp [addAlreadyAllocated, Ctxt.persistAlloc, hm]

/-- A memo entry can be made before the copy of the string that it is for. -/
theorem addAlreadyAllocated_copyCstr (d : Ctxt) (buf : Bytes) (hash q : Nat) :
    addAlreadyAllocated (copyCstr sp d buf hash).2 p q =
      (copyCstr sp (addAlreadyAllocated d p q) buf hash).2 := by
  cases hm : d.memoizationNeeded <;>
    simp [addAlreadyAllocated, copyCstr, Ctxt.persistAlloc, Ctxt.write, hm]

/-- `get_or_copy_zstr` keeps step with `calc_str`. -/
theorem InStep.getOrCopyZstr (h : InStep base total ser c d)
    (hn : (calcStr sp c p).size ≤ total) :
    InStep base total ser (calcStr sp c p) (getOrCopyZstr sp d p).2 := by
  cases hp : sp.shared p with
  | true => simpa [calcStr, ImmutableCache.getOrCopyZstr, getAlreadyAllocated, hp] using h
  | false =>
    cases hm : calcMemoize c p with
    | mk seen c₁ =>
      cases seen with
      | true =>
        obtain ⟨rfl, q, hq⟩ := h.seen hp hm
        simpa [calcStr, ImmutableCache.getOrCopyZstr, hp, hm, hq] using h
      | false =>
        have hq := h.fresh hp hm
        simp only [calcStr, hp, hm, Bool.false_eq_true, if_false] at hn ⊢
        simp only [ImmutableCache.getOrCopyZstr, hq]
        rw [Space.zstr_req hp c₁.shm d.shm] at hn ⊢
        -- the memo entry is made after the copy, but it touches no position
        rw [addAlreadyAllocated_copyCstr]
        exact (h.memoize hm _).copyCstr hn

/-- A key is sized. -/
theorem Grows.calcKey (c : Ctxt) (key : Option Nat) : Grows c (calcKey sp c key) := by
  cases key with
  | none => exact .refl c
  | some key => exact .calcStr c key

/-- Copying the key of a bucket keeps step with counting it. -/
theorem InStep.copyKey (h : InStep base total ser c d) {ht : HashTable} {b : Bucket}
    (hn : (calcKey sp c b.key).size ≤ total) :
    InStep base total ser (calcKey sp c b.key) (copyKey sp d ht b).2.2 := by
  unfold ImmutableCache.copyKey
  cases hk : b.key with
  | none => exact h
  | some key =>
    rw [hk] at hn
    exact h.getOrCopyZstr hn

/-! ## Values and tables -/

/-- A string value is counted like a string key. -/
theorem calcZval_string {f : Ctxt → HashTable → Bool × Ctxt} {rc : Bool}
    (h : c.useSerialization = false) :
    calcZval sp serializer f c (.string p rc) = (true, calcStr sp c p) := by
  cases hp : sp.shared p with
  | true => simp [calcZval, calcStr, Zval.isScalar, Zval.counted, h, hp]
  | false =>
    simp only [calcZval, calcStr, Zval.isScalar, Zval.counted, h, hp, Bool.false_eq_true, if_false]
    cases calcMemoize c p with
    | mk seen c₁ => cases seen <;> rfl

/-- An array is counted if it is outside the shared segments and new. -/
theorem calcZval_array {f : Ctxt → HashTable → Bool × Ctxt} {rc : Bool}
    (h : c.useSerialization = false) :
    calcZval sp serializer f c (.array p rc) =
      if sp.shared p then (true, c)
      else if (calcMemoize c p).1 then (true, (calcMemoize c p).2)
      else f (calcMemoize c p).2 (sp.ht (calcMemoize c p).2.shm p) := by
  cases hp : sp.shared p with
  | true => simp [calcZval, Zval.isScalar, Zval.counted, h, hp]
  | false =>
    simp only [calcZval, Zval.isScalar, Zval.counted, h, hp, Bool.false_eq_true, if_false]
    cases calcMemoize c p with
    | mk seen c₁ => cases seen <;> rfl

/-- A string value is copied like a string key. -/
theorem copyZval_string {g : Ctxt → Nat → Nat × Ctxt} {rc : Bool}
    (h : d.useSerialization = false) :
    copyZval sp g d (.string p rc) =
      (zvalStr sp (getOrCopyZstr sp d p).2 (getOrCopyZstr sp d p).1,
        (getOrCopyZstr sp d p).2) := by
  simp only [copyZval, Zval.isScalar, Zval.counted, h, Bool.false_eq_true, if_false]
  cases hq : getAlreadyAllocated sp d p with
  | some q => simp [getOrCopyZstr, hq]
  | none => rfl

/-- The functions `f` and `g` for tables keep step on a table that is new to both. -/
def TableStep (sp : Space) (base total : Nat) (f : Ctxt → HashTable → Bool × Ctxt)
    (g : Ctxt → Nat → Nat × Ctxt) : Prop :=
  ∀ ⦃c c₁ c' d : Ctxt⦄ ⦃p : Nat⦄, InStep base total false c d → sp.shared p = false →
    calcMemoize c p = (false, c₁) → f c₁ (sp.ht c₁.shm p) = (true, c') → c'.size ≤ total →
    InStep base total false c' (g d p).2

/-- The functions `f` and `g` for values keep step. -/
def ValueStep (base total : Nat) (f : Ctxt → Zval → Bool × Ctxt)
    (g : Ctxt → Zval → Zval × Ctxt) : Prop :=
  ∀ ⦃c c' d : Ctxt⦄ ⦃v : Zval⦄, InStep base total false c d → f c v = (true, c') →
    c'.size ≤ total → InStep base total false c' (g d v).2

/-- `copy_zval` keeps step with `calc_zval` if the functions for the tables below do. -/
theorem TableStep.zval {f : Ctxt → HashTable → Bool × Ctxt} {g : Ctxt → Nat → Nat × Ctxt}
    (hfg : TableStep sp base total f g) :
    ValueStep base total (calcZval sp serializer f) (copyZval sp g) := by
  intro c c' d v h hc hn
  -- a value that is neither a string nor an array is counted only if there is nothing to do
  have hskip : ∀ {v : Zval}, calcZval sp serializer f c v = (true, c') →
      (v.isScalar = true ∨ sp.shared v.counted = true ∨
        ∃ c₁, calcMemoize c v.counted = (true, c₁)) → c' = c := by
    intro v hc hv
    unfold calcZval at hc
    split at hc
    · exact (Prod.mk.inj hc).2.symm
    next hs =>
      rw [h.serCalc, if_neg Bool.false_ne_true] at hc
      split at hc
      · exact (Prod.mk.inj hc).2.symm
      next hsh =>
        obtain hv | hv | ⟨c₁, hm⟩ := hv
        · exact absurd hv hs
        · exact absurd hv hsh
        · rw [hm] at hc
          have hp : sp.shared v.counted = false := by simpa using hsh
          rw [← (h.seen hp hm).1]
          exact (Prod.mk.inj hc).2.symm
  cases v with
  | undef | null | bool _ | long _ | double _ =>
    rw [hskip hc (.inl rfl)]
    exact h
  | string p rc =>
    rw [calcZval_string h.serCalc] at hc
    obtain ⟨-, rfl⟩ := Prod.mk.inj hc
    rw [copyZval_string h.serCopy]
    exact h.getOrCopyZstr hn
  | array p rc =>
    simp only [copyZval, Zval.isScalar, Zval.counted, h.serCopy, Bool.false_eq_true, if_false]
    cases hp : sp.shared p with
    | true =>
      rw [hskip hc (.inr (.inl hp))]
      simpa [getAlreadyAllocated, hp] using h
    | false =>
      cases hm : calcMemoize c p with
      | mk seen c₁ =>
        cases seen with
        | true =>
          rw [hskip hc (.inr (.inr ⟨c₁, hm⟩))]
          obtain ⟨-, q, hq⟩ := h.seen hp hm
          simpa [hq] using h
        | false =>
          simp only [h.fresh hp hm]
          rw [calcZval_array h.serCalc, hp, hm] at hc
          exact hfg h hp hm hc hn
  | object p | resource p | reference p | indirect p | ptr p =>
    simp only [copyZval, Zval.isScalar, h.serCopy, Bool.false_eq_true, if_false]
    cases hp : sp.shared p with
    | true =>
      rw [hskip hc (.inr (.inl hp))]
      exact h
    | false =>
      cases hm : calcMemoize c p with
      | mk seen c₁ =>
        cases seen with
        | true =>
          rw [hskip hc (.inr (.inr ⟨c₁, hm⟩))]
          exact h
        | false =>
          simp [calcZval, Zval.isScalar, Zval.counted, h.serCalc, hp, hm] at hc

/-! ## The loops over a table -/

section

variable {f : Ctxt → Zval → Bool × Ctxt} {g : Ctxt → Zval → Zval × Ctxt}

/-- The elements of a packed table are sized. -/
theorem Grows.calcPacked (hf : ∀ c v, Grows c (f c v).2) (c : Ctxt) (vs : List Zval) :
    Grows c (calcPacked f c vs).2 := by
  induction vs generalizing c with
  | nil => exact .refl c
  | cons v vs ih =>
    have h1 := hf c v
    rw [ImmutableCache.calcPacked]
    split
    next hc => rwa [hc] at h1
    next hc =>
      rw [hc] at h1
      exact h1.trans (ih _)

/-- The buckets are sized. -/
theorem Grows.calcBuckets (hf : ∀ c v, Grows c (f c v).2) (c : Ctxt) (bs : List Bucket) :
    Grows c (calcBuckets sp f c bs).2 := by
  induction bs generalizing c with
  | nil => exact .refl c
  | cons b bs ih =>
    rw [ImmutableCache.calcBuckets]
    split
    · exact ih c
    split
    · exact ⟨le_rfl, rfl, rfl, rfl, rfl⟩
    have hk : Grows c (ImmutableCache.calcKey sp c b.key) := .calcKey c b.key
    have h1 := hf (ImmutableCache.calcKey sp c b.key) b.val
    split
    next hc =>
      rw [hc] at h1
      exact hk.trans h1
    next hc =>
      rw [hc] at h1
      exact (hk.trans h1).trans (ih _)

/-- The sizing loop over a packed table succeeds if every element does. -/
theorem calcPacked_cons {v : Zval} {vs : List Zval} :
    calcPacked f c (v :: vs) = (true, c') ↔
      ∃ c₁, f c v = (true, c₁) ∧ calcPacked f c₁ vs = (true, c') := by
  rw [calcPacked]
  cases f c v with
  | mk ok c₁ => cases ok <;> simp

/-- The sizing loop over a hashed table succeeds if every element does and none is an `INDIRECT`. -/
theorem calcBuckets_cons {b : Bucket} {bs : List Bucket} :
    calcBuckets sp f c (b :: bs) = (true, c') ↔
      b.val = .undef ∧ calcBuckets sp f c bs = (true, c') ∨
      b.val ≠ .undef ∧ b.val.isIndirect = false ∧
        ∃ c₁, f (calcKey sp c b.key) b.val = (true, c₁) ∧
          calcBuckets sp f c₁ bs = (true, c') := by
  rw [calcBuckets]
  by_cases hu : b.val = .undef
  · simp [hu]
  cases hi : b.val.isIndirect with
  | true => simp [hu]
  | false =>
    cases f (calcKey sp c b.key) b.val with
    | mk ok c₁ => cases ok <;> simp [hu]

/-- The copy loop over a packed table keeps step with the sizing loop. -/
theorem ValueStep.packed (hfg : ValueStep base total f g) (hf : ∀ c v, Grows c (f c v).2)
    (hundef : ∀ c, f c .undef = (true, c)) {ht : HashTable} {idx : Nat} {vs : List Zval}
    (h : InStep base total false c d) (hc : calcPacked f c vs = (true, c'))
    (hn : c'.size ≤ total) :
    InStep base total false c' (copyPacked g d ht idx vs).2.2 := by
  induction vs generalizing c d ht idx with
  | nil =>
    obtain ⟨-, rfl⟩ := Prod.mk.inj hc
    exact h
  | cons v vs ih =>
    obtain ⟨c₁, hv, hc⟩ := calcPacked_cons.1 hc
    have hle := (Grows.calcPacked hf c₁ vs).size
    rw [hc] at hle
    rw [copyPacked]
    split
    next hu =>
      rw [hu, hundef] at hv
      obtain ⟨-, rfl⟩ := Prod.mk.inj hv
      exact ih h hc
    · exact ih (hfg h hv (hle.trans hn)) hc

/-- The copy loop over a hashed table keeps step with the sizing loop. -/
theorem ValueStep.buckets (hfg : ValueStep base total f g) (hf : ∀ c v, Grows c (f c v).2)
    {ht : HashTable} {idx : Nat} {bs : List Bucket} (h : InStep base total false c d)
    (hc : calcBuckets sp f c bs = (true, c')) (hn : c'.size ≤ total) :
    InStep base total false c' (copyBuckets sp g d ht idx bs).2.2 := by
  induction bs generalizing c d ht idx with
  | nil =>
    obtain ⟨-, rfl⟩ := Prod.mk.inj hc
    exact h
  | cons b bs ih =>
    rw [copyBuckets]
    obtain ⟨hu, hc⟩ | ⟨hu, -, c₁, hv, hc⟩ := calcBuckets_cons.1 hc
    · rw [if_pos hu]
      exact ih h hc
    · have hle : c₁.size ≤ (calcBuckets sp f c₁ bs).2.size := (Grows.calcBuckets hf c₁ bs).size
      have hle' := (hf (calcKey sp c b.key) b.val).size
      rw [hc] at hle
      rw [hv] at hle'
      rw [if_neg hu]
      exact ih (hfg (h.copyKey ((hle'.trans hle).trans hn)) hv (hle.trans hn)) hc

end

/-! ## Tables -/

/-- The data area of a table outside the shared segments lies outside them too. -/
theorem Space.data_req (hp : sp.shared p = false) (m : Mem) :
    (sp.ht m p).nNumUsed = 0 ∨ sp.shared (sp.ht m p).dataAddr = false := by
  unfold Space.ht
  rw [Space.deref_req hp]
  split
  next ho => exact .inr (sp.data_owned ho)
  · exact .inl rfl

/-- Both passes read the same packed elements. -/
theorem Space.arPacked_req {t : HashTable} (hd : sp.shared t.dataAddr = false) (m m' : Mem) :
    sp.arPacked m t = sp.arPacked m' t := by
  simp [Space.arPacked, Space.deref_req hd]

/-- Both passes read the same buckets. -/
theorem Space.arData_req {t : HashTable} (hd : sp.shared t.dataAddr = false) (m m' : Mem) :
    sp.arData m t = sp.arData m' t := by
  simp [Space.arData, Space.deref_req hd]

/-- A value is sized, if tables are. -/
theorem Grows.calcZval {f : Ctxt → HashTable → Bool × Ctxt} (hf : ∀ c t, Grows c (f c t).2)
    (c : Ctxt) (v : Zval) : Grows c (calcZval sp serializer f c v).2 := by
  unfold ImmutableCache.calcZval
  split
  · exact .refl c
  split
  · unfold calcSerialize
    dsimp only
    split
    · exact ⟨le_rfl, rfl, rfl, rfl, rfl⟩
    · exact ⟨Nat.le_add_right _ _, rfl, rfl, rfl, rfl⟩
  split
  · exact .refl c
  have hs := Grows.calcMemoize c v.counted
  split
  next hm =>
    rw [hm] at hs
    exact hs
  next c₁ hm =>
    rw [hm] at hs
    split
    · exact hs.trans (.addSize _ _)
    · exact hs.trans (hf _ _)
    all_goals exact hs.trans ⟨le_rfl, rfl, rfl, rfl, rfl⟩

/-- A table is sized. -/
theorem Grows.calcHt (depth : Nat) (c : Ctxt) (t : HashTable) :
    Grows c (calcHt sp serializer depth c t).2 := by
  induction depth generalizing c t with
  | zero => exact .refl c
  | succ depth ih =>
    have h0 := Grows.addSize c sizeofHashTable
    rw [ImmutableCache.calcHt]
    split
    · exact h0
    split
    · exact (h0.trans (.addSize _ _)).trans (.calcPacked (.calcZval ih) _ _)
    · exact (h0.trans (.addSize _ _)).trans (.calcBuckets (.calcZval ih) _ _)

/-- The packed branch of `copy_ht` keeps step with that of `calc_ht`. -/
theorem ValueStep.packedData {f : Ctxt → Zval → Bool × Ctxt} {g : Ctxt → Zval → Zval × Ctxt}
    (hfg : ValueStep base total f g) (hf : ∀ c v, Grows c (f c v).2)
    (hundef : ∀ c, f c .undef = (true, c)) {t : HashTable} (hd : sp.shared t.dataAddr = false)
    (h : InStep base total false c d)
    (hc : calcPacked f (c.addSize (htPackedUsedSize t)) (sp.arPacked c.shm t).2 = (true, c'))
    (hn : c'.size ≤ total) :
    InStep base total false c' (copyPackedData sp g d p t) := by
  have hle := (Grows.calcPacked hf (c.addSize (htPackedUsedSize t)) (sp.arPacked c.shm t).2).size
  rw [hc] at hle
  rw [Space.arPacked_req hd c.shm d.shm] at hc
  exact ((hfg.packed hf hundef (h.alloc_step (hle.trans hn)) hc hn).write _ _).write _ _

/-- The bucket branch of `copy_ht` keeps step with that of `calc_ht`. -/
theorem ValueStep.bucketData {f : Ctxt → Zval → Bool × Ctxt} {g : Ctxt → Zval → Zval × Ctxt}
    (hfg : ValueStep base total f g) (hf : ∀ c v, Grows c (f c v).2) {t : HashTable}
    (hd : sp.shared t.dataAddr = false) (h : InStep base total false c d)
    (hc : calcBuckets sp f (c.addSize (htUsedSize t)) (sp.arData c.shm t).2 = (true, c'))
    (hn : c'.size ≤ total) :
    InStep base total false c' (copyBucketData sp g d p t) := by
  have hle : (c.addSize (htUsedSize t)).size ≤
      (calcBuckets sp f (c.addSize (htUsedSize t)) (sp.arData c.shm t).2).2.size :=
    (Grows.calcBuckets hf _ _).size
  rw [hc] at hle
  rw [Space.arData_req hd c.shm d.shm] at hc
  exact ((hfg.buckets hf (h.alloc_step (hle.trans hn)) hc hn).write _ _).write _ _

/-- `copy_ht` keeps step with `calc_ht`. -/
theorem TableStep.ht (depth : Nat) :
    TableStep sp base total (calcHt sp serializer depth) (copyHt sp depth) := by
  induction depth with
  | zero =>
    intro c c₁ c' d p _ _ _ hc _
    cases hc
  | succ depth ih =>
    intro c c₁ c' d p h hp hm hc hn
    have hmono : ∀ c v, Grows c (calcZval sp serializer (calcHt sp serializer depth) c v).2 :=
      Grows.calcZval (Grows.calcHt depth)
    have hundef : ∀ c, calcZval sp serializer (calcHt sp serializer depth) c .undef = (true, c) :=
      fun c => rfl
    have hval : ValueStep base total (calcZval sp serializer (calcHt sp serializer depth))
        (copyZval sp (copyHt sp depth)) := TableStep.zval ih
    have htab : sp.ht d.shm p = sp.ht c₁.shm p := Space.ht_req hp _ _
    have hdata := Space.data_req hp c₁.shm
    rw [calcHt] at hc
    rw [copyHt]
    dsimp only
    rw [htab, addAlreadyAllocated_persistAlloc]
    generalize sp.ht c₁.shm p = t at hc hdata ⊢
    -- the header is counted and allocated before the elements
    have h0 : (c₁.addSize sizeofHashTable).size ≤ c'.size → InStep base total false
        (c₁.addSize sizeofHashTable)
        ((addAlreadyAllocated d p (d.persistAlloc sizeofHashTable).1).persistAlloc
          sizeofHashTable).2 :=
      fun hle => (h.memoize hm _).alloc_step (hle.trans hn)
    split at hc
    next hz =>
      obtain ⟨-, rfl⟩ := Prod.mk.inj hc
      rw [if_pos hz]
      exact (h0 le_rfl).write _ _
    next hz =>
      have hd : sp.shared t.dataAddr = false := hdata.resolve_left hz
      rw [if_neg hz]
      split at hc
      next hpk =>
        have hle := (Grows.addSize (c₁.addSize sizeofHashTable) (htPackedUsedSize t)).trans
          (.calcPacked hmono _ (sp.arPacked (c₁.addSize sizeofHashTable).shm t).2)
        rw [hc] at hle
        rw [if_pos hpk]
        exact hval.packedData hmono hundef hd (h0 hle.size) hc hn
      next hpk =>
        have hle : Grows (c₁.addSize sizeofHashTable) (calcBuckets sp
            (calcZval sp serializer (calcHt sp serializer depth))
            ((c₁.addSize sizeofHashTable).addSize (htUsedSize t))
            (sp.arData (c₁.addSize sizeofHashTable).shm t).2).2 :=
          (Grows.addSize _ _).trans (.calcBuckets hmono _ _)
        rw [hc] at hle
        rw [if_neg hpk]
        exact hval.bucketData hmono hd (h0 hle.size) hc hn

/-! ## The whole entry -/

/-- `copy_serialize` keeps step with `calc_serialize`. -/
theorem InStep.serialized {f : Ctxt → HashTable → Bool × Ctxt} {g : Ctxt → Nat → Nat × Ctxt}
    {v : Zval} (h : InStep base total true c d)
    (hc : calcZval sp serializer f c v = (true, c')) (hn : c'.size ≤ total)
    (hstr : v.isScalar = false → d.serializedStr = c'.serializedStr) :
    InStep base total true c' (copyZval sp g d v).2 := by
  unfold calcZval at hc
  unfold copyZval
  split at hc
  next hs =>
    obtain ⟨-, rfl⟩ := Prod.mk.inj hc
    rw [if_pos hs]
    exact h
  next hs =>
    rw [h.serCalc, if_pos rfl, calcSerialize] at hc
    rw [if_neg hs, h.serCopy, if_pos rfl]
    dsimp only at hc
    split at hc
    · cases hc
    next buf _ =>
      obtain ⟨-, rfl⟩ := Prod.mk.inj hc
      have hbuf : d.serializedStr = some buf := hstr (by simpa using hs)
      have h' (x : Bool) : InStep base total true
          { c with serializations := c.serializations + 1, emallocs := c.emallocs + 1, exception := x
                   serializedStr := some buf } d :=
        ⟨h.alloc, h.size, h.memo, h.serCalc, h.serCopy, h.keys, h.cur, h.fits⟩
      rw [copySerialize, hbuf]
      exact (h' _).copyCstr hn

/-- The copy of an entry keeps step with its sizing, in direct and in serialized form. -/
theorem InStep.persistCopy {depth : Nat} {orig : Entry}
    (h : InStep base total ser c d) (hc : persistCalc sp serializer depth c orig = (true, c'))
    (hn : c'.size ≤ total) (hstr : d.serializedStr = c'.serializedStr) :
    InStep base total ser c' (persistCopy sp depth d orig).2 := by
  have h1 : Grows (c.addSize sizeofEntry) (calcStr sp (c.addSize sizeofEntry) orig.key) :=
    .calcStr _ _
  have h2 : Grows _ (calcZval sp serializer (calcHt sp serializer depth)
      (calcStr sp (c.addSize sizeofEntry) orig.key) orig.val).2 := .calcZval (.calcHt depth) _ _
  rw [persistCalc] at hc
  rw [hc] at h2
  have hkey : InStep base total ser (calcStr sp (c.addSize sizeofEntry) orig.key)
      (ImmutableCache.getOrCopyZstr sp (d.persistAlloc sizeofEntry).2 orig.key).2 :=
    (h.alloc_step (h1.size.trans (h2.size.trans hn))).getOrCopyZstr (h2.size.trans hn)
  refine InStep.write ?_ _ _
  cases ser with
  | false => exact TableStep.zval (TableStep.ht depth) hkey hc hn
  | true =>
    refine hkey.serialized hc hn fun _ => ?_
    rw [(Fills.getOrCopyZstr _ _).str]
    exact hstr

/-- The sizing pass only adds. -/
theorem Grows.persistCalc (depth : Nat) (c : Ctxt) (orig : Entry) :
    Grows c (persistCalc sp serializer depth c orig).2 :=
  ((Grows.addSize _ _).trans (.calcStr _ _)).trans (.calcZval (.calcHt depth) _ _)

/-- The form that `immutable_cache_persist` sized the entry in (serialized if `u`), and the context
in which that succeeded. -/
theorem persistSize_calc {php : Serializer υ} {serializer : Option (Serializer υ)}
    {depth k : Nat} {shm : Mem} {orig : Entry}
    (h : persistSize sp php serializer depth shm k orig = (true, c)) :
    ∃ u warnings k' m x, persistCalc sp (serializer.getD php) depth
        { Ctxt.initContext shm warnings k' m x with
          memoizationNeeded := !u && (serializer.isNone && orig.val.isArray)
          useSerialization := u } orig = (true, c) ∧
      (u = false → orig.val.isObject = false ∧ (serializer.isSome && orig.val.isArray) = false) ∧
      (u = true → orig.val.isScalar = false) := by
  unfold persistSize at h
  dsimp only at h
  split at h
  next hc =>
    cases h
    refine ⟨orig.val.isObject || (serializer.isSome && orig.val.isArray), [], k, 0, false, ?_, ?_, ?_⟩
    · rw [← hc]
      congr 2
      cases serializer <;> cases orig.val <;> rfl
    · exact fun hu => Bool.or_eq_false_iff.1 hu
    · intro hu
      cases hv : orig.val <;> first | rfl | (rw [hv] at hu; simp [Zval.isObject, Zval.isArray] at hu)
  next hc =>
    split at h
    · refine ⟨true, _, _, _, _, h, by simp, fun _ => ?_⟩
      cases hs : orig.val.isScalar with
      | false => rfl
      | true => simp [persistCalc, calcZval, hs] at hc
    · cases h

/-- If the sizing of an entry succeeds, the copy keeps step with it to the end. -/
theorem persistFill_inStep {php : Serializer υ} {serializer : Option (Serializer υ)}
    {depth k : Nat} {shm : Mem} {orig : Entry}
    (h : persistSize sp php serializer depth shm k orig = (true, c)) (shm' : Mem) (alloc : Nat) :
    InStep alloc c.size c.useSerialization c (persistFill sp depth c shm' alloc orig).2 := by
  obtain ⟨u, warnings, k', m, x, hc, -⟩ := persistSize_calc h
  generalize hc₀ : { Ctxt.initContext shm warnings k' m x with
    memoizationNeeded := !u && (serializer.isNone && orig.val.isArray)
    useSerialization := u } = c₀ at hc
  have hg : Grows c₀ (persistCalc sp (serializer.getD php) depth c₀ orig).2 :=
    .persistCalc depth c₀ orig
  rw [hc] at hg
  have h0 : InStep alloc c.size c₀.useSerialization c₀
      { c with alloc := alloc, allocCur := alloc, shm := shm'
               useSerialization := c₀.useSerialization } :=
    { alloc := rfl, size := rfl, memo := hg.memo, serCalc := rfl, serCopy := rfl
      keys := by rw [hg.allocated, ← hc₀]; rfl
      cur := by rw [← hc₀]; rfl
      fits := by rw [hg.overrun, ← hc₀]; rfl }
  have hend := h0.persistCopy hc le_rfl rfl
  rw [← hend.serCalc] at hend
  exact hend

/-- If the sizing of an entry succeeds, at the first attempt or with serialization, then the copy
into a block of that size ends exactly at the end of the block, and no bump allocation on the way
goes past it. -/
theorem persistFill_size {php : Serializer υ} {serializer : Option (Serializer υ)}
    {depth k : Nat} {shm : Mem} {orig : Entry}
    (h : persistSize sp php serializer depth shm k orig = (true, c)) (shm' : Mem) (alloc : Nat) :
    (persistFill sp depth c shm' alloc orig).2.allocCur = alloc + c.size ∧
      (persistFill sp depth c shm' alloc orig).2.overrun = false :=
  ⟨(persistFill_inStep h shm' alloc).cur, (persistFill_inStep h shm' alloc).fits⟩

/-- The entry `"a" => ["b"]`. -/
theorem persistFill_size_small : ∃ c,
    persistSize Small.sp Small.php none 1 (fun _ => none) 0
        ⟨104, .array 168 true, none, 0, 0, 0, 0⟩ = (true, c) ∧
      (persistFill Small.sp 1 c (fun _ => none) (2 ^ 32)
        ⟨104, .array 168 true, none, 0, 0, 0, 0⟩).2.allocCur = 2 ^ 32 + c.size := by
  have h : persistSize Small.sp Small.php none 1 (fun _ => none) 0
      ⟨104, .array 168 true, none, 0, 0, 0, 0⟩ = (true, _) :=
    Prod.ext (by decide +kernel) rfl
  exact ⟨_, h, (persistFill_size h (fun _ => none) (2 ^ 32)).1⟩

end ImmutableCache
