import ImmutableCache.Persist.Sharing

/-!
# Where the nodes of an entry go

The copying pass with memoization moves the nodes of an entry into the block: the memo table maps
each of them to its copy, and never forgets (`Moved.memo`). A table is copied with every key and
every element moved along this map (`HashTable.Moves`), so that two occurrences of a node become one
pointer, and a node that is in the shared segments already stays where it is.
-/

namespace ImmutableCache

/-- The zval `v'` is the zval `v` with its string or array moved along `f`. -/
inductive Zval.Moves (f : Nat → Option Nat) : Zval → Zval → Prop
  | scalar {v : Zval} : v.isScalar = true → Moves f v v
  | string {p q : Nat} {rc rc' : Bool} : f p = some q → Moves f (.string p rc) (.string q rc')
  | array {p q : Nat} {rc : Bool} : f p = some q → Moves f (.array p rc) (.array q false)

/-- The bucket `b'` is the bucket `b` with its key and its element moved along `f`. -/
def Bucket.Moves (f : Nat → Option Nat) (b b' : Bucket) : Prop :=
  b.val = .undef ∧ b' = b ∨
    b.val ≠ .undef ∧ b'.h = b.h ∧ b.key.map f = b'.key.map some ∧ b.val.Moves f b'.val

/-- The table `t'` in the shared memory `shm'` is the table `t` of the process, with its keys and
its elements moved along `f`. -/
structure HashTable.Moves (sp : Space) (f : Nat → Option Nat) (shm : Mem) (t : HashTable)
    (shm' : Mem) (t' : HashTable) : Prop where
  used : t'.nNumUsed = t.nNumUsed
  packed : t.nNumUsed ≠ 0 → t.packed = true → t'.packed = true ∧
    ∃ hash vs, shm' t'.dataAddr = some (.packed hash vs) ∧
      List.Forall₂ (Zval.Moves f) (sp.arPacked shm t).2 vs
  hashed : t.nNumUsed ≠ 0 → t.packed = false → t'.packed = false ∧
    ∃ hash bs, shm' t'.dataAddr = some (.buckets hash bs) ∧
      List.Forall₂ (Bucket.Moves f) (sp.arData shm t).2 bs

variable {sp : Space} {rd shm shm' : Mem} {c d d' d₁ : Ctxt} {n p q lo : Nat} {t t' : HashTable}
  {f g : Nat → Option Nat} {o : Obj}

/-- A zval that has been moved stays so when more is moved. -/
theorem Zval.Moves.mono (hfg : ∀ p q, f p = some q → g p = some q) {v v' : Zval}
    (h : v.Moves f v') : v.Moves g v' := by
  cases h with
  | scalar hs => exact .scalar hs
  | string hp => exact .string (hfg _ _ hp)
  | array hp => exact .array (hfg _ _ hp)

/-- A key that has been moved stays so when more is moved. -/
theorem key_moves_mono (hfg : ∀ p q, f p = some q → g p = some q) {k k' : Option Nat}
    (h : k.map f = k'.map some) : k.map g = k'.map some := by
  cases k with
  | none => exact h
  | some p =>
    cases k' with
    | none => cases h
    | some q => exact congrArg some (hfg p q (Option.some.inj h))

/-- So does a bucket. -/
theorem Bucket.Moves.mono (hfg : ∀ p q, f p = some q → g p = some q) {b b' : Bucket}
    (h : b.Moves f b') : b.Moves g b' := by
  obtain h | ⟨hu, hh, hk, hv⟩ := h
  · exact .inl h
  · exact .inr ⟨hu, hh, key_moves_mono hfg hk, hv.mono hfg⟩

/-- A copy stays one when more is moved and the data area is left alone. -/
theorem HashTable.Moves.mono (hfg : ∀ p q, f p = some q → g p = some q) {shm₁ : Mem}
    (hdata : t.nNumUsed ≠ 0 → shm' t'.dataAddr = shm₁ t'.dataAddr)
    (h : t.Moves sp f shm shm₁ t') : t.Moves sp g shm shm' t' where
  used := h.used
  packed hz hp := by
    obtain ⟨hp', hash, vs, hd, hall⟩ := h.packed hz hp
    exact ⟨hp', hash, vs, (hdata hz).trans hd, hall.imp fun _ _ => .mono hfg⟩
  hashed hz hp := by
    obtain ⟨hp', hash, bs, hd, hall⟩ := h.hashed hz hp
    exact ⟨hp', hash, bs, (hdata hz).trans hd, hall.imp fun _ _ => .mono hfg⟩

/-! ## The memo table -/

/-- The copy at `q` of the table `t`, written at `lo` or behind it. -/
def MovedTable (sp : Space) (shm : Mem) (lo : Nat) (d : Ctxt) (t : HashTable) (q : Nat) : Prop :=
  ∃ t', d.shm q = some (.ht t') ∧
    (t.nNumUsed ≠ 0 → lo ≤ t'.dataAddr ∧ t'.dataAddr < d.allocCur) ∧
    t.Moves sp (getAlreadyAllocated sp d) shm d.shm t'

/-- What the copying pass has moved between `d` and `d'`. -/
structure Moved (sp : Space) (shm : Mem) (d d' : Ctxt) : Prop where
  fills : Fills d d'
  /-- What has been moved before stays where it is. -/
  memo : ∀ p q, getAlreadyAllocated sp d p = some q → getAlreadyAllocated sp d' p = some q
  /-- What has been moved since is in the new part of the block. -/
  region : ∀ p q, getAlreadyAllocated sp d p = none → getAlreadyAllocated sp d' p = some q →
    d.allocCur ≤ q ∧ q < d'.allocCur
  /-- The tables that have been moved since. -/
  tables : ∀ p t q, sp.req p = some (.ht t) → getAlreadyAllocated sp d p = none →
    getAlreadyAllocated sp d' p = some q → MovedTable sp shm d.allocCur d' t q

/-- A pointer into shared memory is never moved. -/
theorem getAlreadyAllocated_shared (hp : sp.shared p = true) : getAlreadyAllocated sp d p = some p :=
  if_pos hp

/-- Only pointers outside of shared memory are not moved yet. -/
theorem shared_of_getAlreadyAllocated (h : getAlreadyAllocated sp d p = none) :
    sp.shared p = false := by
  cases hp : sp.shared p with
  | false => rfl
  | true =>
    rw [getAlreadyAllocated_shared hp] at h
    cases h

/-- The memo table after a new entry. -/
theorem getAlreadyAllocated_add (hm : d.memoizationNeeded = true) (p' : Nat) :
    getAlreadyAllocated sp (addAlreadyAllocated d p q) p' =
      if sp.shared p' = false ∧ pointerToHashKey p' = pointerToHashKey p then some q
      else getAlreadyAllocated sp d p' := by
  unfold getAlreadyAllocated addAlreadyAllocated
  generalize pointerToHashKey p' = k'
  generalize pointerToHashKey p = k
  cases hs : sp.shared p' with
  | true => simp
  | false =>
    by_cases hk : k' = k
    · simp [hm, hk]
    · simp [hm, hk, List.lookup_cons, beq_false_of_ne hk]

/-- The memo table does not tell pointers with one key apart. -/
theorem getAlreadyAllocated_congr {p' : Nat} (hp : sp.shared p = false) (hp' : sp.shared p' = false)
    (hk : pointerToHashKey p' = pointerToHashKey p) :
    getAlreadyAllocated sp d p' = getAlreadyAllocated sp d p := by
  unfold getAlreadyAllocated
  rw [hp, hp', hk]
  rfl

/-- A new entry leaves the old ones alone. -/
theorem getAlreadyAllocated_add_of_some (hm : d.memoizationNeeded = true)
    (hnew : getAlreadyAllocated sp d p = none) {p' q' : Nat}
    (h : getAlreadyAllocated sp d p' = some q') :
    getAlreadyAllocated sp (addAlreadyAllocated d p q) p' = some q' := by
  have hp := shared_of_getAlreadyAllocated hnew
  rw [getAlreadyAllocated_add hm, if_neg, h]
  rintro ⟨hp', hk⟩
  rw [getAlreadyAllocated_congr hp hp' hk, hnew] at h
  cases h

namespace MovedTable

/-- What has been moved stays so while the pass goes on. -/
theorem mono (h : MovedTable sp shm lo d t q) (hm : Moved sp shm d d') (hq : q < d.allocCur) :
    MovedTable sp shm lo d' t q := by
  obtain ⟨t', ht, hdata, hmoves⟩ := h
  have hcur := hm.fills.cur
  refine ⟨t', (hm.fills.shm q (.inl hq)).trans ht, fun hz => ?_, hmoves.mono hm.memo fun hz => ?_⟩
  · have := hdata hz
    omega
  · exact hm.fills.shm _ (.inl (hdata hz).2)

/-- A table that was moved into a part of the block was moved into a larger one. -/
theorem weaken {lo' : Nat} (h : MovedTable sp shm lo d t q) (hle : lo' ≤ lo) :
    MovedTable sp shm lo' d t q := by
  obtain ⟨t', ht, hdata, hmoves⟩ := h
  exact ⟨t', ht, fun hz => ⟨hle.trans (hdata hz).1, (hdata hz).2⟩, hmoves⟩

end MovedTable

namespace Moved

/-- Nothing has been moved. -/
theorem refl (d : Ctxt) : Moved sp shm d d where
  fills := .refl d
  memo _ _ h := h
  region p q h h' := by
    rw [h] at h'
    cases h'
  tables p t q _ h h' := by
    rw [h] at h'
    cases h'

/-- Moving in two steps. -/
theorem trans (h : Moved sp shm d d₁) (h' : Moved sp shm d₁ d') : Moved sp shm d d' where
  fills := h.fills.trans h'.fills
  memo p q hq := h'.memo p q (h.memo p q hq)
  region p q hp hq := by
    have h1 := h.fills.cur
    have h2 := h'.fills.cur
    cases hp₁ : getAlreadyAllocated sp d₁ p with
    | none =>
      have := h'.region p q hp₁ hq
      omega
    | some q₁ =>
      obtain rfl : q₁ = q := Option.some.inj ((h'.memo p q₁ hp₁).symm.trans hq)
      have := h.region p q₁ hp hp₁
      omega
  tables p t q ht hp hq := by
    cases hp₁ : getAlreadyAllocated sp d₁ p with
    | none => exact (h'.tables p t q ht hp₁ hq).weaken h.fills.cur
    | some q₁ =>
      obtain rfl : q₁ = q := Option.some.inj ((h'.memo p q₁ hp₁).symm.trans hq)
      exact (h.tables p t q₁ ht hp hp₁).mono h' (h.region p q₁ hp hp₁).2

/-- Moving a node that was new to `lo`: its memo entry is made, what is behind it is moved from `d₁`
on, and the copy is finished. -/
theorem node (hm : d.memoizationNeeded = true) (hnew : getAlreadyAllocated sp d p = none)
    (hd₁ : ∀ p', getAlreadyAllocated sp d₁ p' =
      getAlreadyAllocated sp (addAlreadyAllocated d p d.allocCur) p')
    (hcur : d.allocCur < d₁.allocCur) {d₂ : Ctxt} (h : Moved sp shm d₁ d₂) (hf : Fills d d')
    (hget : ∀ p, getAlreadyAllocated sp d' p = getAlreadyAllocated sp d₂ p)
    (hcur' : d'.allocCur = d₂.allocCur)
    (hshm : ∀ q, d₁.allocCur ≤ q → d'.shm q = d₂.shm q) (ho : sp.req p = some o)
    (htab : ∀ t, o = .ht t → MovedTable sp shm d.allocCur d' t d.allocCur) :
    Moved sp shm d d' := by
  have hadd : ∀ p', getAlreadyAllocated sp (addAlreadyAllocated d p d.allocCur) p' =
      if sp.shared p' = false ∧ pointerToHashKey p' = pointerToHashKey p then some d.allocCur
      else getAlreadyAllocated sp d p' := getAlreadyAllocated_add hm
  have hle := h.fills.cur
  -- what is new at `d` is the node itself or new at `d₁`
  have hcase : ∀ p' q, getAlreadyAllocated sp d p' = none → getAlreadyAllocated sp d' p' = some q →
      (pointerToHashKey p' = pointerToHashKey p ∧ q = d.allocCur) ∨
        getAlreadyAllocated sp d₁ p' = none := by
    intro p' q hp' hq
    have hadd' := hadd p'
    split at hadd'
    next hk =>
      have hp₂ := h.memo p' d.allocCur ((hd₁ p').trans hadd')
      rw [hget, hp₂] at hq
      exact .inl ⟨hk.2, (Option.some.inj hq).symm⟩
    next => exact .inr ((hd₁ p').trans (hadd'.trans hp'))
  refine { fills := hf, memo := ?_, region := ?_, tables := ?_ }
  · intro p' q hq
    rw [hget]
    exact h.memo p' q ((hd₁ p').trans (getAlreadyAllocated_add_of_some hm hnew hq))
  · intro p' q hp' hq
    rcases hcase p' q hp' hq with ⟨-, rfl⟩ | hp₁
    · omega
    · rw [hget] at hq
      have := h.region p' q hp₁ hq
      omega
  · intro p' t q ht hp' hq
    rcases hcase p' q hp' hq with ⟨hk, rfl⟩ | hp₁
    · obtain rfl : p' = p := pointerToHashKey_inj (sp.req_lt ht) (sp.req_lt ho) hk
      exact htab t (Option.some.inj (ho.symm.trans ht))
    · rw [hget] at hq
      obtain ⟨t', ht', hdata, hmoves⟩ := h.tables p' t q ht hp₁ hq
      have hreg := h.region p' q hp₁ hq
      refine ⟨t', (hshm q hreg.1).trans ht', fun hz => ?_, ?_⟩
      · have := hdata hz
        omega
      · exact hmoves.mono (fun p q hpq => (hget p).trans hpq) fun hz => hshm _ (hdata hz).1

end Moved

/-! ## Strings and values -/

section

variable (hreq : ∀ p, sp.shared p = false → rd p = sp.req p)
include hreq

/-- `get_or_copy_zstr` moves a string. -/
theorem Moved.getOrCopyZstr (hm : d.memoizationNeeded = true) {s : Bytes}
    (hs : readStr sp.zend rd p = some s) :
    Moved sp shm d (getOrCopyZstr sp d p).2 ∧
      getAlreadyAllocated sp (getOrCopyZstr sp d p).2 p = some (getOrCopyZstr sp d p).1 := by
  have hf : Fills d (ImmutableCache.getOrCopyZstr sp d p).2 := .getOrCopyZstr d p
  unfold ImmutableCache.getOrCopyZstr at hf ⊢
  cases hq : getAlreadyAllocated sp d p with
  | some q => exact ⟨.refl d, hq⟩
  | none =>
    rw [hq] at hf
    have hp := shared_of_getAlreadyAllocated hq
    obtain ⟨o, ho, -, -⟩ := readStr_eq_some.1 hs
    dsimp only at hf ⊢
    generalize sp.zstr d.shm p = str at hf ⊢
    rw [addAlreadyAllocated_copyCstr] at hf ⊢
    have hcur : d.allocCur < (copyCstr sp (addAlreadyAllocated d p d.allocCur) str.val
        str.h).2.allocCur := by
      show d.allocCur < (addAlreadyAllocated d p d.allocCur).allocCur + alignedSize _
      rw [addAlreadyAllocated_allocCur]
      exact Nat.lt_add_of_pos_right (alignedSize_pos (by unfold zstrStructSize; omega))
    refine ⟨.node hm hq ?_ hcur (.refl _) hf (fun _ => rfl) rfl (fun _ _ => rfl)
      ((hreq p hp).symm.trans ho) (fun t ht => nomatch ht), ?_⟩
    · exact fun _ => rfl
    exact (getAlreadyAllocated_add hm p).trans (if_pos ⟨hp, rfl⟩)

/-- The key of a bucket is moved. -/
theorem Moved.copyKey (hm : d.memoizationNeeded = true) {b : Bucket} {x : Key}
    (hx : readKey sp.zend rd b.h b.key = some x) (t : HashTable) :
    Moved sp shm d (copyKey sp d t b).2.2 ∧
      b.key.map (getAlreadyAllocated sp (copyKey sp d t b).2.2) = (copyKey sp d t b).1.map some := by
  unfold ImmutableCache.copyKey
  cases hb : b.key with
  | none => exact ⟨.refl d, rfl⟩
  | some key =>
    rw [hb] at hx
    obtain ⟨s, hs, -⟩ := Option.map_eq_some_iff.1 hx
    obtain ⟨h1, h2⟩ : Moved sp shm d _ ∧ _ := Moved.getOrCopyZstr hreq hm hs
    exact ⟨h1, congrArg some h2⟩

end

/-- The function `g` for tables moves a table that is new and can be read at depth `n`. -/
def MovesHt (sp : Space) (rd shm : Mem) (n : Nat) (g : Ctxt → Nat → Nat × Ctxt) : Prop :=
  ∀ ⦃d : Ctxt⦄ ⦃p : Nat⦄ ⦃a : Value⦄, d.memoizationNeeded = true → d.useSerialization = false →
    getAlreadyAllocated sp d p = none → readHt sp.zend rd n p = some a →
    Moved sp shm d (g d p).2 ∧ getAlreadyAllocated sp (g d p).2 p = some (g d p).1

/-- The function `g` for values moves a value that can be read at depth `n`. -/
def MovesVal (sp : Space) (rd shm : Mem) (n : Nat) (g : Ctxt → Zval → Zval × Ctxt) : Prop :=
  ∀ ⦃d : Ctxt⦄ ⦃v : Zval⦄ ⦃a : Value⦄, d.memoizationNeeded = true → d.useSerialization = false →
    readZval sp.zend rd (readHt sp.zend rd n) v = some a →
    Moved sp shm d (g d v).2 ∧ v.Moves (getAlreadyAllocated sp (g d v).2) (g d v).1

/-- `copy_zval` moves a value if the function for the tables below does. -/
theorem MovesHt.zval (hreq : ∀ p, sp.shared p = false → rd p = sp.req p)
    {g : Ctxt → Nat → Nat × Ctxt} (hg : MovesHt sp rd shm n g) :
    MovesVal sp rd shm n (copyZval sp g) := by
  intro d v a hm hser hread
  cases v with
  | null | bool _ | long _ | double _ => exact ⟨.refl d, .scalar rfl⟩
  | string p rc =>
    obtain ⟨s, hs, -⟩ := Option.map_eq_some_iff.1 hread
    obtain ⟨h1, h2⟩ : Moved sp shm d _ ∧ _ := Moved.getOrCopyZstr hreq hm hs
    rw [copyZval_string hser]
    exact ⟨h1, .string h2⟩
  | array p rc =>
    simp only [copyZval, Zval.isScalar, Zval.counted, hser, Bool.false_eq_true, if_false]
    cases hq : getAlreadyAllocated sp d p with
    | some q => exact ⟨.refl d, .array hq⟩
    | none =>
      obtain ⟨h1, h2⟩ := hg hm hser hq hread
      exact ⟨h1, .array h2⟩
  | undef | object _ | resource _ | reference _ | indirect _ | ptr _ => cases hread

/-! ## The loops over a table -/

/-- The loop over a packed table moves each of its elements. -/
theorem MovesVal.packed {g : Ctxt → Zval → Zval × Ctxt} (hfill : ∀ d v, Fills d (g d v).2)
    (hg : MovesVal sp rd shm n g) {idx : Nat} {vs : List Zval} {els : List (Key × Value)}
    (hm : d.memoizationNeeded = true) (hser : d.useSerialization = false)
    (hread : readPacked (readZval sp.zend rd (readHt sp.zend rd n)) idx vs = some els)
    (t : HashTable) :
    Moved sp shm d (copyPacked g d t idx vs).2.2 ∧
      List.Forall₂ (Zval.Moves (getAlreadyAllocated sp (copyPacked g d t idx vs).2.2)) vs
        (copyPacked g d t idx vs).1 := by
  induction vs generalizing d t idx els with
  | nil => exact ⟨.refl d, .nil⟩
  | cons v vs ih =>
    rw [copyPacked]
    obtain ⟨hv, hrest⟩ | ⟨hv, a, rest, ha, hrest, -⟩ := readPacked_cons.1 hread
    · rw [if_pos hv]
      obtain ⟨h1, h2⟩ := ih hm hser hrest t
      exact ⟨h1, .cons (.scalar (hv ▸ rfl)) h2⟩
    · rw [if_neg hv]
      obtain ⟨g1, g2⟩ := hg hm hser ha
      obtain ⟨h1, h2⟩ := ih ((hfill d v).memo.trans hm) ((hfill d v).ser.trans hser) hrest
        ((t.setInternalPointer idx).bumpNextFree idx)
      exact ⟨g1.trans h1, .cons (g2.mono h1.memo) h2⟩

/-- The loop over the buckets of a hash moves each key and each element. -/
theorem MovesVal.buckets {g : Ctxt → Zval → Zval × Ctxt} (hfill : ∀ d v, Fills d (g d v).2)
    (hg : MovesVal sp rd shm n g) (hreq : ∀ p, sp.shared p = false → rd p = sp.req p) (idx : Nat)
    {bs : List Bucket} {els : List (Key × Value)} (hm : d.memoizationNeeded = true)
    (hser : d.useSerialization = false)
    (hread : readBuckets sp.zend rd (readZval sp.zend rd (readHt sp.zend rd n)) bs = some els)
    (t : HashTable) :
    Moved sp shm d (copyBuckets sp g d t idx bs).2.2 ∧
      List.Forall₂ (Bucket.Moves (getAlreadyAllocated sp (copyBuckets sp g d t idx bs).2.2)) bs
        (copyBuckets sp g d t idx bs).1 := by
  induction bs generalizing d t idx els with
  | nil => exact ⟨.refl d, .nil⟩
  | cons b bs ih =>
    rw [copyBuckets]
    obtain ⟨hu, hrest⟩ | ⟨hu, x, a, rest, hx, ha, hrest, -⟩ := readBuckets_cons.1 hread
    · rw [if_pos hu]
      obtain ⟨h1, h2⟩ := ih (idx + 1) hm hser hrest t
      exact ⟨h1, .cons (.inl ⟨hu, rfl⟩) h2⟩
    · rw [if_neg hu]
      dsimp only
      have hkf : Fills d (copyKey sp d (t.setInternalPointer idx) b).2.2 := .copyKey d _ b
      obtain ⟨k1, k2⟩ : Moved sp shm d _ ∧ _ :=
        Moved.copyKey hreq hm hx (t.setInternalPointer idx)
      generalize copyKey sp d (t.setInternalPointer idx) b = kr at hkf k1 k2 ⊢
      have hvf := hkf.trans (hfill kr.2.2 b.val)
      obtain ⟨g1, g2⟩ := hg (hkf.memo.trans hm) (hkf.ser.trans hser) ha
      obtain ⟨h1, h2⟩ := ih (idx + 1) (hvf.memo.trans hm) (hvf.ser.trans hser) hrest kr.2.1
      exact ⟨(k1.trans g1).trans h1,
        .cons (.inr ⟨hu, rfl, key_moves_mono (g1.trans h1).memo k2, g2.mono h1.memo⟩) h2⟩

/-! ## Tables -/

/-- The end of `copy_ht` on a table with elements: what is behind it has been moved, to the context
`d₂`, and the data area `o` and the header `t'` are written where they were allocated. -/
theorem Moved.table (hm : d.memoizationNeeded = true) (hnew : getAlreadyAllocated sp d p = none)
    (ho : sp.req p = some (.ht t)) {m : Nat} (hsz : 0 < m) {d₂ : Ctxt}
    (hd₁ : d₁ = ((addAlreadyAllocated d p d.allocCur).persistAlloc sizeofHashTable).2)
    (h : Moved sp shm (d₁.persistAlloc m).2 d₂) (hdata : t'.dataAddr = d₁.allocCur)
    (hf : Fills d ((d₂.write d₁.allocCur o).write d.allocCur (.ht t')))
    (hmoves : ((d₂.write d₁.allocCur o).write d.allocCur (.ht t')).shm d₁.allocCur = some o →
      t.Moves sp (getAlreadyAllocated sp d₂) shm
        ((d₂.write d₁.allocCur o).write d.allocCur (.ht t')).shm t') :
    Moved sp shm d ((d₂.write d₁.allocCur o).write d.allocCur (.ht t')) ∧
      getAlreadyAllocated sp ((d₂.write d₁.allocCur o).write d.allocCur (.ht t')) p =
        some d.allocCur := by
  have hcur₁ : d₁.allocCur = d.allocCur + alignedSize sizeofHashTable := by
    rw [hd₁, Ctxt.persistAlloc_allocCur, addAlreadyAllocated_allocCur]
  have hcur₂ : d₁.allocCur + alignedSize m ≤ d₂.allocCur := h.fills.cur
  have hpos : 0 < alignedSize sizeofHashTable := by decide
  have hpos' := alignedSize_pos hsz
  have hget : ∀ p', getAlreadyAllocated sp (d₁.persistAlloc m).2 p' =
      getAlreadyAllocated sp (addAlreadyAllocated d p d.allocCur) p' := fun _ => by rw [hd₁]; rfl
  have hself : getAlreadyAllocated sp (addAlreadyAllocated d p d.allocCur) p = some d.allocCur :=
    (getAlreadyAllocated_add hm p).trans (if_pos ⟨shared_of_getAlreadyAllocated hnew, rfl⟩)
  refine ⟨.node hm hnew hget ?_ h hf (fun _ => rfl) rfl (fun q hq => ?_) ho fun t₀ ht₀ => ?_,
    h.memo p _ ((hget p).trans hself)⟩
  · show d.allocCur < d₁.allocCur + alignedSize m
    omega
  · have hq : d₁.allocCur + alignedSize m ≤ q := hq
    rw [Ctxt.write_shm_of_ne (by omega), Ctxt.write_shm_of_ne (by omega)]
  · obtain rfl : t = t₀ := by simpa using ht₀
    refine ⟨t', Ctxt.write_shm_self _ _ _, fun _ => ?_, hmoves ?_⟩
    · show d.allocCur ≤ t'.dataAddr ∧ t'.dataAddr < d₂.allocCur
      omega
    · rw [Ctxt.write_shm_of_ne (by omega), Ctxt.write_shm_self]

/-- `copy_ht` moves a table. -/
theorem MovesHt.ht (hreq : ∀ p, sp.shared p = false → rd p = sp.req p) {depth : Nat}
    (hle : n ≤ depth) : MovesHt sp rd shm n (copyHt sp depth) := by
  induction n generalizing depth with
  | zero =>
    intro d p a _ _ _ hread
    cases hread
  | succ n ih =>
    intro d p a hm hser hnew hread
    obtain ⟨depth, rfl⟩ := Nat.exists_eq_add_of_le' (Nat.zero_lt_of_lt hle)
    have hval : MovesVal sp rd shm n (copyZval sp (copyHt sp depth)) :=
      MovesHt.zval hreq (ih (Nat.le_of_succ_le_succ hle))
    have hfill : ∀ d v, Fills d (copyZval sp (copyHt sp depth) d v).2 :=
      Fills.copyZval (Fills.copyHt depth)
    have hp := shared_of_getAlreadyAllocated hnew
    obtain ⟨t, ht, hcase⟩ := readHt_succ.1 hread
    have ho := (hreq p hp).symm.trans ht
    have htab : ∀ m, sp.ht m p = t := fun m => by rw [Space.ht, Space.deref_req hp, ho]
    have hdeq : ∀ m, sp.deref m t.dataAddr = rd t.dataAddr := fun m => by
      rw [Space.deref_req (sp.data_owned ho), hreq _ (sp.data_owned ho)]
    have hf : Fills d (copyHt sp (depth + 1) d p).2 := .copyHt (depth + 1) d p
    rw [copyHt] at hf ⊢
    dsimp only at hf ⊢
    rw [htab, Ctxt.persistAlloc_fst, addAlreadyAllocated_persistAlloc] at hf ⊢
    generalize hd₁ : ((addAlreadyAllocated d p d.allocCur).persistAlloc sizeofHashTable).2 = d₁
      at hf ⊢
    have hf₁ : Fills d d₁ := hd₁ ▸ (Fills.addAlreadyAllocated d p d.allocCur).trans
      (.persistAlloc _ sizeofHashTable)
    have hm₁ := hf₁.memo.trans hm
    have hser₁ := hf₁.ser.trans hser
    obtain ⟨hz, -, -⟩ | ⟨hz, hpk, hash, vs, els, hd, hlen, -, hels, -⟩ |
      ⟨hz, hpk, hash, bs, els, hd, hlen, -, hels, -⟩ := hcase
    · rw [if_pos hz] at hf ⊢
      have hcur : d.allocCur < d₁.allocCur := by
        rw [← hd₁, Ctxt.persistAlloc_allocCur, addAlreadyAllocated_allocCur]
        exact Nat.lt_add_of_pos_right (by decide)
      refine ⟨.node hm hnew ?_ hcur (.refl d₁) hf (fun _ => rfl) rfl (fun q hq => ?_) ho
        fun t₀ ht₀ => ?_, ?_⟩
      · exact fun _ => by rw [← hd₁]; rfl
      · exact Ctxt.write_shm_of_ne (by omega)
      · obtain rfl : t = t₀ := by simpa using ht₀
        exact ⟨_, Ctxt.write_shm_self _ _ _, fun h => absurd hz h, rfl, fun h => absurd hz h,
          fun h => absurd hz h⟩
      · rw [← hd₁]
        exact (getAlreadyAllocated_add hm p).trans (if_pos ⟨hp, rfl⟩)
    · have hdat : ∀ m, sp.arPacked m t = (hash, vs) := fun m => by
        rw [Space.arPacked, hdeq, hd, ← hlen]
        simp
      rw [if_neg hz, if_pos hpk, copyPackedData, hdat] at hf ⊢
      dsimp only at hf ⊢
      obtain ⟨h1, h2⟩ := hval.packed hfill (d := (d₁.persistAlloc (htPackedUsedSize t)).2) hm₁ hser₁
        hels t.copyHeader
      have hsame := SameTable.copyPacked (g := copyZval sp (copyHt sp depth))
        (d₁.persistAlloc (htPackedUsedSize t)).2 t.copyHeader 0 vs
      generalize copyPacked (copyZval sp (copyHt sp depth))
        (d₁.persistAlloc (htPackedUsedSize t)).2 t.copyHeader 0 vs = r at h1 h2 hsame hf ⊢
      obtain ⟨-, hpk', hused, -⟩ := hsame.fields
      refine Moved.table hm hnew ho (m := htPackedUsedSize t) ?_ hd₁.symm h1 rfl hf fun hdata => ?_
      · unfold htPackedUsedSize
        omega
      · refine ⟨hused, fun _ _ => ⟨hpk'.trans hpk, hash, r.1, hdata, ?_⟩, fun _ hno => ?_⟩
        · rw [hdat]
          exact h2
        · rw [hpk] at hno
          cases hno
    · have hdat : ∀ m, sp.arData m t = (hash, bs) := fun m => by
        rw [Space.arData, hdeq, hd, ← hlen]
        simp
      rw [if_neg hz, if_neg (by simp [hpk]), copyBucketData, hdat] at hf ⊢
      dsimp only at hf ⊢
      obtain ⟨h1, h2⟩ := hval.buckets hfill hreq 0
        (d := (d₁.persistAlloc (htUsedSize t)).2) hm₁ hser₁ hels t.copyHeader
      have hsame : SameTable t.copyHeader (copyBuckets sp (copyZval sp (copyHt sp depth))
          (d₁.persistAlloc (htUsedSize t)).2 t.copyHeader 0 bs).2.1 := .copyBuckets _ _ _ _
      generalize copyBuckets sp (copyZval sp (copyHt sp depth))
        (d₁.persistAlloc (htUsedSize t)).2 t.copyHeader 0 bs = r at h1 h2 hsame hf ⊢
      obtain ⟨-, hpk', hused, -⟩ := hsame.fields
      refine Moved.table hm hnew ho (m := htUsedSize t) ?_ hd₁.symm h1 rfl hf fun hdata => ?_
      · unfold htUsedSize
        omega
      · refine ⟨hused, fun _ hno => ?_, fun _ _ => ⟨hpk'.trans hpk, hash, r.1, hdata, ?_⟩⟩
        · rw [hpk] at hno
          cases hno
        · rw [hdat]
          exact h2

/-! ## The entry -/

/-- The entry `e`, in the block at `p` of the shared memory `shm'`, holds every string and every array
that can be reached from `orig` once: its size is that of the nodes together, there is one pointer
for all occurrences of a node, and what was in the shared segments before is not copied. -/
structure StoredOnce (sp : Space) (shm : Mem) (orig : Entry) (shm' : Mem) (p : Nat) (e : Entry) :
    Prop where
  size : ∃ ps : Finset Nat, (∀ q, q ∈ ps ↔ sp.Reached shm orig q) ∧
    e.memSize = alignedSize sizeofEntry + ∑ q ∈ ps, sp.weight q
  moved : ∃ f : Nat → Option Nat, (∀ q, sp.shared q = true → f q = some q) ∧
    f orig.key = some e.key ∧ orig.val.Moves f e.val ∧
    ∀ q, sp.Reached shm orig q → ∃ q', f q = some q' ∧ p ≤ q' ∧ q' < p + e.memSize ∧
      ∀ t, sp.req q = some (.ht t) → ∃ t', shm' q' = some (.ht t') ∧ t.Moves sp f shm shm' t'

section

variable {υ : Type} {php : Serializer υ} {depth k : Nat} {orig : Entry} {key : Bytes}

/-- In direct form, an array without a serializer is sized with memoization. -/
theorem persistSize_reached (hw : WellEntry sp rd depth orig key)
    (hext : Extends rd (sp.deref shm)) (harr : orig.val.isArray = true)
    (h : persistSize sp php none depth shm k orig = (true, c)) (hu : c.useSerialization = false) :
    c.memoizationNeeded = true ∧ (∀ q, q ∈ sp.counted c ↔ sp.Reached shm orig q) ∧
      ∃ ps : Finset Nat, (∀ q, q ∈ ps ↔ sp.Reached shm orig q) ∧
        c.size = alignedSize sizeofEntry + ∑ q ∈ ps, sp.weight q := by
  obtain ⟨u, warnings, k', m, x, hc, -, hu'⟩ := persistSize_calc h
  cases u with
  | true =>
    have hser := (persistCalc_serialized hw hext rfl rfl (hu' rfl) hc).1
    rw [hu] at hser
    cases hser
  | false =>
    rw [harr] at hc
    have hsizing : Sizing sp rd shm { Ctxt.initContext shm warnings k' m x with
        memoizationNeeded := true, useSerialization := false } := ⟨⟨hext, rfl⟩, rfl, rfl⟩
    exact ⟨(persistCalc_grows hc).memo, persistCalc_reached hw hsizing rfl rfl hc⟩

/-- The copy of an entry whose value is an array in direct form stores every node once. -/
theorem persistFill_storedOnce (hw : WellEntry sp rd depth orig key)
    (hext : Extends rd (sp.deref shm)) (harr : orig.val.isArray = true)
    (h : persistSize sp php none depth shm k orig = (true, c)) (hu : c.useSerialization = false)
    (shm' : Mem) (alloc : Nat) :
    ∃ e, (persistFill sp depth c shm' alloc orig).2.shm alloc = some (.entry e) ∧
      StoredOnce sp shm orig (persistFill sp depth c shm' alloc orig).2.shm alloc e := by
  obtain ⟨hm, hcounted, hsize⟩ := persistSize_reached hw hext harr h hu
  obtain ⟨a, ha⟩ : ∃ a, readZval sp.zend rd (readHt sp.zend rd depth) orig.val = some a := by
    cases (persistSize_stored hw hext h).1 with
    | direct _ ha => exact ⟨_, ha⟩
    | serialized hser _ _ _ =>
      rw [hu] at hser
      cases hser
  have hstep := persistFill_inStep h shm' alloc
  have halloc := persistSize_allocated h
  unfold persistFill persistCopy at hstep ⊢
  dsimp only at hstep ⊢
  generalize hd₀ : { c with alloc := alloc, allocCur := alloc, shm := shm' } = d₀ at hstep ⊢
  have hm₁ : (d₀.persistAlloc sizeofEntry).2.memoizationNeeded = true := by
    rw [← hd₀]
    exact hm
  have hser₁ : (d₀.persistAlloc sizeofEntry).2.useSerialization = false := by
    rw [← hd₀]
    exact hu
  have hsize₁ : (d₀.persistAlloc sizeofEntry).2.size = c.size := by
    rw [← hd₀]
    rfl
  have hcur₁ : (d₀.persistAlloc sizeofEntry).2.allocCur = alloc + alignedSize sizeofEntry := by
    rw [← hd₀]
    rfl
  have hnew₁ : ∀ q, sp.shared q = false →
      getAlreadyAllocated sp (d₀.persistAlloc sizeofEntry).2 q = none := by
    intro q hq
    have hnil : (d₀.persistAlloc sizeofEntry).2.alreadyAllocated = [] := by
      rw [← hd₀]
      exact halloc
    simp [getAlreadyAllocated, hq, hnil]
  have hbase : d₀.allocCur = alloc := by rw [← hd₀]
  rw [Ctxt.persistAlloc_fst, hbase] at hstep ⊢
  generalize (d₀.persistAlloc sizeofEntry).2 = d₁ at hm₁ hser₁ hsize₁ hcur₁ hnew₁ hstep ⊢
  obtain ⟨hk, hkey⟩ : Moved sp shm d₁ _ ∧ _ := Moved.getOrCopyZstr hw.req hm₁ hw.key
  generalize getOrCopyZstr sp d₁ orig.key = kr at hk hkey hstep ⊢
  obtain ⟨hv, hval⟩ : Moved sp shm kr.2 _ ∧ _ := (MovesHt.ht hw.req le_rfl).zval hw.req
    (hk.fills.memo.trans hm₁) (hk.fills.ser.trans hser₁) ha
  generalize copyZval sp (copyHt sp depth) kr.2 orig.val = vr at hv hval hstep ⊢
  have hmoved := hk.trans hv
  have hend : vr.2.allocCur = alloc + c.size := hstep.cur
  have hsize₂ : vr.2.size = c.size := hmoved.fills.size.trans hsize₁
  have hpos : 0 < alignedSize sizeofEntry := by decide
  refine ⟨_, Ctxt.write_shm_self _ _ _, ?_, getAlreadyAllocated sp vr.2,
    fun q => getAlreadyAllocated_shared, hv.memo _ _ hkey, hval, fun q hq => ?_⟩
  · obtain ⟨ps, hps, hsum⟩ := hsize
    exact ⟨ps, hps, hsize₂.trans hsum⟩
  obtain ⟨hqs, -, hqk⟩ := (hcounted q).2 hq
  have hkeys : vr.2.alreadyAllocated.map Prod.fst = c.alreadyCounted := hstep.keys
  obtain ⟨q', hq'⟩ : ∃ q', getAlreadyAllocated sp vr.2 q = some q' := by
    rw [← hkeys] at hqk
    obtain ⟨x, hx, hxk⟩ := List.mem_map.1 hqk
    have hsome : (vr.2.alreadyAllocated.lookup (pointerToHashKey q)).isSome := by
      rw [List.lookup_isSome_iff]
      exact ⟨x, hx, by simp [hxk]⟩
    have hneed : vr.2.memoizationNeeded = true := hmoved.fills.memo.trans hm₁
    simpa [getAlreadyAllocated, hqs, hneed] using Option.isSome_iff_exists.1 hsome
  have hreg := hmoved.region q q' (hnew₁ q hqs) hq'
  refine ⟨q', hq', by omega, ?_, fun t ht => ?_⟩
  · show q' < alloc + vr.2.size
    omega
  obtain ⟨t', ht', hdata, hmoves⟩ := hmoved.tables q t q' ht (hnew₁ q hqs) hq'
  refine ⟨t', ?_, hmoves.mono (fun _ _ => id) fun hz => ?_⟩
  · rw [Ctxt.write_shm_of_ne (by omega), ht']
  · have := hdata hz
    exact Ctxt.write_shm_of_ne (by omega)

/-! ## A value in the shared segments -/

variable {v v' : Zval} {P P' : Nat → Prop}

/-- The key is the first string that is counted. -/
theorem calcStr_size_first (hext : Extends rd (sp.deref c.shm))
    (hreq : ∀ p, sp.shared p = false → rd p = sp.req p) {s : Bytes}
    (hs : readStr sp.zend rd p = some s) (hc : c.alreadyCounted = []) :
    (calcStr sp c p).size = c.size + if sp.shared p then 0 else sp.weight p := by
  unfold calcStr
  split
  · rfl
  next hp =>
    have hp : sp.shared p = false := eq_false_of_ne_true hp
    obtain ⟨o, ho, -, -⟩ := readStr_eq_some.1 hs
    have hw : sp.weight p = alignedSize (zstrStructSize o.val.length) := by
      rw [Space.weight, ← hreq p hp, ho]
      rfl
    have hnew : calcMemoize c p = (false, (calcMemoize c p).2) := by
      unfold calcMemoize
      rw [hc]
      split <;> rfl
    have hstr : sp.zstr (calcMemoize c p).2.shm p = o := by
      rw [Space.zstr, (Grows.calcMemoize c p).shm, hext ho]
    rw [hnew]
    dsimp only
    rw [hstr, hw, Ctxt.addSizeStr, Ctxt.addSize, (calcMemoize_fields c p).1]

/-- Storing what is in the shared segments costs the entry and the key. -/
theorem persistSize_shared (hw : WellEntry sp rd depth orig key) (hext : Extends rd (sp.deref shm))
    (hv : orig.val.nodes = [p]) (hp : sp.shared p = true)
    (h : persistSize sp php none depth shm k orig = (true, c)) :
    c.useSerialization = false ∧ c.size = alignedSize sizeofEntry +
      if sp.shared orig.key then 0 else sp.weight orig.key := by
  obtain ⟨u, hcalc⟩ : ∃ u, c = calcStr sp ({ Ctxt.initContext shm [] k 0 false with
      memoizationNeeded := u, useSerialization := false }.addSize sizeofEntry) orig.key := by
    unfold persistSize persistCalc at h
    cases hval : orig.val with
    | string q rc | array q rc =>
      obtain rfl : q = p := by simpa [hval, Zval.nodes] using hv
      rw [hval] at h
      simp only [calcZval, Zval.isScalar, Zval.isObject, Zval.counted, hp,
        calcStr_useSerialization] at h
      exact ⟨_, (Prod.mk.inj h).2.symm⟩
    | _ =>
      rw [hval] at hv
      cases hv
  subst hcalc
  refine ⟨calcStr_useSerialization _ _, (calcStr_size_first hext hw.req hw.key rfl).trans ?_⟩
  rw [Ctxt.addSize, Ctxt.initContext, Nat.zero_add]

/-- What is in the shared segments is not copied. -/
theorem copyZval_shared {g : Ctxt → Nat → Nat × Ctxt} (hv : v.nodes = [p])
    (hp : sp.shared p = true) (hu : d.useSerialization = false) :
    v.Moves some (copyZval sp g d v).1 := by
  cases v with
  | string q rc =>
    obtain rfl : q = p := by simpa [Zval.nodes] using hv
    simp only [copyZval, Zval.isScalar, Zval.counted, hu, getAlreadyAllocated_shared hp]
    exact .string rfl
  | array q rc =>
    obtain rfl : q = p := by simpa [Zval.nodes] using hv
    simp only [copyZval, Zval.isScalar, Zval.counted, hu, getAlreadyAllocated_shared hp]
    exact .array rfl
  | _ => cases hv

/-- An entry whose value is in the shared segments points there. -/
theorem persistFill_shared (hv : orig.val.nodes = [p]) (hp : sp.shared p = true)
    (hu : c.useSerialization = false) (shm' : Mem) (alloc : Nat) :
    ∃ e, (persistFill sp depth c shm' alloc orig).2.shm alloc = some (.entry e) ∧
      e.memSize = c.size ∧ orig.val.Moves some e.val := by
  unfold persistFill persistCopy
  dsimp only
  generalize hd₀ : { c with alloc := alloc, allocCur := alloc, shm := shm' } = d₀
  have hk : Fills (d₀.persistAlloc sizeofEntry).2
      (getOrCopyZstr sp (d₀.persistAlloc sizeofEntry).2 orig.key).2 := .getOrCopyZstr _ _
  have hu₁ : (d₀.persistAlloc sizeofEntry).2.useSerialization = false := by
    rw [← hd₀]
    exact hu
  have hsize₁ : (d₀.persistAlloc sizeofEntry).2.size = c.size := by rw [← hd₀]; rfl
  have hbase : (d₀.persistAlloc sizeofEntry).1 = alloc := by rw [← hd₀]; rfl
  rw [hbase]
  generalize getOrCopyZstr sp (d₀.persistAlloc sizeofEntry).2 orig.key = kr at hk ⊢
  have hf : Fills kr.2 (copyZval sp (copyHt sp depth) kr.2 orig.val).2 :=
    .copyZval (.copyHt depth) _ _
  exact ⟨_, Ctxt.write_shm_self _ _ _, (hf.size.trans hk.size).trans hsize₁,
    copyZval_shared hv hp (hk.ser.trans hu₁)⟩

/-- A frozen value that has not been moved is the same. -/
theorem Zval.Moves.eq_of_frozen (h : v.Moves some v') (hv : v.Frozen P shm)
    (hv' : v'.Frozen P' shm') : v' = v := by
  cases h with
  | scalar _ => rfl
  | string hp =>
    cases hp
    rw [hv.2.1, hv'.2.1]
  | array hp =>
    cases hp
    rw [hv.2.1]

end

end ImmutableCache
