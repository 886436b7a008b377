import ImmutableCache.Persist.Context

/-!
# The append position and the internal pointer of a copied table

`immutable_cache_persist_copy_ht` does not keep the `nNextFreeElement` and the `nInternalPointer` of
a table: both loops work them out again from the elements. What they compute depends only on which
slots are holes and on the keys of the others (`HashTable.visitAll`). The position is the one that
inserting the elements again gives, unless the step past `ZEND_LONG_MAX` wraps around
(`copyHt_position`).
-/

namespace ImmutableCache

variable {sp : Space} {c : Ctxt} {depth p : Nat} {t : HashTable} {keys l₁ l₂ : List Int} {n k : Int}

/-! ## The keys of a table -/

/-- `ZEND_LONG_MAX`. -/
def zendLongMax : Int := 2 ^ 63 - 1

/-- `ZEND_LONG_MIN`. -/
def zendLongMin : Int := -2 ^ 63

/-- A used slot of a table: a hole, or an element with an integer or a string key. -/
inductive Slot where
  | hole
  | int (h : Nat)
  | str
  deriving DecidableEq, Repr

/-- The integer key of a slot, as a `zend_long`. -/
def Slot.key : Slot → Option Int
  | .int h => some (toZendLong h)
  | _ => none

/-- The slots of a packed table, from index `idx`. -/
def packedSlots : Nat → List Zval → List Slot
  | _, [] => []
  | idx, v :: vs => (if v = .undef then .hole else .int idx) :: packedSlots (idx + 1) vs

/-- The slot of a bucket. -/
def Bucket.slot (b : Bucket) : Slot :=
  if b.val = .undef then .hole else if b.key.isSome then .str else .int b.h

/-- The used slots of a table. -/
def Space.slots (sp : Space) (shm : Mem) (t : HashTable) : List Slot :=
  if t.packed then packedSlots 0 (sp.arPacked shm t).2 else (sp.arData shm t).2.map Bucket.slot

/-- The integer keys of the elements, in order. -/
def intKeys (ss : List Slot) : List Int := ss.filterMap Slot.key

/-- The index of the first element, or `HT_INVALID_IDX`. -/
def firstUsed (ss : List Slot) : Nat := (ss.findIdx? (· ≠ .hole)).getD htInvalidIdx

/-- One more than the largest key, at least 0 and at most `ZEND_LONG_MAX`. -/
def nextFree (keys : List Int) : Int := min zendLongMax ((keys.map (· + 1)).foldl max 0)

/-- How the engine moves `nNextFreeElement` on when it inserts the key `k`. -/
def reinsert (n k : Int) : Int :=
  if n ≤ k then if k < zendLongMax then k + 1 else zendLongMax else n

/-- The internal pointer is at the first element, and an append goes behind all integer keys. -/
structure HashTable.Positioned (t : HashTable) (ss : List Slot) : Prop where
  internal : t.nInternalPointer = firstUsed ss
  next : t.nNextFreeElement = nextFree (intKeys ss)

/-! ## What the loops compute -/

/-- What one slot does to the header of the copy. -/
def HashTable.visit (t : HashTable) (idx : Nat) : Slot → HashTable
  | .hole => t
  | .int h => (t.setInternalPointer idx).bumpNextFree h
  | .str => t.setInternalPointer idx

/-- What the slots from index `idx` on do to the header of the copy. -/
def HashTable.visitAll (t : HashTable) : Nat → List Slot → HashTable
  | _, [] => t
  | idx, s :: ss => (t.visit idx s).visitAll (idx + 1) ss

/-- The loop over a packed table visits its slots. -/
theorem copyPacked_visitAll {f : Ctxt → Zval → Zval × Ctxt} (c : Ctxt) (t : HashTable) (idx : Nat)
    (vs : List Zval) : (copyPacked f c t idx vs).2.1 = t.visitAll idx (packedSlots idx vs) := by
  induction vs generalizing c t idx with
  | nil => rfl
  | cons v vs ih =>
    rw [copyPacked, packedSlots, HashTable.visitAll]
    split
    next => exact ih c t (idx + 1)
    next => exact ih (f c v).2 ((t.setInternalPointer idx).bumpNextFree idx) (idx + 1)

/-- The loop over the buckets visits their slots. -/
theorem copyBuckets_visitAll {f : Ctxt → Zval → Zval × Ctxt} (c : Ctxt) (t : HashTable) (idx : Nat)
    (bs : List Bucket) :
    (copyBuckets sp f c t idx bs).2.1 = t.visitAll idx (bs.map Bucket.slot) := by
  induction bs generalizing c t idx with
  | nil => rfl
  | cons b bs ih =>
    rw [copyBuckets, List.map_cons, HashTable.visitAll, Bucket.slot]
    split
    next => exact ih c t (idx + 1)
    next =>
      have hkey : (copyKey sp c (t.setInternalPointer idx) b).2.1 =
          t.visit idx (if b.key.isSome then .str else .int b.h) := by
        unfold copyKey
        cases b.key <;> rfl
      rw [← hkey]
      exact ih _ _ (idx + 1)

/-- The header of the copy of a packed table has been through all slots. -/
theorem copyPackedData_header {f : Ctxt → Zval → Zval × Ctxt} (c : Ctxt) (p : Nat) (t : HashTable) :
    ∃ d, (copyPackedData sp f c p t).shm p = some (.ht
      { t.copyHeader.visitAll 0 (packedSlots 0 (sp.arPacked c.shm t).2) with dataAddr := d }) := by
  rw [← copyPacked_visitAll (f := f) (c.persistAlloc (htPackedUsedSize t)).2]
  exact ⟨_, Ctxt.write_shm_self _ _ _⟩

/-- So has the header of the copy of a hashed table. -/
theorem copyBucketData_header {f : Ctxt → Zval → Zval × Ctxt} (c : Ctxt) (p : Nat) (t : HashTable) :
    ∃ d, (copyBucketData sp f c p t).shm p = some (.ht
      { t.copyHeader.visitAll 0 ((sp.arData c.shm t).2.map Bucket.slot) with dataAddr := d }) := by
  rw [← copyBuckets_visitAll (f := f) (c.persistAlloc (htUsedSize t)).2]
  exact ⟨_, Ctxt.write_shm_self _ _ _⟩

/-- The header that a copy ends with. -/
theorem copyHt_header (depth : Nat) (hn : (sp.ht c.shm p).nNumUsed ≠ 0) :
    ∃ d, (copyHt sp (depth + 1) c p).2.shm (copyHt sp (depth + 1) c p).1 =
      some (.ht { (sp.ht c.shm p).copyHeader.visitAll 0 (sp.slots c.shm (sp.ht c.shm p)) with
        dataAddr := d }) := by
  have hshm : (addAlreadyAllocated (c.persistAlloc sizeofHashTable).2 p c.allocCur).shm = c.shm := by
    rw [addAlreadyAllocated_shm, Ctxt.persistAlloc_shm]
  rw [copyHt]
  dsimp only
  rw [if_neg hn, Space.slots, Ctxt.persistAlloc_fst]
  generalize addAlreadyAllocated (c.persistAlloc sizeofHashTable).2 p c.allocCur = c₁ at hshm ⊢
  rw [← hshm]
  cases hp : (sp.ht c₁.shm p).packed with
  | true => exact copyPackedData_header c₁ _ _
  | false => exact copyBucketData_header c₁ _ _

/-! ## The internal pointer -/

/-- The internal pointer is set once. -/
theorem setInternalPointer_internal (t : HashTable) (idx : Nat) :
    (t.setInternalPointer idx).nInternalPointer =
      if t.nInternalPointer = htInvalidIdx then idx else t.nInternalPointer := by
  unfold HashTable.setInternalPointer
  split <;> rfl

/-- A key does not change the internal pointer. -/
theorem bumpNextFree_internal (t : HashTable) (h : Nat) :
    (t.bumpNextFree h).nInternalPointer = t.nInternalPointer := by
  unfold HashTable.bumpNextFree
  split <;> rfl

/-- Once set, the internal pointer stays. -/
theorem visitAll_internal_of_ne {idx : Nat} {ss : List Slot} (ht : t.nInternalPointer ≠ htInvalidIdx) :
    (t.visitAll idx ss).nInternalPointer = t.nInternalPointer := by
  induction ss generalizing t idx with
  | nil => rfl
  | cons s ss ih =>
    have hs : (t.visit idx s).nInternalPointer = t.nInternalPointer := by
      cases s with
      | hole => rfl
      | int h =>
        rw [HashTable.visit, bumpNextFree_internal, setInternalPointer_internal, if_neg ht]
      | str => rw [HashTable.visit, setInternalPointer_internal, if_neg ht]
    rw [HashTable.visitAll, ih (hs ▸ ht), hs]

/-- The internal pointer is set at the first element. -/
theorem visitAll_internal {idx : Nat} {ss : List Slot} (ht : t.nInternalPointer = htInvalidIdx)
    (hlen : idx + ss.length ≤ htInvalidIdx) : (t.visitAll idx ss).nInternalPointer =
      ((ss.findIdx? (· ≠ .hole)).map (idx + ·)).getD htInvalidIdx := by
  induction ss generalizing t idx with
  | nil => exact ht
  | cons s ss ih =>
    rw [List.length_cons] at hlen
    rw [HashTable.visitAll, List.findIdx?_cons]
    by_cases hs : s = .hole
    · subst hs
      rw [HashTable.visit, ih ht (by omega)]
      simp [Option.map_map, Function.comp_def, Nat.add_assoc, Nat.add_comm 1]
    · have hset : (t.visit idx s).nInternalPointer = idx := by
        cases s with
        | hole => exact absurd rfl hs
        | int h =>
          rw [HashTable.visit, bumpNextFree_internal, setInternalPointer_internal, if_pos ht]
        | str => rw [HashTable.visit, setInternalPointer_internal, if_pos ht]
      rw [visitAll_internal_of_ne (by rw [hset]; omega), hset]
      simp [hs]

/-! ## The append position -/

/-- The step of the copy's loops on the key `k`: the sum `h + 1` wraps around. -/
def bump (n k : Int) : Int :=
  if n ≤ k then if k = zendLongMax then zendLongMin else k + 1 else n

/-- No `zend_long` is above `ZEND_LONG_MAX`. -/
theorem toZendLong_le (h : Nat) : toZendLong h ≤ zendLongMax := by
  unfold toZendLong zendLongMax
  split <;> omega

/-- The successor of `ZEND_LONG_MAX` wraps around. -/
theorem toZendLong_succ (h : Nat) : toZendLong (h + 1) =
    if toZendLong h = zendLongMax then zendLongMin else toZendLong h + 1 := by
  unfold toZendLong zendLongMax zendLongMin
  split_ifs <;> omega

/-- What a key does to the append position, as a function of integers. -/
theorem bumpNextFree_next (t : HashTable) (h : Nat) :
    (t.bumpNextFree h).nNextFreeElement = bump t.nNextFreeElement (toZendLong h) := by
  unfold HashTable.bumpNextFree bump
  rw [toZendLong_succ]
  split <;> rfl

/-- The internal pointer does not change the append position. -/
theorem setInternalPointer_next (t : HashTable) (idx : Nat) :
    (t.setInternalPointer idx).nNextFreeElement = t.nNextFreeElement := by
  unfold HashTable.setInternalPointer
  split <;> rfl

/-- The append position goes through the integer keys in order. -/
theorem visitAll_next {idx : Nat} {ss : List Slot} : (t.visitAll idx ss).nNextFreeElement =
    (intKeys ss).foldl bump t.nNextFreeElement := by
  induction ss generalizing t idx with
  | nil => rfl
  | cons s ss ih =>
    rw [HashTable.visitAll, ih]
    cases s with
    | hole => rfl
    | str => rw [HashTable.visit, setInternalPointer_next]; rfl
    | int h => rw [HashTable.visit, bumpNextFree_next, setInternalPointer_next]; rfl

/-- No integer key is above `ZEND_LONG_MAX`. -/
theorem intKeys_le {ss : List Slot} (hk : k ∈ intKeys ss) : k ≤ zendLongMax := by
  obtain ⟨s, -, hs⟩ := List.mem_filterMap.1 hk
  cases s with
  | int h =>
    obtain rfl := Option.some.inj hs
    exact toZendLong_le h
  | hole | str => cases hs

/-! ### Maxima of lists -/

/-- The maximum of a list and `n` is at most `k`. -/
theorem foldl_max_le_iff {l : List Int} : l.foldl max n ≤ k ↔ n ≤ k ∧ ∀ x ∈ l, x ≤ k := by
  induction l generalizing n with
  | nil => simp
  | cons y l ih => rw [List.foldl_cons, ih, max_le_iff, List.forall_mem_cons, and_assoc]

/-- The maximum reaches a bound of the list exactly if the bound is in the list. -/
theorem foldl_max_eq_iff {l : List Int} (hn : n < k) (hl : ∀ x ∈ l, x ≤ k) :
    l.foldl max n = k ↔ k ∈ l := by
  constructor
  · intro h
    by_contra hmem
    have hlt : ∀ x ∈ l, x ≤ k - 1 := by
      intro x hx
      have hne : x ≠ k := fun he => hmem (he ▸ hx)
      have := hl x hx
      omega
    have : l.foldl max n ≤ k - 1 := foldl_max_le_iff.2 ⟨by omega, hlt⟩
    omega
  · intro hmem
    exact le_antisymm (foldl_max_le_iff.2 ⟨hn.le, hl⟩) ((foldl_max_le_iff.1 le_rfl).2 k hmem)

/-- Bounding the start does not change the bounded maximum. -/
theorem min_foldl_max {l : List Int} : min k (l.foldl max (min k n)) = min k (l.foldl max n) := by
  induction l generalizing n with
  | nil =>
    show min k (min k n) = min k n
    omega
  | cons y l ih =>
    have hstart : min k (max (min k n) y) = min k (max n y) := by omega
    rw [List.foldl_cons, List.foldl_cons, ← ih, hstart, ih]

/-! ### The steps of a whole table -/

/-- Below `ZEND_LONG_MAX` a key puts the append position behind it. -/
theorem bump_of_lt (hk : k < zendLongMax) : bump n k = max n (k + 1) := by
  unfold bump
  split
  · rw [if_neg hk.ne]
    omega
  · omega

/-- A key keeps the append position at most `ZEND_LONG_MAX`. -/
theorem bump_le (hn : n ≤ zendLongMax) (hk : k ≤ zendLongMax) : bump n k ≤ zendLongMax := by
  unfold bump
  split_ifs
  · decide
  · omega
  · exact hn

/-- So do several keys. -/
theorem foldl_bump_le (hn : n ≤ zendLongMax) (hkeys : ∀ k ∈ keys, k ≤ zendLongMax) :
    keys.foldl bump n ≤ zendLongMax := by
  induction keys generalizing n with
  | nil => exact hn
  | cons k keys ih =>
    rw [List.forall_mem_cons] at hkeys
    exact ih (bump_le hn hkeys.1) hkeys.2

/-- Below `ZEND_LONG_MAX` nothing wraps. -/
theorem foldl_bump (hkeys : ∀ k ∈ keys, k < zendLongMax) :
    keys.foldl bump n = (keys.map (· + 1)).foldl max n := by
  induction keys generalizing n with
  | nil => rfl
  | cons k keys ih =>
    rw [List.forall_mem_cons] at hkeys
    rw [List.foldl_cons, List.map_cons, List.foldl_cons, bump_of_lt hkeys.1, ih hkeys.2]

/-- Insertion puts the append position behind the key, but not above `ZEND_LONG_MAX`. -/
theorem reinsert_eq (hn : n ≤ zendLongMax) (hk : k ≤ zendLongMax) :
    reinsert n k = min zendLongMax (max n (k + 1)) := by
  unfold reinsert
  split_ifs <;> omega

/-- After several insertions it is behind all keys, but not above `ZEND_LONG_MAX`. -/
theorem foldl_reinsert (hn : n ≤ zendLongMax) (hkeys : ∀ k ∈ keys, k ≤ zendLongMax) :
    keys.foldl reinsert n = min zendLongMax ((keys.map (· + 1)).foldl max n) := by
  induction keys generalizing n with
  | nil => exact (min_eq_right hn).symm
  | cons k keys ih =>
    rw [List.forall_mem_cons] at hkeys
    rw [List.foldl_cons, reinsert_eq hn hkeys.1, ih (min_le_left _ _) hkeys.2, min_foldl_max]
    rfl

/-- The position is the one that inserting the elements again gives. -/
theorem nextFree_eq_reinsert (hkeys : ∀ k ∈ keys, k ≤ zendLongMax) :
    nextFree keys = keys.foldl reinsert 0 := (foldl_reinsert (by decide) hkeys).symm

/-- The position is behind every key, unless `ZEND_LONG_MAX` is a key. -/
theorem lt_nextFree (hk : k ∈ keys) (hle : k ≤ zendLongMax) :
    k < nextFree keys ∨ k = zendLongMax ∧ nextFree keys = zendLongMax := by
  have : k + 1 ≤ (keys.map (· + 1)).foldl max 0 :=
    (foldl_max_le_iff.1 le_rfl).2 _ (List.mem_map_of_mem hk)
  unfold nextFree
  omega

/-- With the key `ZEND_LONG_MAX` the append position is `ZEND_LONG_MAX`. -/
theorem nextFree_of_mem (h : zendLongMax ∈ keys) : nextFree keys = zendLongMax := by
  have := lt_nextFree h le_rfl
  have : nextFree keys ≤ zendLongMax := min_le_left _ _
  omega

/-- After the wrap at the last `ZEND_LONG_MAX` the maximum starts again, below all keys. -/
theorem foldl_bump_wrapped (h₁ : ∀ k ∈ l₁, k ≤ zendLongMax) (h₂ : ∀ k ∈ l₂, k < zendLongMax) :
    (l₁ ++ zendLongMax :: l₂).foldl bump 0 = zendLongMax ↔ zendLongMax - 1 ∈ l₂ := by
  have hstart : bump (l₁.foldl bump 0) zendLongMax = zendLongMin := by
    rw [bump, if_pos (foldl_bump_le (by decide) h₁), if_pos rfl]
  rw [List.foldl_append, List.foldl_cons, hstart, foldl_bump h₂, foldl_max_eq_iff (by decide)]
  · rw [List.mem_map]
    constructor
    · rintro ⟨k, hk, he⟩
      rwa [← he, add_sub_cancel_right]
    · exact fun h => ⟨_, h, sub_add_cancel _ _⟩
  · intro x hx
    obtain ⟨k, hk, rfl⟩ := List.mem_map.1 hx
    have := h₂ k hk
    omega

/-- No integer key is `ZEND_LONG_MAX`, or the key below it comes after the last such key. -/
def Unwrapped (keys : List Int) : Prop :=
  zendLongMax ∉ keys ∨
    ∃ l₁ l₂, keys = l₁ ++ zendLongMax :: l₂ ∧ zendLongMax ∉ l₂ ∧ zendLongMax - 1 ∈ l₂

/-- The loops of the copy compute the append position exactly if no step past `ZEND_LONG_MAX` is left
wrapped around. -/
theorem foldl_bump_eq_nextFree (hkeys : ∀ k ∈ keys, k ≤ zendLongMax) :
    keys.foldl bump 0 = nextFree keys ↔ Unwrapped keys := by
  by_cases hmem : zendLongMax ∈ keys
  · have hsplit : ∀ l₁ l₂, keys = l₁ ++ zendLongMax :: l₂ → zendLongMax ∉ l₂ →
        (keys.foldl bump 0 = nextFree keys ↔ zendLongMax - 1 ∈ l₂) := by
      rintro l₁ l₂ rfl hno
      rw [nextFree_of_mem hmem]
      refine foldl_bump_wrapped (fun k hk => hkeys k (by simp [hk])) fun k hk => ?_
      exact lt_of_le_of_ne (hkeys k (by simp [hk])) fun he => hno (he ▸ hk)
    obtain ⟨l₂, l₁, hrev, hno⟩ := List.eq_append_cons_of_mem (List.mem_reverse.2 hmem)
    have hlast : keys = l₁.reverse ++ zendLongMax :: l₂.reverse := by
      rw [← List.reverse_reverse keys, hrev]
      simp
    rw [hsplit _ _ hlast (by simpa using hno), Unwrapped, or_iff_right (not_not_intro hmem)]
    constructor
    · exact fun h => ⟨_, _, hlast, by simpa using hno, h⟩
    · rintro ⟨m₁, m₂, hk, hno', h⟩
      exact (hsplit _ _ hlast (by simpa using hno)).1 ((hsplit _ _ hk hno').2 h)
  · have hlt : ∀ k ∈ keys, k < zendLongMax := fun k hk =>
      lt_of_le_of_ne (hkeys k hk) fun he => hmem (he ▸ hk)
    refine iff_of_true ?_ (.inl hmem)
    have hle : keys.foldl bump 0 ≤ zendLongMax := foldl_bump_le (by decide) hkeys
    rw [foldl_bump hlt] at hle ⊢
    exact (min_eq_right hle).symm

/-! ## Copied tables -/

/-- There is one slot for each element of the data area. -/
theorem packedSlots_length (idx : Nat) (vs : List Zval) :
    (packedSlots idx vs).length = vs.length := by
  induction vs generalizing idx with
  | nil => rfl
  | cons v vs ih => rw [packedSlots, List.length_cons, List.length_cons, ih]

/-- A table has no more slots than it says. -/
theorem slots_length_le (sp : Space) (shm : Mem) (t : HashTable) :
    (sp.slots shm t).length ≤ t.nNumUsed := by
  unfold Space.slots Space.arPacked Space.arData
  split
  · rw [packedSlots_length]
    split <;> simp
  · rw [List.length_map]
    split <;> simp

/-- For every table with used slots, the copy has the internal pointer at its first element and the
append position that inserting the elements again gives, behind all integer keys but
`ZEND_LONG_MAX`, exactly if no integer key is `ZEND_LONG_MAX`, or the key below it comes after the
last such key. Copies of tables with the same slots, packed or hashed, agree. -/
theorem copyHt_position (hn : (sp.ht c.shm p).nNumUsed ≠ 0)
    (hlt : (sp.ht c.shm p).nNumUsed < 2 ^ 32) :
    let ss := sp.slots c.shm (sp.ht c.shm p)
    ∃ t, (copyHt sp (depth + 1) c p).2.shm (copyHt sp (depth + 1) c p).1 = some (.ht t) ∧
      t.nInternalPointer = firstUsed ss ∧ (t.Positioned ss ↔ Unwrapped (intKeys ss)) ∧
      nextFree (intKeys ss) = (intKeys ss).foldl reinsert 0 ∧
      (∀ k ∈ intKeys ss, k < nextFree (intKeys ss) ∨
        k = zendLongMax ∧ nextFree (intKeys ss) = zendLongMax) ∧
      ∀ (sp' : Space) (c' : Ctxt) (p' depth' : Nat), (sp'.ht c'.shm p').nNumUsed ≠ 0 →
        sp'.slots c'.shm (sp'.ht c'.shm p') = ss →
        ∃ t', (copyHt sp' (depth' + 1) c' p').2.shm (copyHt sp' (depth' + 1) c' p').1 =
          some (.ht t') ∧ t'.nNextFreeElement = t.nNextFreeElement ∧
          t'.nInternalPointer = t.nInternalPointer := by
  intro ss
  have hlen : 0 + ss.length ≤ htInvalidIdx := by
    have : ss.length ≤ (sp.ht c.shm p).nNumUsed := slots_length_le sp c.shm (sp.ht c.shm p)
    unfold htInvalidIdx
    omega
  have hheader : ∀ t : HashTable, (t.copyHeader.visitAll 0 ss).nInternalPointer = firstUsed ss ∧
      (t.copyHeader.visitAll 0 ss).nNextFreeElement = (intKeys ss).foldl bump 0 := by
    intro t
    refine ⟨(visitAll_internal rfl hlen).trans ?_, visitAll_next⟩
    simp [firstUsed]
  have hle : ∀ k ∈ intKeys ss, k ≤ zendLongMax := fun k hk => intKeys_le hk
  obtain ⟨d, hd⟩ := copyHt_header depth hn
  obtain ⟨hint, hnext⟩ := hheader (sp.ht c.shm p)
  refine ⟨_, hd, hint, ?_, nextFree_eq_reinsert hle, fun k hk => lt_nextFree hk (hle k hk), ?_⟩
  · rw [← foldl_bump_eq_nextFree hle]
    constructor
    · exact fun h => hnext.symm.trans h.next
    · exact fun h => ⟨hint, hnext.trans h⟩
  · intro sp' c' p' depth' hn' hss
    obtain ⟨d', hd'⟩ := copyHt_header depth' hn'
    rw [hss] at hd'
    obtain ⟨hint', hnext'⟩ := hheader (sp'.ht c'.shm p')
    exact ⟨_, hd', hnext'.trans hnext.symm, hint'.trans hint.symm⟩

namespace Small

/-- A process with the array `[-5 => 1, PHP_INT_MAX => 2, "a" => 3, PHP_INT_MAX - 1 => 4]`, from
which a first element has been removed. Its internal pointer is at the string key. -/
def mixed : Space :=
  space [emptyArray, (104, .str ⟨false, 0, [97]⟩),
      (168, .ht { gcImmutable := false, packed := false, staticKeys := false, uninitialized := false
                  hashSlots := 16, nNumUsed := 5, nNumOfElements := 4, nInternalPointer := 3
                  nNextFreeElement := zendLongMax, dataAddr := 224 }),
      (224, .buckets (List.replicate 16 htInvalidIdx)
        [⟨0, none, .undef⟩, ⟨2 ^ 64 - 5, none, .long 1⟩, ⟨2 ^ 63 - 1, none, .long 2⟩,
          ⟨zend.hash [97], some 104, .long 3⟩, ⟨2 ^ 63 - 2, none, .long 4⟩])]
    (by decide) (fun x hx t ht => by fin_cases hx <;> cases ht <;> decide) (by decide)

end Small

/-- The copy has its internal pointer behind the hole, and as the key below `PHP_INT_MAX` comes after
it, the append position of the array. -/
theorem copyHt_position_small : ∃ t,
    (copyHt Small.mixed 1 (.initContext (fun _ => none) [] 0 0 false) 168).2.shm 0 = some (.ht t) ∧
      t.nInternalPointer = 1 ∧ t.nNextFreeElement = zendLongMax := by
  have hn : (Small.mixed.ht (fun _ => none) 168).nNumUsed ≠ 0 := by decide
  have hpos : ∃ t, (copyHt Small.mixed (0 + 1)
      (.initContext (fun _ => none) [] 0 0 false) 168).2.shm 0 = some (.ht t) ∧ _ :=
    copyHt_position hn (by decide)
  obtain ⟨t, ht, hint, hpos, -⟩ := hpos
  have hkeys : intKeys (Small.mixed.slots (fun _ => none) (Small.mixed.ht (fun _ => none) 168)) =
      [-5, zendLongMax, zendLongMax - 1] := by decide
  have hunwrapped : Unwrapped [-5, zendLongMax, zendLongMax - 1] :=
    .inr ⟨[-5], [zendLongMax - 1], rfl, by decide, by decide⟩
  rw [← hkeys] at hunwrapped
  exact ⟨t, ht, hint, (hpos.2 hunwrapped).next⟩

namespace Small

/-- A process with the array `[PHP_INT_MAX => 1]`. -/
def top : Space :=
  space [emptyArray,
      (168, .ht { gcImmutable := false, packed := false, staticKeys := true, uninitialized := false
                  hashSlots := 16, nNumUsed := 1, nNumOfElements := 1, nInternalPointer := 0
                  nNextFreeElement := zendLongMax, dataAddr := 224 }),
      (224, .buckets (List.replicate 16 htInvalidIdx) [⟨2 ^ 63 - 1, none, .long 1⟩])]
    (by decide) (fun x hx t ht => by fin_cases hx <;> cases ht <;> decide) (by decide)

end Small

/-- The copy of `[PHP_INT_MAX => 1]` has the append position `ZEND_LONG_MIN`. -/
theorem copyHt_not_position : ¬ ∀ (sp : Space) (c : Ctxt) (p depth : Nat),
    (sp.ht c.shm p).nNumUsed ≠ 0 → (sp.ht c.shm p).nNumUsed < 2 ^ 32 →
    ∃ t, (copyHt sp (depth + 1) c p).2.shm (copyHt sp (depth + 1) c p).1 = some (.ht t) ∧
      t.Positioned (sp.slots c.shm (sp.ht c.shm p)) := by
  intro hall
  have hn : (Small.top.ht (fun _ => none) 168).nNumUsed ≠ 0 := by decide
  obtain ⟨t, ht, hpos⟩ := hall Small.top (.initContext (fun _ => none) [] 0 0 false) 168 0 hn (by decide)
  obtain ⟨d, hd⟩ := copyHt_header (c := .initContext (fun _ => none) [] 0 0 false) 0 hn
  obtain rfl := Obj.ht.inj (Option.some.inj (hd.symm.trans ht))
  have hmin : nextFree (intKeys (Small.top.slots (fun _ => none) (Small.top.ht (fun _ => none) 168)))
      = zendLongMin := hpos.next.symm.trans visitAll_next
  exact absurd hmin (by decide)

end ImmutableCache
