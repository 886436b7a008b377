import ImmutableCache.Persist.Size
import ImmutableCache.Zend.Value

/-!
# The copy denotes the same value

The copying pass, run in direct form on a value that can be read (`readZval`) in the memory of the
process, leaves in the block a copy that reads as the same value. The objects of the block are
frozen (`Obj.Frozen`): flagged immutable, with their hashes computed, and pointing only to strings
and tables in the shared segments.

The argument has to say what the memo table holds while the pass is under way. An entry made for a
table holds only once the copy of the table is complete. `Copying n d` asks it only of the
pointers that can be read at depth `n`: a table whose copy is under way lies above everything that
its elements can reach, so it cannot be read at the depth of its elements.
-/

namespace ImmutableCache

/-! ## Frozen objects -/

/-- A zval that shared memory may hold inside a value, when the shared pointers are in `P`. -/
def Zval.Frozen (P : Nat → Prop) (shm : Mem) : Zval → Prop
  | .undef | .null | .bool _ | .long _ | .double _ => True
  | .string p rc => P p ∧ rc = false ∧ ∃ s, shm p = some (.str s)
  | .array p rc => P p ∧ rc = false ∧ ∃ t, shm p = some (.ht t)
  | _ => False

/-- A string key that shared memory may hold. -/
def FrozenKey (P : Nat → Prop) (shm : Mem) (p : Nat) : Prop := P p ∧ ∃ s, shm p = some (.str s)

/-- An object that shared memory may hold: immutable, and closed over the shared pointers in `P`. -/
def Obj.Frozen (z : Zend) (P : Nat → Prop) (shm : Mem) : Obj → Prop
  | .str s => s.gcImmutable = true ∧ s.h = z.hash s.val
  | .ht t => t.gcImmutable = true ∧
      (t.nNumUsed = 0 ∧ t.dataAddr = z.uninitializedBucket ∨
        P t.dataAddr ∧ if t.packed then ∃ hash vs, shm t.dataAddr = some (.packed hash vs)
          else ∃ hash bs, shm t.dataAddr = some (.buckets hash bs))
  | .packed _ vs => ∀ v ∈ vs, v.Frozen P shm
  | .buckets _ bs => ∀ b ∈ bs, b.val ≠ .undef →
      (∀ key, b.key = some key → FrozenKey P shm key) ∧ b.val.Frozen P shm
  | .entry e => FrozenKey P shm e.key ∧
      (e.val.Frozen P shm ∨ ∃ p, e.val = .ptr p ∧ FrozenKey P shm p)
  | .other => False

section

variable {z : Zend} {P P' : Nat → Prop} {shm shm' : Mem}

/-- `shm'` has every string and every table that `shm` has at the addresses in `P`. -/
def Retains (P : Nat → Prop) (shm shm' : Mem) : Prop :=
  ∀ ⦃p : Nat⦄ ⦃o : Obj⦄, P p → (∀ e, o ≠ .entry e) → shm p = some o → shm' p = some o

/-- What grows retains everything. -/
theorem Extends.retains (h : Extends shm shm') : Retains P shm shm' := fun _ _ _ _ hp => h hp

/-- What is retained twice is retained. -/
theorem Retains.trans {shm₁ : Mem} (h : Retains P shm shm₁) (h' : Retains P shm₁ shm') :
    Retains P shm shm' := fun _ _ hp hne ho => h' hp hne (h hp hne ho)

/-- A key that is frozen stays frozen. -/
theorem FrozenKey.mono (hP : ∀ p, P p → P' p) (h : Retains P shm shm') {p : Nat}
    (hp : FrozenKey P shm p) : FrozenKey P' shm' p := by
  obtain ⟨hp, s, hs⟩ := hp
  exact ⟨hP p hp, s, h hp (by simp) hs⟩

/-- A value that is frozen stays frozen. -/
theorem Zval.Frozen.mono (hP : ∀ p, P p → P' p) (h : Retains P shm shm') {v : Zval}
    (hv : v.Frozen P shm) : v.Frozen P' shm' := by
  cases v with
  | undef | null | bool _ | long _ | double _ => trivial
  | string p rc =>
    obtain ⟨hp, hrc, s, hs⟩ := hv
    exact ⟨hP p hp, hrc, s, h hp (by simp) hs⟩
  | array p rc =>
    obtain ⟨hp, hrc, t, ht⟩ := hv
    exact ⟨hP p hp, hrc, t, h hp (by simp) ht⟩
  | object _ | resource _ | reference _ | indirect _ | ptr _ => exact hv.elim

/-- A frozen object stays frozen when shared memory grows. -/
theorem Obj.Frozen.mono (hP : ∀ p, P p → P' p) (h : Retains P shm shm') {o : Obj}
    (ho : o.Frozen z P shm) : o.Frozen z P' shm' := by
  cases o with
  | str s => exact ho
  | ht t =>
    refine ⟨ho.1, ho.2.imp_right ?_⟩
    rintro ⟨hp, hd⟩
    refine ⟨hP _ hp, ?_⟩
    split at hd
    next hpk =>
      obtain ⟨hash, vs, hd⟩ := hd
      rw [if_pos hpk]
      exact ⟨hash, vs, h hp (by simp) hd⟩
    next hpk =>
      obtain ⟨hash, bs, hd⟩ := hd
      rw [if_neg hpk]
      exact ⟨hash, bs, h hp (by simp) hd⟩
  | packed _ vs => exact fun v hv => (ho v hv).mono hP h
  | buckets _ bs =>
    exact fun b hb hu => ⟨fun k hk => ((ho b hb hu).1 k hk).mono hP h, (ho b hb hu).2.mono hP h⟩
  | entry e =>
    refine ⟨ho.1.mono hP h, ho.2.imp (·.mono hP h) ?_⟩
    rintro ⟨p, he, hp⟩
    exact ⟨p, he, hp.mono hP h⟩
  | other => exact ho.elim

end

/-! ## The state of the pass -/

/-- The memory `rd` that a value is read from before the copy. It agrees with the memory of the
process outside the shared segments, and its shared objects are in `P`, with frozen strings. -/
structure Source (sp : Space) (P : Nat → Prop) (rd : Mem) : Prop where
  req : ∀ p, sp.shared p = false → rd p = sp.req p
  pub : ∀ p o, sp.shared p = true → rd p = some o → P p
  str : ∀ p s, sp.shared p = true → rd p = some (.str s) →
    s.gcImmutable = true ∧ s.h = sp.zend.hash s.val
  shared : ∀ p, P p → sp.shared p = true

/-- The string at `q` is a frozen string with the bytes `s`. -/
def FrozenStr (z : Zend) (rd : Mem) (q : Nat) (s : Bytes) : Prop :=
  ∃ o : ZendString, rd q = some (.str o) ∧ o.gcImmutable = true ∧ o.h = z.hash o.val ∧ o.val = s

/-- What is at `q` in `rd` is a copy of what is at `p` in `rd₀`. -/
structure IsCopy (z : Zend) (rd₀ rd : Mem) (p q : Nat) : Prop where
  str : ∀ s, readStr z rd₀ p = some s → FrozenStr z rd q s
  ht : ∀ n a, readHt z rd₀ n p = some a → readHt z rd n q = some a

/-- The object at `p` can be read at depth `n`. -/
def Readable (z : Zend) (rd : Mem) (n p : Nat) : Prop :=
  (∃ s, readStr z rd p = some s) ∨ ∃ a, readHt z rd n p = some a

/-- The copying pass at `d`, on the values that can be read from `rd₀` at depth `n`, in a block from
`base` to `lim`. -/
structure Copying (sp : Space) (P : Nat → Prop) (rd₀ : Mem) (base lim n : Nat) (d : Ctxt) :
    Prop where
  start : base ≤ d.allocCur
  ext : Extends rd₀ (sp.deref d.shm)
  /-- The rest of the block is unused. -/
  room : ∀ q, d.allocCur ≤ q → q < lim → d.shm q = none ∧ P q
  /-- The objects written so far are frozen. -/
  frozen : ∀ q o, base ≤ q → q < d.allocCur → d.shm q = some o → o.Frozen sp.zend P d.shm
  /-- The memo table leads to copies. -/
  memo : ∀ p q, sp.shared p = false → Readable sp.zend rd₀ n p →
    getAlreadyAllocated sp d p = some q → P q ∧ IsCopy sp.zend rd₀ (sp.deref d.shm) p q

/-- Between `d` and `d'` the memo table has changed only for pointers readable at depth `n`. -/
def NewOnly (sp : Space) (rd₀ : Mem) (n : Nat) (d d' : Ctxt) : Prop :=
  ∀ p o, sp.shared p = false → rd₀ p = some o →
    getAlreadyAllocated sp d' p = getAlreadyAllocated sp d p ∨ Readable sp.zend rd₀ n p

section

variable {sp : Space} {P : Nat → Prop} {rd₀ rd rd' shm shm' : Mem} {base lim n m : Nat}
  {d d' d₁ : Ctxt} {p q : Nat} {z : Zend}

/-- What a process reads grows with the shared memory. -/
theorem Extends.deref (h : Extends shm shm') : Extends (sp.deref shm) (sp.deref shm') := by
  intro p o hp
  unfold Space.deref at hp ⊢
  split at hp
  next hs => rw [if_pos hs]; exact h hp
  next hs => rw [if_neg hs]; exact hp

/-- A string that is frozen stays frozen. -/
theorem FrozenStr.mono (h : Extends rd rd') {s : Bytes} (hs : FrozenStr z rd q s) :
    FrozenStr z rd' q s := by
  obtain ⟨o, ho, hi, hh, hv⟩ := hs
  exact ⟨o, h ho, hi, hh, hv⟩

/-- A string that is frozen can be read. -/
theorem FrozenStr.read {s : Bytes} (hs : FrozenStr z rd q s) : readStr z rd q = some s := by
  obtain ⟨o, ho, -, hh, hv⟩ := hs
  exact readStr_eq_some.2 ⟨o, ho, .inr hh, hv⟩

/-- A copy stays a copy. -/
theorem IsCopy.mono (h : Extends rd rd') (hc : IsCopy z rd₀ rd p q) : IsCopy z rd₀ rd' p q where
  str s hs := (hc.str s hs).mono h
  ht n a ha := h.readHt le_rfl q a (hc.ht n a ha)

/-- What is readable with less depth is readable with more. -/
theorem Readable.mono (hnm : n ≤ m) (h : Readable z rd n p) : Readable z rd m p :=
  h.imp_right fun ⟨a, ha⟩ => ⟨a, (Extends.refl rd).readHt hnm p a ha⟩

/-- Only a table reads as an array. -/
theorem readHt_table {a : Value} (h : readHt z rd n p = some a) : ∃ t, rd p = some (.ht t) := by
  cases n with
  | zero => cases h
  | succ n =>
    obtain ⟨t, ht, -⟩ := readHt_succ.1 h
    exact ⟨t, ht⟩

/-! ## The memo table -/

/-- Rotating a 64-bit pointer loses nothing. -/
theorem pointerToHashKey_inj (hp : p < 2 ^ 64) (hq : q < 2 ^ 64)
    (h : pointerToHashKey p = pointerToHashKey q) : p = q := by
  unfold pointerToHashKey shr3 at h
  omega

/-- A new memo entry is found under its own pointer. -/
theorem getAlreadyAllocated_add_self (hp : sp.shared p = false) {q' : Nat}
    (h : getAlreadyAllocated sp (addAlreadyAllocated d p q) p = some q') : q' = q := by
  unfold getAlreadyAllocated addAlreadyAllocated at h
  cases hm : d.memoizationNeeded with
  | true => simpa [hp, hm, eq_comm] using h
  | false => simp [hp, hm] at h

/-- A new memo entry changes nothing for the other pointers. -/
theorem getAlreadyAllocated_add_of_ne {p' : Nat} (hp : p < 2 ^ 64) (hp' : p' < 2 ^ 64)
    (hne : p' ≠ p) :
    getAlreadyAllocated sp (addAlreadyAllocated d p q) p' = getAlreadyAllocated sp d p' := by
  have hkey : pointerToHashKey p' ≠ pointerToHashKey p :=
    fun h => hne (pointerToHashKey_inj hp' hp h)
  unfold getAlreadyAllocated addAlreadyAllocated
  generalize pointerToHashKey p' = k' at hkey ⊢
  generalize pointerToHashKey p = k at hkey ⊢
  cases hm : d.memoizationNeeded with
  | true => simp [List.lookup_cons, beq_false_of_ne hkey]
  | false => simp [hm]

/-- An object of the process lies below `SIZE_MAX`. -/
theorem Source.lt (hs : Source sp P rd₀) {o : Obj} (hp : sp.shared p = false)
    (ho : rd₀ p = some o) : p < 2 ^ 64 := sp.req_lt ((hs.req p hp).symm.trans ho)

/-- There is an object at a readable pointer. -/
theorem Readable.object (h : Readable z rd n p) : ∃ o, rd p = some o := by
  rcases h with ⟨s, h⟩ | ⟨a, h⟩
  · obtain ⟨o, ho, -⟩ := readStr_eq_some.1 h
    exact ⟨_, ho⟩
  · obtain ⟨t, ht⟩ := readHt_table h
    exact ⟨_, ht⟩

/-- A table is readable only as an array. -/
theorem Readable.of_table {t : HashTable} (h : Readable z rd n p) (ht : rd p = some (.ht t)) :
    ∃ a, readHt z rd n p = some a := by
  rcases h with ⟨s, h⟩ | h
  · obtain ⟨o, ho, -⟩ := readStr_eq_some.1 h
    rw [ht] at ho
    cases ho
  · exact h

/-- So does one that is readable. -/
theorem Source.lt_of_readable (hs : Source sp P rd₀) (hp : sp.shared p = false)
    (hr : Readable z rd₀ n p) : p < 2 ^ 64 := by
  obtain ⟨o, ho⟩ := hr.object
  exact hs.lt hp ho

namespace NewOnly

/-- Nothing is new. -/
theorem refl (d : Ctxt) : NewOnly sp rd₀ n d d := fun _ _ _ _ => .inl rfl

/-- What is new in two steps is new in one of them. -/
theorem trans (h : NewOnly sp rd₀ n d d₁) (h' : NewOnly sp rd₀ n d₁ d') :
    NewOnly sp rd₀ n d d' := by
  intro p o hp ho
  rcases h' p o hp ho with h' | h'
  · rw [h']
    exact h p o hp ho
  · exact .inr h'

/-- More depth. -/
theorem mono (hnm : n ≤ m) (h : NewOnly sp rd₀ n d d') : NewOnly sp rd₀ m d d' :=
  fun p o hp ho => (h p o hp ho).imp_right (·.mono hnm)

/-- A memo entry for a readable pointer. -/
theorem add (hs : Source sp P rd₀) (hp : sp.shared p = false) {o : Obj} (ho : rd₀ p = some o)
    (hr : Readable sp.zend rd₀ n p) : NewOnly sp rd₀ n d (addAlreadyAllocated d p q) := by
  intro p' o' hp' ho'
  by_cases hne : p' = p
  · exact .inr (hne ▸ hr)
  · exact .inl (getAlreadyAllocated_add_of_ne (hs.lt hp ho) (hs.lt hp' ho') hne)

end NewOnly

namespace Copying

/-- What the pass allocates inside the block is new memory. -/
theorem extends_fills (h : Copying sp P rd₀ base lim n d) (hf : Fills d d')
    (hl : d'.allocCur ≤ lim) : Extends d.shm d'.shm := by
  intro q o hq
  by_cases hin : d.allocCur ≤ q ∧ q < d'.allocCur
  · have := (h.room q hin.1 (by omega)).1
    rw [hq] at this
    cases this
  · rw [hf.shm q (by omega)]
    exact hq

/-- A step of the pass keeps its state when what it writes is frozen and its memo entries lead to
copies. -/
theorem fill (h : Copying sp P rd₀ base lim n d) (hf : Fills d d') (hl : d'.allocCur ≤ lim)
    (hfrozen : ∀ q o, d.allocCur ≤ q → q < d'.allocCur → d'.shm q = some o →
      o.Frozen sp.zend P d'.shm)
    (hmemo : ∀ p q, sp.shared p = false → Readable sp.zend rd₀ m p →
      getAlreadyAllocated sp d' p = some q →
      getAlreadyAllocated sp d p = some q ∧ Readable sp.zend rd₀ n p ∨
        P q ∧ IsCopy sp.zend rd₀ (sp.deref d'.shm) p q) :
    Copying sp P rd₀ base lim m d' := by
  have hext := h.extends_fills hf hl
  refine { start := h.start.trans hf.cur, ext := h.ext.trans hext.deref, room := ?_, frozen := ?_
           memo := ?_ }
  · intro q h1 h2
    have := hf.cur
    rw [hf.shm q (.inr h1)]
    exact h.room q (by omega) h2
  · intro q o h1 h2 ho
    by_cases hlt : q < d.allocCur
    · rw [hf.shm q (.inl hlt)] at ho
      exact (h.frozen q o h1 hlt ho).mono (fun _ => id) hext.retains
    · exact hfrozen q o (by omega) h2 ho
  · intro p q hp hr hq
    rcases hmemo p q hp hr hq with ⟨hq, hr⟩ | hq
    · obtain ⟨h1, h2⟩ := h.memo p q hp hr hq
      exact ⟨h1, h2.mono hext.deref⟩
    · exact hq

/-- The state of the pass at a larger depth is the state at a smaller one. -/
theorem anti (h : Copying sp P rd₀ base lim m d) (hnm : n ≤ m) :
    Copying sp P rd₀ base lim n d :=
  { start := h.start, ext := h.ext, room := h.room, frozen := h.frozen
    memo := fun p q hp hr => h.memo p q hp (hr.mono hnm) }

/-! ## Strings -/

/-- A string that is in the shared segments or in the memo table has its copy already. -/
theorem str_known (hs : Source sp P rd₀) (h : Copying sp P rd₀ base lim n d) {s : Bytes}
    (hread : readStr sp.zend rd₀ p = some s) (hq : getAlreadyAllocated sp d p = some q) :
    P q ∧ FrozenStr sp.zend (sp.deref d.shm) q s := by
  obtain ⟨o, ho, -, rfl⟩ := readStr_eq_some.1 hread
  cases hp : sp.shared p with
  | true =>
    obtain rfl : p = q := by simpa [getAlreadyAllocated, hp] using hq
    obtain ⟨hi, hh⟩ := hs.str p o hp ho
    exact ⟨hs.pub p _ hp ho, o, h.ext ho, hi, hh, rfl⟩
  | false =>
    obtain ⟨hP, hc⟩ := h.memo p q hp (.inl ⟨_, hread⟩) hq
    exact ⟨hP, hc.str _ hread⟩

/-- `copy_cstr` writes a frozen string. -/
theorem copyCstr_frozen {o : ZendString} (hh : o.h = 0 ∨ o.h = sp.zend.hash o.val)
    (hq : sp.shared d.allocCur = true) :
    FrozenStr sp.zend (sp.deref (copyCstr sp d o.val o.h).2.shm) d.allocCur o.val := by
  refine ⟨_, (Space.deref_shared hq _).trans (Ctxt.write_shm_self _ _ _), rfl, ?_, rfl⟩
  dsimp only [Zend.zstrHash]
  split
  next hz => exact hh.resolve_left hz
  · rfl

/-- `copy_cstr` keeps the state of the pass. -/
theorem copyCstr (hs : Source sp P rd₀) (h : Copying sp P rd₀ base lim n d) {o : ZendString}
    (hh : o.h = 0 ∨ o.h = sp.zend.hash o.val)
    (hl : (copyCstr sp d o.val o.h).2.allocCur ≤ lim) :
    Copying sp P rd₀ base lim n (copyCstr sp d o.val o.h).2 ∧ P d.allocCur ∧
      FrozenStr sp.zend (sp.deref (copyCstr sp d o.val o.h).2.shm) d.allocCur o.val := by
  have hlt : d.allocCur < lim := by
    have : d.allocCur + alignedSize (zstrStructSize o.val.length) ≤ lim := hl
    have := alignedSize_pos (n := zstrStructSize o.val.length) (by unfold zstrStructSize; omega)
    omega
  have hP := (h.room _ le_rfl hlt).2
  have hstr := copyCstr_frozen (d := d) hh (hs.shared _ hP)
  refine ⟨h.fill (.copyCstr d _ _) hl (fun q o' h1 h2 ho' => ?_) fun p q _ hr hq => .inl ⟨hq, hr⟩,
    hP, hstr⟩
  by_cases hne : q = d.allocCur
  · obtain ⟨o'', ho'', hi, hh', -⟩ := hstr
    rw [Space.deref_shared (hs.shared _ hP)] at ho''
    rw [hne, ho''] at ho'
    cases ho'
    exact ⟨hi, hh'⟩
  · have hnone := (h.room q h1 (Nat.lt_of_lt_of_le h2 hl)).1
    rw [show (ImmutableCache.copyCstr sp d o.val o.h).2.shm q = d.shm q from
      Ctxt.write_shm_of_ne hne, hnone] at ho'
    cases ho'

/-- A memo entry that leads to a copy. -/
theorem add (hs : Source sp P rd₀) (h : Copying sp P rd₀ base lim n d) {o : Obj}
    (hp : sp.shared p = false) (ho : rd₀ p = some o) (hP : P q)
    (hcopy : IsCopy sp.zend rd₀ (sp.deref d.shm) p q) :
    Copying sp P rd₀ base lim n (addAlreadyAllocated d p q) := by
  refine { start := ?_, ext := ?_, room := ?_, frozen := ?_, memo := ?_ }
  · simpa using h.start
  · simpa using h.ext
  · simpa using h.room
  · simpa using h.frozen
  · intro p' q' hp' hr hq'
    rw [addAlreadyAllocated_shm]
    by_cases hne : p' = p
    · subst hne
      rw [getAlreadyAllocated_add_self hp' hq']
      exact ⟨hP, hcopy⟩
    · rw [getAlreadyAllocated_add_of_ne (hs.lt hp ho) (hs.lt_of_readable hp' hr) hne] at hq'
      exact h.memo p' q' hp' hr hq'

/-- `get_or_copy_zstr` gives a frozen string with the same bytes. -/
theorem getOrCopyZstr (hs : Source sp P rd₀) (h : Copying sp P rd₀ base lim n d) {s : Bytes}
    (hread : readStr sp.zend rd₀ p = some s) (hl : (getOrCopyZstr sp d p).2.allocCur ≤ lim) :
    Copying sp P rd₀ base lim n (getOrCopyZstr sp d p).2 ∧
      NewOnly sp rd₀ n d (getOrCopyZstr sp d p).2 ∧ P (getOrCopyZstr sp d p).1 ∧
      FrozenStr sp.zend (sp.deref (getOrCopyZstr sp d p).2.shm) (getOrCopyZstr sp d p).1 s := by
  unfold ImmutableCache.getOrCopyZstr at hl ⊢
  cases hq : getAlreadyAllocated sp d p with
  | some q => exact ⟨h, .refl d, h.str_known hs hread hq⟩
  | none =>
    have hp : sp.shared p = false := by
      cases hp : sp.shared p with
      | false => rfl
      | true => simp [getAlreadyAllocated, hp] at hq
    obtain ⟨o, ho, hh, rfl⟩ := readStr_eq_some.1 hread
    have horig : sp.zstr d.shm p = o := by rw [Space.zstr, h.ext ho]
    rw [hq, horig] at hl
    rw [horig]
    dsimp only at hl ⊢
    rw [addAlreadyAllocated_allocCur] at hl
    obtain ⟨h', hP, hstr⟩ := h.copyCstr hs hh hl
    have hcopy : IsCopy sp.zend rd₀ (sp.deref (ImmutableCache.copyCstr sp d o.val o.h).2.shm) p
        d.allocCur := by
      refine ⟨fun s' hs' => ?_, fun m a ha => ?_⟩
      · obtain rfl := Option.some.inj (hread.symm.trans hs')
        exact hstr
      · obtain ⟨t, ht⟩ := readHt_table ha
        rw [ho] at ht
        cases ht
    refine ⟨h'.add hs hp ho hP hcopy, ?_, hP, ?_⟩
    · exact NewOnly.add (d := (ImmutableCache.copyCstr sp d o.val o.h).2) hs hp ho
        (.inl ⟨_, hread⟩)
    · rw [addAlreadyAllocated_shm]
      exact hstr

end Copying

/-! ## Values -/

/-- The functions for tables copy what can be read at depth `n`. -/
def TableCopy (sp : Space) (P : Nat → Prop) (rd₀ : Mem) (base lim n : Nat)
    (g : Ctxt → Nat → Nat × Ctxt) : Prop :=
  ∀ ⦃d : Ctxt⦄ ⦃p : Nat⦄ ⦃a : Value⦄, Copying sp P rd₀ base lim n d →
    d.useSerialization = false → sp.shared p = false → getAlreadyAllocated sp d p = none →
    readHt sp.zend rd₀ n p = some a → (g d p).2.allocCur ≤ lim →
    Copying sp P rd₀ base lim n (g d p).2 ∧ NewOnly sp rd₀ n d (g d p).2 ∧ P (g d p).1 ∧
      readHt sp.zend (sp.deref (g d p).2.shm) n (g d p).1 = some a

/-- The functions for values copy what can be read at depth `n`. -/
def ValueCopy (sp : Space) (P : Nat → Prop) (rd₀ : Mem) (base lim n : Nat)
    (g : Ctxt → Zval → Zval × Ctxt) : Prop :=
  ∀ ⦃d : Ctxt⦄ ⦃v : Zval⦄ ⦃a : Value⦄, Copying sp P rd₀ base lim n d →
    d.useSerialization = false → readZval sp.zend rd₀ (readHt sp.zend rd₀ n) v = some a →
    (g d v).2.allocCur ≤ lim →
    Copying sp P rd₀ base lim n (g d v).2 ∧ NewOnly sp rd₀ n d (g d v).2 ∧
      (g d v).1.Frozen P (g d v).2.shm ∧
      readZval sp.zend (sp.deref (g d v).2.shm)
        (readHt sp.zend (sp.deref (g d v).2.shm) n) (g d v).1 = some a

/-- A string at a frozen pointer as a frozen zval. -/
theorem FrozenStr.zval (hs : Source sp P rd₀) {s : Bytes} (hP : P q)
    (h : FrozenStr sp.zend (sp.deref d.shm) q s) :
    zvalStr sp d q = .string q false ∧ (Zval.string q false).Frozen P d.shm := by
  obtain ⟨o, ho, hi, -⟩ := h
  have hstr : sp.zstr d.shm q = o := by rw [Space.zstr, ho]
  refine ⟨by rw [zvalStr, hstr, hi]; rfl, hP, rfl, o, ?_⟩
  rwa [Space.deref_shared (hs.shared q hP)] at ho

/-- `copy_zval` copies a value if the function for the tables below does. -/
theorem TableCopy.zval (hs : Source sp P rd₀) {g : Ctxt → Nat → Nat × Ctxt}
    (hg : TableCopy sp P rd₀ base lim n g) :
    ValueCopy sp P rd₀ base lim n (copyZval sp g) := by
  intro d v a h hser hread hl
  cases v with
  | null | bool _ | long _ | double _ => exact ⟨h, .refl d, trivial, hread⟩
  | string p rc =>
    obtain ⟨s, hstr, rfl⟩ := Option.map_eq_some_iff.1 hread
    rw [copyZval_string hser] at hl ⊢
    obtain ⟨h1, h2, h3, h4⟩ := h.getOrCopyZstr hs hstr hl
    obtain ⟨hz, hfr⟩ := h4.zval hs h3
    dsimp only
    rw [hz]
    exact ⟨h1, h2, hfr, Option.map_eq_some_iff.2 ⟨s, h4.read, rfl⟩⟩
  | array p rc =>
    have hread : readHt sp.zend rd₀ n p = some a := hread
    simp only [copyZval, Zval.isScalar, Zval.counted, hser, Bool.false_eq_true, if_false] at hl ⊢
    have hfr : ∀ {d : Ctxt} {q : Nat}, P q → readHt sp.zend (sp.deref d.shm) n q = some a →
        (Zval.array q false).Frozen P d.shm := by
      intro d q hP hq
      obtain ⟨t, ht⟩ := readHt_table hq
      rw [Space.deref_shared (hs.shared q hP)] at ht
      exact ⟨hP, rfl, t, ht⟩
    cases hq : getAlreadyAllocated sp d p with
    | some q =>
      have hPq : P q ∧ readHt sp.zend (sp.deref d.shm) n q = some a := by
        cases hp : sp.shared p with
        | true =>
          obtain rfl : p = q := by simpa [getAlreadyAllocated, hp] using hq
          obtain ⟨t, ht⟩ := readHt_table hread
          exact ⟨hs.pub p _ hp ht, h.ext.readHt le_rfl p a hread⟩
        | false =>
          obtain ⟨hP, hc⟩ := h.memo p q hp (.inr ⟨a, hread⟩) hq
          exact ⟨hP, hc.ht n a hread⟩
      exact ⟨h, .refl d, hfr hPq.1 hPq.2, hPq.2⟩
    | none =>
      have hp : sp.shared p = false := by
        cases hp : sp.shared p with
        | false => rfl
        | true => simp [getAlreadyAllocated, hp] at hq
      rw [hq] at hl
      obtain ⟨h1, h2, h3, h4⟩ := hg h hser hp hq hread hl
      exact ⟨h1, h2, hfr h3 h4, h4⟩
  | undef | object _ | resource _ | reference _ | indirect _ | ptr _ => cases hread

/-! ## The loops over a table -/

/-- The loops of `copy_ht` change only the internal pointer and the next free element. -/
def SameTable (t t' : HashTable) : Prop :=
  ∃ i k, t' = { t with nInternalPointer := i, nNextFreeElement := k }

namespace SameTable

variable {t t' t'' : HashTable}

/-- A table is the same as itself. -/
theorem refl (t : HashTable) : SameTable t t := ⟨_, _, rfl⟩

/-- Two changes that leave the elements alone, one after the other. -/
theorem trans (h : SameTable t t') (h' : SameTable t' t'') : SameTable t t'' := by
  obtain ⟨i, k, rfl⟩ := h
  obtain ⟨i', k', rfl⟩ := h'
  exact ⟨i', k', rfl⟩

/-- The fields of the header that say what the table holds. -/
theorem fields (h : SameTable t.copyHeader t') : t'.gcImmutable = true ∧ t'.packed = t.packed ∧
    t'.nNumUsed = t.nNumUsed ∧ t'.nNumOfElements = t.nNumOfElements := by
  obtain ⟨i, k, rfl⟩ := h
  exact ⟨rfl, rfl, rfl, rfl⟩

/-- Setting the internal pointer leaves the elements alone. -/
theorem setInternalPointer (t : HashTable) (idx : Nat) :
    SameTable t (t.setInternalPointer idx) := by
  unfold HashTable.setInternalPointer
  split
  · exact ⟨_, _, rfl⟩
  · exact .refl t

/-- Moving the append position leaves the elements alone. -/
theorem bumpNextFree (t : HashTable) (h : Nat) : SameTable t (t.bumpNextFree h) := by
  unfold HashTable.bumpNextFree
  split
  · exact ⟨_, _, rfl⟩
  · exact .refl t

/-- The loop over a packed table changes only the positions in the header. -/
theorem copyPacked {g : Ctxt → Zval → Zval × Ctxt} (d : Ctxt) (t : HashTable) (idx : Nat)
    (vs : List Zval) : SameTable t (copyPacked g d t idx vs).2.1 := by
  induction vs generalizing d t idx with
  | nil => exact .refl t
  | cons v vs ih =>
    rw [ImmutableCache.copyPacked]
    split
    · exact ih d t (idx + 1)
    · exact ((setInternalPointer t idx).trans (bumpNextFree _ idx)).trans (ih _ _ _)

/-- Copying a key changes only the positions in the header. -/
theorem copyKey (d : Ctxt) (t : HashTable) (b : Bucket) : SameTable t (copyKey sp d t b).2.1 := by
  unfold ImmutableCache.copyKey
  split
  · exact .refl t
  · exact bumpNextFree t _

/-- So does the loop over the buckets. -/
theorem copyBuckets {g : Ctxt → Zval → Zval × Ctxt} (d : Ctxt) (t : HashTable) (idx : Nat)
    (bs : List Bucket) : SameTable t (copyBuckets sp g d t idx bs).2.1 := by
  induction bs generalizing d t idx with
  | nil => exact .refl t
  | cons b bs ih =>
    rw [ImmutableCache.copyBuckets]
    split
    · exact ih d t (idx + 1)
    · exact ((setInternalPointer t idx).trans (copyKey _ _ b)).trans (ih _ _ _)

end SameTable

/-- The loop over a packed table, from index `idx`, has copied the elements `els` from `vs`: in
place, frozen, and with the same holes. -/
structure CopiedPacked (sp : Space) (P : Nat → Prop) (rd₀ : Mem) (base lim n : Nat) (d : Ctxt)
    (idx : Nat) (vs : List Zval) (els : List (Key × Value)) (r : List Zval × HashTable × Ctxt) :
    Prop where
  copying : Copying sp P rd₀ base lim n r.2.2
  new : NewOnly sp rd₀ n d r.2.2
  frozen : ∀ v ∈ r.1, v.Frozen P r.2.2.shm
  reads : readPacked (readZval sp.zend (sp.deref r.2.2.shm)
    (readHt sp.zend (sp.deref r.2.2.shm) n)) idx r.1 = some els
  length : r.1.length = vs.length
  holes : r.1.countP (· ≠ .undef) = vs.countP (· ≠ .undef)

/-- The loop over a hashed table has copied the elements `els` from `bs`: in place, frozen, and with
the same holes. -/
structure CopiedBuckets (sp : Space) (P : Nat → Prop) (rd₀ : Mem) (base lim n : Nat) (d : Ctxt)
    (bs : List Bucket) (els : List (Key × Value)) (r : List Bucket × HashTable × Ctxt) :
    Prop where
  copying : Copying sp P rd₀ base lim n r.2.2
  new : NewOnly sp rd₀ n d r.2.2
  frozen : ∀ b ∈ r.1, b.val ≠ .undef →
    (∀ key, b.key = some key → FrozenKey P r.2.2.shm key) ∧ b.val.Frozen P r.2.2.shm
  reads : readBuckets sp.zend (sp.deref r.2.2.shm) (readZval sp.zend (sp.deref r.2.2.shm)
    (readHt sp.zend (sp.deref r.2.2.shm) n)) r.1 = some els
  length : r.1.length = bs.length
  holes : r.1.countP (·.val ≠ .undef) = bs.countP (·.val ≠ .undef)

/-- The key of a bucket is copied to a frozen string, or stays an integer. -/
theorem Copying.copyKey (hs : Source sp P rd₀) (h : Copying sp P rd₀ base lim n d)
    {t : HashTable} {b : Bucket} {k : Key} (hk : readKey sp.zend rd₀ b.h b.key = some k)
    (hl : (copyKey sp d t b).2.2.allocCur ≤ lim) :
    Copying sp P rd₀ base lim n (copyKey sp d t b).2.2 ∧
      NewOnly sp rd₀ n d (copyKey sp d t b).2.2 ∧
      (∀ key, (copyKey sp d t b).1 = some key → FrozenKey P (copyKey sp d t b).2.2.shm key) ∧
      readKey sp.zend (sp.deref (copyKey sp d t b).2.2.shm) b.h (copyKey sp d t b).1 = some k := by
  unfold ImmutableCache.copyKey at hl ⊢
  cases hkey : b.key with
  | none =>
    rw [hkey] at hk
    exact ⟨h, .refl d, by simp, hk⟩
  | some p =>
    rw [hkey] at hk hl
    obtain ⟨s, hstr, rfl⟩ := Option.map_eq_some_iff.1 hk
    obtain ⟨h1, h2, h3, h4⟩ := h.getOrCopyZstr hs hstr hl
    refine ⟨h1, h2, ?_, Option.map_eq_some_iff.2 ⟨s, h4.read, rfl⟩⟩
    rintro _ ⟨rfl⟩
    obtain ⟨-, hP, -, hfr⟩ := h4.zval hs h3
    exact ⟨h3, hfr⟩

section

variable {g : Ctxt → Zval → Zval × Ctxt} (hfill : ∀ d v, Fills d (g d v).2)
  (hg : ValueCopy sp P rd₀ base lim n g)
include hfill hg

/-- The loop over a packed table copies its elements. -/
theorem ValueCopy.packed {t : HashTable} {idx : Nat} {vs : List Zval} {els : List (Key × Value)}
    (h : Copying sp P rd₀ base lim n d) (hser : d.useSerialization = false)
    (hread : readPacked (readZval sp.zend rd₀ (readHt sp.zend rd₀ n)) idx vs = some els)
    (hl : (copyPacked g d t idx vs).2.2.allocCur ≤ lim) :
    CopiedPacked sp P rd₀ base lim n d idx vs els (copyPacked g d t idx vs) := by
  induction vs generalizing d t idx els with
  | nil => exact ⟨h, .refl d, by simp [copyPacked], hread, rfl, rfl⟩
  | cons v vs ih =>
    rw [copyPacked] at hl ⊢
    obtain ⟨hv, hrest⟩ | ⟨hv, a, rest, ha, hrest, rfl⟩ := readPacked_cons.1 hread
    · rw [if_pos hv] at hl ⊢
      have ih := ih h hser hrest hl
      refine ⟨ih.copying, ih.new, ?_, readPacked_cons.2 (.inl ⟨hv, ih.reads⟩), by simp [ih.length],
        by simpa [hv] using ih.holes⟩
      rintro w (_ | ⟨_, hw⟩)
      · rw [hv]
        trivial
      · exact ih.frozen w hw
    · rw [if_neg hv] at hl ⊢
      have hf := Fills.copyPacked hfill (g d v).2 ((t.setInternalPointer idx).bumpNextFree idx)
        (idx + 1) vs
      obtain ⟨g1, g2, g3, g4⟩ := hg h hser ha (hf.cur.trans hl)
      have ih := ih g1 ((hfill d v).ser.trans hser) hrest hl
      have hext := g1.extends_fills hf hl
      have hv' : (g d v).1 ≠ .undef := by
        intro he
        rw [he] at g4
        cases g4
      refine ⟨ih.copying, g2.trans ih.new, ?_,
        readPacked_cons.2 (.inr ⟨hv', a, rest, ?_, ih.reads, rfl⟩), by simp [ih.length],
        by simpa [hv, hv'] using ih.holes⟩
      · rintro w (_ | ⟨_, hw⟩)
        · exact g3.mono (fun _ => id) hext.retains
        · exact ih.frozen w hw
      · exact hext.deref.readZval (fun p a => hext.deref.readHt le_rfl p a) _ a g4

/-- The loop over a hashed table copies its keys and elements. -/
theorem ValueCopy.buckets (hs : Source sp P rd₀) (idx : Nat) {t : HashTable} {bs : List Bucket}
    {els : List (Key × Value)} (h : Copying sp P rd₀ base lim n d)
    (hser : d.useSerialization = false)
    (hread : readBuckets sp.zend rd₀ (readZval sp.zend rd₀ (readHt sp.zend rd₀ n)) bs = some els)
    (hl : (copyBuckets sp g d t idx bs).2.2.allocCur ≤ lim) :
    CopiedBuckets sp P rd₀ base lim n d bs els (copyBuckets sp g d t idx bs) := by
  induction bs generalizing d t idx els with
  | nil => exact ⟨h, .refl d, by simp [copyBuckets], hread, rfl, rfl⟩
  | cons b bs ih =>
    rw [copyBuckets] at hl ⊢
    obtain ⟨hv, hrest⟩ | ⟨hv, k, a, rest, hk, ha, hrest, rfl⟩ := readBuckets_cons.1 hread
    · rw [if_pos hv] at hl ⊢
      have ih := ih (idx + 1) h hser hrest hl
      refine ⟨ih.copying, ih.new, ?_, readBuckets_cons.2 (.inl ⟨hv, ih.reads⟩),
        by simp [ih.length], by simpa [hv] using ih.holes⟩
      rintro w (_ | ⟨_, hw⟩) hu
      · exact absurd hv hu
      · exact ih.frozen w hw hu
    · rw [if_neg hv] at hl ⊢
      dsimp only at hl ⊢
      generalize hkr : copyKey sp d (t.setInternalPointer idx) b = kr at hl ⊢
      have hfk : Fills d (copyKey sp d (t.setInternalPointer idx) b).2.2 := .copyKey d _ b
      have hkey := h.copyKey (t := t.setInternalPointer idx) hs hk
      rw [hkr] at hfk hkey
      have hfv := hfill kr.2.2 b.val
      have hf : Fills (g kr.2.2 b.val).2
          (copyBuckets sp g (g kr.2.2 b.val).2 kr.2.1 (idx + 1) bs).2.2 := .copyBuckets hfill _ _ _ _
      obtain ⟨k1, k2, k3, k4⟩ := hkey ((hfv.cur.trans hf.cur).trans hl)
      obtain ⟨g1, g2, g3, g4⟩ := hg k1 (hfk.ser.trans hser) ha (hf.cur.trans hl)
      have ih := ih (idx + 1) g1 ((hfv.ser.trans hfk.ser).trans hser) hrest hl
      have hext := g1.extends_fills hf hl
      have hextk := k1.extends_fills (hfv.trans hf) hl
      have hv' : (g kr.2.2 b.val).1 ≠ .undef := by
        intro he
        rw [he] at g4
        cases g4
      refine ⟨ih.copying, (k2.trans g2).trans ih.new, ?_,
        readBuckets_cons.2 (.inr ⟨hv', k, a, rest, hextk.deref.readKey k4, ?_, ih.reads, rfl⟩),
        by simp [ih.length], by simpa [hv, hv'] using ih.holes⟩
      · rintro w (_ | ⟨_, hw⟩) hu
        · exact ⟨fun key hkey => (k3 key hkey).mono (fun _ => id) hextk.retains,
            g3.mono (fun _ => id) hext.retains⟩
        · exact ih.frozen w hw hu
      · exact hext.deref.readZval (fun p a => hext.deref.readHt le_rfl p a) _ a g4

end

/-! ## Tables -/

namespace Copying

/-- A step that kept its state at depth `n` kept it at depth `n + 1`, if its memo entries are all
readable at depth `n`. -/
theorem lift (h : Copying sp P rd₀ base lim (n + 1) d) (h' : Copying sp P rd₀ base lim n d')
    (hnew : NewOnly sp rd₀ n d d') (hf : Fills d d') (hl : d'.allocCur ≤ lim) :
    Copying sp P rd₀ base lim (n + 1) d' := by
  refine { start := h'.start, ext := h'.ext, room := h'.room, frozen := h'.frozen, memo := ?_ }
  intro p q hp hr hq
  obtain ⟨o, ho⟩ := hr.object
  rcases hnew p o hp ho with he | hr'
  · rw [he] at hq
    obtain ⟨h1, h2⟩ := h.memo p q hp hr hq
    exact ⟨h1, h2.mono (h.extends_fills hf hl).deref⟩
  · exact h'.memo p q hp hr' hq

/-- The header of a table is allocated and entered into the memo table before its elements are
copied. The table cannot be read at their depth, so the state at that depth holds. -/
theorem enter (hs : Source sp P rd₀) (h : Copying sp P rd₀ base lim (n + 1) d) {t : HashTable}
    (hp : sp.shared p = false) (ht : rd₀ p = some (.ht t))
    (hn : ∀ a, readHt sp.zend rd₀ n p ≠ some a)
    (hl : (d.persistAlloc sizeofHashTable).2.allocCur ≤ lim) :
    Copying sp P rd₀ base lim n
      (addAlreadyAllocated (d.persistAlloc sizeofHashTable).2 p d.allocCur) := by
  have hf := (Fills.persistAlloc d sizeofHashTable).trans (.addAlreadyAllocated _ p d.allocCur)
  refine h.fill hf (by rwa [addAlreadyAllocated_allocCur]) ?_ ?_
  · intro q o h1 h2 ho
    rw [addAlreadyAllocated_allocCur] at h2
    rw [addAlreadyAllocated_shm, Ctxt.persistAlloc_shm,
      (h.room q h1 (Nat.lt_of_lt_of_le h2 hl)).1] at ho
    cases ho
  · intro p' q hp' hr hq
    have hne : p' ≠ p := by
      rintro rfl
      obtain ⟨a, ha⟩ := hr.of_table ht
      exact hn a ha
    rw [getAlreadyAllocated_add_of_ne (hs.lt hp ht) (hs.lt_of_readable hp' hr) hne] at hq
    exact .inl ⟨hq, hr.mono (Nat.le_succ n)⟩

/-- Once the copy of a table is written, the state holds at the depth of the table. -/
theorem leave (hs : Source sp P rd₀) (h : Copying sp P rd₀ base lim (n + 1) d) {t : HashTable}
    {a : Value} (hp : sp.shared p = false) (ht : rd₀ p = some (.ht t))
    (hn : ∀ a, readHt sp.zend rd₀ n p ≠ some a)
    (hread : readHt sp.zend rd₀ (n + 1) p = some a) (h₁ : Copying sp P rd₀ base lim n d₁)
    (hnew : NewOnly sp rd₀ n (addAlreadyAllocated (d.persistAlloc sizeofHashTable).2 p d.allocCur)
      d₁)
    (hf : Fills d d') (hl : d'.allocCur ≤ lim) (hcur : d'.allocCur = d₁.allocCur)
    (hext : Extends d₁.shm d'.shm)
    (hget : ∀ p, getAlreadyAllocated sp d' p = getAlreadyAllocated sp d₁ p)
    (hfrozen : ∀ q o, d'.shm q = some o → d₁.shm q = some o ∨ o.Frozen sp.zend P d'.shm)
    (hP : P d.allocCur)
    (hcopy : readHt sp.zend (sp.deref d'.shm) (n + 1) d.allocCur = some a) :
    Copying sp P rd₀ base lim (n + 1) d' ∧ NewOnly sp rd₀ (n + 1) d d' := by
  have hlt := hs.lt hp ht
  -- what the memo table holds at the end, for a pointer other than the table
  have hother : ∀ p' o', sp.shared p' = false → rd₀ p' = some o' → p' ≠ p →
      getAlreadyAllocated sp d' p' = getAlreadyAllocated sp d p' ∨
        Readable sp.zend rd₀ n p' := by
    intro p' o' hp' ho' hne
    refine (hnew p' o' hp' ho').imp_left fun he => ?_
    rw [hget, he]
    exact getAlreadyAllocated_add_of_ne hlt (hs.lt hp' ho') hne
  have hself : ∀ q, getAlreadyAllocated sp d' p = some q → q = d.allocCur := by
    intro q hq
    rcases hnew p _ hp ht with he | hr
    · rw [hget, he] at hq
      exact getAlreadyAllocated_add_self hp hq
    · obtain ⟨a, ha⟩ := hr.of_table ht
      exact absurd ha (hn a)
  have hIs : IsCopy sp.zend rd₀ (sp.deref d'.shm) p d.allocCur := by
    refine ⟨fun s hr => ?_, fun m a' ha' => ?_⟩
    · obtain ⟨o, ho, -⟩ := readStr_eq_some.1 hr
      rw [ht] at ho
      cases ho
    · -- the table is readable from depth `n + 1` on only
      have hm : n + 1 ≤ m := by
        by_contra hlt
        exact hn a' ((Extends.refl rd₀).readHt (by omega) p a' ha')
      obtain rfl := readHt_unique hread ha'
      exact (Extends.refl _).readHt hm _ a hcopy
  refine ⟨h.fill hf hl ?_ ?_, ?_⟩
  · intro q o h1 h2 ho
    rcases hfrozen q o ho with ho | ho
    · exact (h₁.frozen q o (h.start.trans h1) (by omega) ho).mono (fun _ => id) hext.retains
    · exact ho
  · intro p' q hp' hr hq
    by_cases hne : p' = p
    · subst hne
      rw [hself q hq]
      exact .inr ⟨hP, hIs⟩
    · obtain ⟨o', ho'⟩ := hr.object
      rcases hother p' o' hp' ho' hne with he | hr'
      · rw [he] at hq
        exact .inl ⟨hq, hr⟩
      · rw [hget] at hq
        obtain ⟨h1, h2⟩ := h₁.memo p' q hp' hr' hq
        exact .inr ⟨h1, h2.mono hext.deref⟩
  · intro p' o' hp' ho'
    by_cases hne : p' = p
    · exact .inr (hne ▸ .inr ⟨a, hread⟩)
    · exact (hother p' o' hp' ho' hne).imp_right (·.mono (Nat.le_succ n))

end Copying

/-- Writing where there was nothing keeps everything else. -/
theorem extends_write {o : Obj} (h : d.shm p = none) : Extends d.shm (d.write p o).shm := by
  intro q o' hq
  have hne : q ≠ p := by
    rintro rfl
    rw [h] at hq
    cases hq
  rw [Ctxt.write_shm_of_ne hne, hq]

/-- An object of a memory with one more object is the new one or was there before. -/
theorem of_write_shm {o o' : Obj} (h : (d.write p o).shm q = some o') :
    q = p ∧ o' = o ∨ d.shm q = some o' := by
  by_cases hq : q = p
  · subst hq
    rw [Ctxt.write_shm_self] at h
    exact .inl ⟨rfl, (Option.some.inj h).symm⟩
  · exact .inr (by rwa [Ctxt.write_shm_of_ne hq] at h)

namespace Copying

/-- An allocation inside the block. -/
theorem persistAlloc (h : Copying sp P rd₀ base lim n d) {sz : Nat}
    (hl : (d.persistAlloc sz).2.allocCur ≤ lim) :
    Copying sp P rd₀ base lim n (d.persistAlloc sz).2 := by
  refine h.fill (.persistAlloc d sz) hl (fun q o h1 h2 ho => ?_) fun p q _ hr hq => .inl ⟨hq, hr⟩
  rw [Ctxt.persistAlloc_shm, (h.room q h1 (Nat.lt_of_lt_of_le h2 hl)).1] at ho
  cases ho

/-- The end of `copy_ht` on the table at `p`: the elements have been copied, from the context `d₁`
to `d₂`, and the data area `o` and the header `t'` are written where they were allocated. -/
theorem table (hs : Source sp P rd₀) (h : Copying sp P rd₀ base lim (n + 1) d) {t t' : HashTable}
    {a : Value} {o : Obj} (hp : sp.shared p = false) (ht : rd₀ p = some (.ht t))
    (hn : ∀ a, readHt sp.zend rd₀ n p ≠ some a)
    (hread : readHt sp.zend rd₀ (n + 1) p = some a) {d₂ : Ctxt} {m : Nat}
    (hd₁ : d₁ = addAlreadyAllocated (d.persistAlloc sizeofHashTable).2 p d.allocCur)
    (hsz : 0 < m) (hf : Fills (d₁.persistAlloc m).2 d₂) (hl : d₂.allocCur ≤ lim)
    (h₂ : Copying sp P rd₀ base lim n d₂) (hnew : NewOnly sp rd₀ n d₁ d₂)
    (ho : o.Frozen sp.zend P d₂.shm) (himm : t'.gcImmutable = true)
    (hdata : t'.dataAddr = d₁.allocCur)
    (hkind : if t'.packed then ∃ hash vs, o = .packed hash vs else ∃ hash bs, o = .buckets hash bs)
    (hcopy : ∀ rd, Extends (sp.deref d₂.shm) rd → rd d₁.allocCur = some o →
      rd d.allocCur = some (.ht t') → readHt sp.zend rd (n + 1) d.allocCur = some a) :
    Copying sp P rd₀ base lim (n + 1) ((d₂.write d₁.allocCur o).write d.allocCur (.ht t')) ∧
      NewOnly sp rd₀ (n + 1) d ((d₂.write d₁.allocCur o).write d.allocCur (.ht t')) ∧
      P d.allocCur ∧
      readHt sp.zend (sp.deref ((d₂.write d₁.allocCur o).write d.allocCur (.ht t')).shm) (n + 1)
        d.allocCur = some a := by
  have hcur₁ : d₁.allocCur = d.allocCur + alignedSize sizeofHashTable := by
    rw [hd₁, addAlreadyAllocated_allocCur, Ctxt.persistAlloc_allocCur]
  have hshm₁ : d₁.shm = d.shm := by rw [hd₁, addAlreadyAllocated_shm, Ctxt.persistAlloc_shm]
  have hpos : 0 < alignedSize sizeofHashTable := by decide
  have hpos' := alignedSize_pos hsz
  have hcur : d₁.allocCur + alignedSize m ≤ d₂.allocCur := hf.cur
  -- nothing has been written at the two places yet
  have hnone : ∀ q, d.allocCur ≤ q → q < d₁.allocCur + alignedSize m → d₂.shm q = none := by
    intro q h1 h2
    rw [hf.shm q (.inl h2), Ctxt.persistAlloc_shm, hshm₁]
    exact (h.room q h1 (by omega)).1
  have hPd : P d.allocCur := (h.room _ le_rfl (by omega)).2
  have hPd₁ : P d₁.allocCur := (h.room _ (by omega) (by omega)).2
  have hne : d.allocCur ≠ d₁.allocCur := by omega
  have hext₁ : Extends d₂.shm (d₂.write d₁.allocCur o).shm :=
    extends_write (hnone _ (by omega) (by omega))
  have hext₂ : Extends (d₂.write d₁.allocCur o).shm
      ((d₂.write d₁.allocCur o).write d.allocCur (.ht t')).shm := by
    refine extends_write ?_
    rw [Ctxt.write_shm_of_ne hne]
    exact hnone _ le_rfl (by omega)
  have hext := hext₁.trans hext₂
  have hdat : ((d₂.write d₁.allocCur o).write d.allocCur (.ht t')).shm d₁.allocCur = some o :=
    hext₂ (Ctxt.write_shm_self _ _ _)
  have hfr : (Obj.ht t').Frozen sp.zend P
      ((d₂.write d₁.allocCur o).write d.allocCur (.ht t')).shm := by
    refine ⟨himm, .inr ⟨hdata ▸ hPd₁, ?_⟩⟩
    rw [hdata, hdat]
    split at hkind
    next hpk =>
      obtain ⟨hash, vs, rfl⟩ := hkind
      rw [if_pos hpk]
      exact ⟨hash, vs, rfl⟩
    next hpk =>
      obtain ⟨hash, bs, rfl⟩ := hkind
      rw [if_neg hpk]
      exact ⟨hash, bs, rfl⟩
  have hreads := hcopy _ hext.deref ((Space.deref_shared (hs.shared _ hPd₁) _).trans hdat)
    ((Space.deref_shared (hs.shared _ hPd) _).trans (Ctxt.write_shm_self _ _ _))
  have hfd : Fills d ((d₂.write d₁.allocCur o).write d.allocCur (.ht t')) := by
    have h1 : Fills d d₁ := hd₁ ▸ (Fills.persistAlloc d sizeofHashTable).trans
      (.addAlreadyAllocated _ p d.allocCur)
    exact (((h1.trans (.persistAlloc d₁ m)).trans hf).write h1.cur (by omega)).write le_rfl
      (by rw [Ctxt.write_allocCur]; omega)
  obtain ⟨h1, h2⟩ := h.leave hs hp ht hn hread h₂ (hd₁ ▸ hnew) hfd hl rfl hext (fun _ => rfl)
    (fun q o' hq => by
      rcases of_write_shm hq with ⟨-, rfl⟩ | hq
      · exact .inr hfr
      rcases of_write_shm hq with ⟨-, rfl⟩ | hq
      · exact .inr (ho.mono (fun _ => id) hext.retains)
      · exact .inl hq) hPd hreads
  exact ⟨h1, h2, hPd, hreads⟩

end Copying

/-- `copy_ht` copies a table that can be read at depth `n`. -/
theorem TableCopy.ht (hs : Source sp P rd₀) {depth : Nat} (hle : n ≤ depth) :
    TableCopy sp P rd₀ base lim n (copyHt sp depth) := by
  induction n generalizing depth with
  | zero =>
    intro d p a _ _ _ _ hread _
    cases hread
  | succ n ih =>
    intro d p a h hser hp hq hread hl
    have hf : Fills d (ImmutableCache.copyHt sp depth d p).2 := .copyHt depth d p
    by_cases hn : ∃ a', readHt sp.zend rd₀ n p = some a'
    · -- the table is no deeper than `n`
      obtain ⟨a', ha'⟩ := hn
      obtain rfl := readHt_unique ha' hread
      obtain ⟨h1, h2, h3, h4⟩ := ih (Nat.le_of_succ_le hle) (h.anti (Nat.le_succ n)) hser hp hq ha' hl
      exact ⟨h.lift h1 h2 hf hl, h2.mono (Nat.le_succ n), h3,
        (Extends.refl _).readHt (Nat.le_succ n) _ _ h4⟩
    obtain ⟨depth, rfl⟩ := Nat.exists_eq_add_of_le' (Nat.zero_lt_of_lt hle)
    have hval : ValueCopy sp P rd₀ base lim n (copyZval sp (copyHt sp depth)) :=
      TableCopy.zval hs (ih (Nat.le_of_succ_le_succ hle))
    have hfill : ∀ d v, Fills d (copyZval sp (copyHt sp depth) d v).2 :=
      Fills.copyZval (Fills.copyHt depth)
    have hn' : ∀ a, readHt sp.zend rd₀ n p ≠ some a := fun a ha => hn ⟨a, ha⟩
    obtain ⟨t, ht, hcase⟩ := readHt_succ.1 hread
    have horig : sp.ht d.shm p = t := by rw [Space.ht, h.ext ht]
    rw [copyHt] at hf hl ⊢
    dsimp only at hf hl ⊢
    rw [horig, Ctxt.persistAlloc_fst] at hf hl ⊢
    generalize hd₁ : addAlreadyAllocated (d.persistAlloc sizeofHashTable).2 p d.allocCur = d₁
      at hf hl ⊢
    have hser₁ : d₁.useSerialization = false := by
      rw [← hd₁, (Fills.addAlreadyAllocated _ _ _).ser]
      exact hser
    have henter : d₁.allocCur ≤ lim → Copying sp P rd₀ base lim n d₁ := by
      intro hl₁
      rw [← hd₁] at hl₁ ⊢
      exact h.enter hs hp ht hn' (by rwa [addAlreadyAllocated_allocCur] at hl₁)
    obtain ⟨hz, hne, rfl⟩ | ⟨hz, hpk, hash, vs, els, hd, hlen, hcount, hels, rfl⟩ |
      ⟨hz, hpk, hash, bs, els, hd, hlen, hcount, hels, rfl⟩ := hcase
    · rw [if_pos hz] at hf hl ⊢
      have h₁ := henter hl
      have hlt : d.allocCur < d₁.allocCur := by
        rw [← hd₁, addAlreadyAllocated_allocCur]
        exact Nat.lt_add_of_pos_right (by decide)
      have hP : P d.allocCur := (h.room _ le_rfl (Nat.lt_of_lt_of_le hlt hl)).2
      have hnone : d₁.shm d.allocCur = none := by
        rw [← hd₁, addAlreadyAllocated_shm]
        exact (h.room _ le_rfl (Nat.lt_of_lt_of_le hlt hl)).1
      have hreads : readHt sp.zend (sp.deref (d₁.write d.allocCur
          (.ht (t.copyEmpty sp.zend))).shm) (n + 1) d.allocCur = some (.array []) :=
        readHt_succ.2 ⟨_, (Space.deref_shared (hs.shared _ hP) _).trans (Ctxt.write_shm_self _ _ _),
          .inl ⟨hz, hne, rfl⟩⟩
      obtain ⟨h1, h2⟩ := h.leave hs hp ht hn' hread h₁ (hd₁ ▸ NewOnly.refl _) hf hl rfl
        (extends_write hnone) (fun _ => rfl)
        (fun q o hq => by
          rcases of_write_shm hq with ⟨-, rfl⟩ | hq
          · exact .inr ⟨rfl, .inl ⟨hz, rfl⟩⟩
          · exact .inl hq) hP hreads
      exact ⟨h1, h2, hP, hreads⟩
    · rw [if_neg hz, if_pos hpk] at hl ⊢
      have hdat : sp.arPacked d₁.shm t = (hash, vs) := by
        rw [← hd₁, addAlreadyAllocated_shm, Ctxt.persistAlloc_shm, Space.arPacked, h.ext hd, ← hlen]
        simp
      rw [copyPackedData, hdat] at hl ⊢
      dsimp only at hl ⊢
      have hfr := Fills.copyPacked hfill (d₁.persistAlloc (htPackedUsedSize t)).2 t.copyHeader 0 vs
      have hsame := SameTable.copyPacked (g := copyZval sp (copyHt sp depth))
        (d₁.persistAlloc (htPackedUsedSize t)).2 t.copyHeader 0 vs
      have hloop := fun h₁ => ValueCopy.packed hfill hval (t := t.copyHeader)
        (d := (d₁.persistAlloc (htPackedUsedSize t)).2) h₁ hser₁ hels
      generalize copyPacked (copyZval sp (copyHt sp depth))
        (d₁.persistAlloc (htPackedUsedSize t)).2 t.copyHeader 0 vs = r at hl hfr hsame hloop ⊢
      have hl : r.2.2.allocCur ≤ lim := hl
      have hc := hloop ((henter ((Nat.le_add_right _ _).trans (hfr.cur.trans hl))).persistAlloc
        (hfr.cur.trans hl)) hl
      obtain ⟨himm, hpk', hused, hnum⟩ := hsame.fields
      have hpk'' : r.2.1.packed = true := hpk'.trans hpk
      refine h.table hs hp ht hn' hread (m := htPackedUsedSize t) hd₁.symm ?_ hfr hl hc.copying
        hc.new hc.frozen himm rfl ?_ ?_
      · unfold htPackedUsedSize
        omega
      · exact (if_pos hpk'').mpr ⟨hash, r.1, rfl⟩
      · intro rd hext hrd₁ hrd
        refine readHt_succ.2 ⟨_, hrd, .inr (.inl ⟨hused.trans_ne hz, hpk'', hash, r.1, els, hrd₁,
          (hc.length.trans hlen).trans hused.symm, (hnum.trans hcount).trans hc.holes.symm, ?_,
          rfl⟩)⟩
        exact readPacked_mono (fun v _ _ => hext.readZval (fun p a => hext.readHt le_rfl p a) v) hc.reads
    · rw [if_neg hz, if_neg (by simp [hpk])] at hl ⊢
      have hdat : sp.arData d₁.shm t = (hash, bs) := by
        rw [← hd₁, addAlreadyAllocated_shm, Ctxt.persistAlloc_shm, Space.arData, h.ext hd, ← hlen]
        simp
      rw [copyBucketData, hdat] at hl ⊢
      dsimp only at hl ⊢
      have hfr : Fills (d₁.persistAlloc (htUsedSize t)).2
          (copyBuckets sp (copyZval sp (ImmutableCache.copyHt sp depth))
            (d₁.persistAlloc (htUsedSize t)).2 t.copyHeader 0 bs).2.2 :=
        .copyBuckets hfill _ _ _ _
      have hsame : SameTable t.copyHeader
          (copyBuckets sp (copyZval sp (ImmutableCache.copyHt sp depth))
            (d₁.persistAlloc (htUsedSize t)).2 t.copyHeader 0 bs).2.1 :=
        .copyBuckets _ _ _ _
      have hloop := fun h₁ => ValueCopy.buckets hfill hval hs 0 (t := t.copyHeader)
        (d := (d₁.persistAlloc (htUsedSize t)).2) h₁ hser₁ hels
      generalize copyBuckets sp (copyZval sp (copyHt sp depth))
        (d₁.persistAlloc (htUsedSize t)).2 t.copyHeader 0 bs = r at hl hfr hsame hloop ⊢
      have hl : r.2.2.allocCur ≤ lim := hl
      have hc := hloop ((henter ((Nat.le_add_right _ _).trans (hfr.cur.trans hl))).persistAlloc
        (hfr.cur.trans hl)) hl
      obtain ⟨himm, hpk', hused, hnum⟩ := hsame.fields
      have hpk'' : r.2.1.packed = false := hpk'.trans hpk
      refine h.table hs hp ht hn' hread (m := htUsedSize t) hd₁.symm ?_ hfr hl hc.copying
        hc.new hc.frozen himm rfl ?_ ?_
      · unfold htUsedSize
        omega
      · exact (if_neg (Bool.eq_false_iff.1 hpk'')).mpr ⟨hash, r.1, rfl⟩
      · intro rd hext hrd₁ hrd
        refine readHt_succ.2 ⟨_, hrd, .inr (.inr ⟨hused.trans_ne hz, hpk'', hash, r.1, els, hrd₁,
          (hc.length.trans hlen).trans hused.symm, (hnum.trans hcount).trans hc.holes.symm, ?_,
          rfl⟩)⟩
        exact hext.readBuckets
          (fun b _ _ => hext.readZval (fun p a => hext.readHt le_rfl p a) b.val) hc.reads

end

end ImmutableCache
