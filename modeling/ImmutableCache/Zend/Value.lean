import ImmutableCache.Zend.Memory

/-!
# The PHP value behind a zval

`readZval` reads the value that a zval denotes in a memory: the scalar, the bytes of the string, or
the list of keys and values of the array, read to a given nesting depth. It gives a value only for
a well-formed finite graph of scalars, strings and arrays: every pointer leads to a structure of
the right kind, the element counts of a table are right, a cached string hash is the hash of the
bytes, and there is no reference, object, resource or `INDIRECT` in it.
-/

namespace ImmutableCache

/-- The key of an array element. -/
inductive Key where
  | int (h : Nat)
  | str (s : Bytes)
  deriving DecidableEq, Repr

/-- A PHP value built from scalars, strings and arrays. -/
inductive Value where
  | null
  | bool (b : Bool)
  | long (lval : Int)
  | double (dval : UInt64)
  | string (s : Bytes)
  | array (els : List (Key × Value))

section

variable (z : Zend) (rd : Mem)

/-- The bytes of the string at `p`. -/
def readStr (p : Nat) : Option Bytes :=
  match rd p with
  | some (.str s) => if s.h = 0 ∨ s.h = z.hash s.val then some s.val else none
  | _ => none

/-- The key of a bucket. -/
def readKey (h : Nat) : Option Nat → Option Key
  | some p => (readStr z rd p).map .str
  | none => some (.int h)

/-- The value of a zval, given the reading of the tables below. -/
def readZval (readHt : Nat → Option Value) : Zval → Option Value
  | .null => some .null
  | .bool b => some (.bool b)
  | .long l => some (.long l)
  | .double d => some (.double d)
  | .string p _ => (readStr z rd p).map .string
  | .array p _ => readHt p
  | _ => none

/-- The elements of a packed array, from index `idx`; holes are skipped. -/
def readPacked (f : Zval → Option Value) : Nat → List Zval → Option (List (Key × Value))
  | _, [] => some []
  | idx, v :: vs =>
    if v = .undef then readPacked f (idx + 1) vs
    else (f v).bind fun a => (readPacked f (idx + 1) vs).map ((.int idx, a) :: ·)

/-- The elements of a hashed array; holes are skipped. -/
def readBuckets (f : Zval → Option Value) : List Bucket → Option (List (Key × Value))
  | [] => some []
  | b :: bs =>
    if b.val = .undef then readBuckets f bs
    else (readKey z rd b.h b.key).bind fun k => (f b.val).bind fun a =>
      (readBuckets f bs).map ((k, a) :: ·)

/-- The array behind the table at `p`, nested at most `depth` deep. -/
def readHt : Nat → Nat → Option Value
  | 0, _ => none
  | depth + 1, p =>
    match rd p with
    | some (.ht t) =>
      if t.nNumUsed = 0 then if t.nNumOfElements = 0 then some (.array []) else none
      else if t.packed then
        match rd t.dataAddr with
        | some (.packed _ vs) =>
          if vs.length = t.nNumUsed ∧ t.nNumOfElements = vs.countP (· ≠ .undef) then
            (readPacked (readZval z rd (readHt depth)) 0 vs).map .array
          else none
        | _ => none
      else
        match rd t.dataAddr with
        | some (.buckets _ bs) =>
          if bs.length = t.nNumUsed ∧ t.nNumOfElements = bs.countP (·.val ≠ .undef) then
            (readBuckets z rd (readZval z rd (readHt depth)) bs).map .array
          else none
        | _ => none
    | _ => none

end

variable {z : Zend} {rd rd' : Mem} {f g : Zval → Option Value} {p : Nat}

/-! ## What a reading says -/

/-- A string can be read if its cached hash is unset or right. -/
theorem readStr_eq_some {s : Bytes} : readStr z rd p = some s ↔
    ∃ o : ZendString, rd p = some (.str o) ∧ (o.h = 0 ∨ o.h = z.hash o.val) ∧ o.val = s := by
  unfold readStr
  split
  next o ho =>
    by_cases hh : o.h = 0 ∨ o.h = z.hash o.val
    · simp [ho, hh]
    · simp [ho, hh]
  next hne =>
    simp only [reduceCtorEq, false_iff]
    rintro ⟨o, ho, -⟩
    exact hne o ho

/-- A packed table is read element by element, and a hole is skipped. -/
theorem readPacked_cons {v : Zval} {vs : List Zval} {idx : Nat} {els : List (Key × Value)} :
    readPacked f idx (v :: vs) = some els ↔
      v = .undef ∧ readPacked f (idx + 1) vs = some els ∨
      v ≠ .undef ∧ ∃ a rest, f v = some a ∧ readPacked f (idx + 1) vs = some rest ∧
        (.int idx, a) :: rest = els := by
  rw [readPacked]
  by_cases hv : v = .undef
  · simp [hv]
  · simp [hv, Option.bind_eq_some_iff]

/-- The same for the buckets of a hash, whose keys are read too. -/
theorem readBuckets_cons {b : Bucket} {bs : List Bucket} {els : List (Key × Value)} :
    readBuckets z rd f (b :: bs) = some els ↔
      b.val = .undef ∧ readBuckets z rd f bs = some els ∨
      b.val ≠ .undef ∧ ∃ k a rest, readKey z rd b.h b.key = some k ∧ f b.val = some a ∧
        readBuckets z rd f bs = some rest ∧ (k, a) :: rest = els := by
  rw [readBuckets]
  by_cases hv : b.val = .undef
  · simp [hv]
  · simp [hv, Option.bind_eq_some_iff]

/-- What it takes for the table at `p` to be an array: its header, and its data area if it has
elements. -/
theorem readHt_succ {depth : Nat} {a : Value} : readHt z rd (depth + 1) p = some a ↔
    ∃ t, rd p = some (.ht t) ∧
      (t.nNumUsed = 0 ∧ t.nNumOfElements = 0 ∧ .array [] = a ∨
      t.nNumUsed ≠ 0 ∧ t.packed = true ∧ (∃ hash vs els, rd t.dataAddr = some (.packed hash vs) ∧
        vs.length = t.nNumUsed ∧ t.nNumOfElements = vs.countP (· ≠ .undef) ∧
        readPacked (readZval z rd (readHt z rd depth)) 0 vs = some els ∧ .array els = a) ∨
      t.nNumUsed ≠ 0 ∧ t.packed = false ∧ (∃ hash bs els, rd t.dataAddr = some (.buckets hash bs) ∧
        bs.length = t.nNumUsed ∧ t.nNumOfElements = bs.countP (·.val ≠ .undef) ∧
        readBuckets z rd (readZval z rd (readHt z rd depth)) bs = some els ∧
        .array els = a)) := by
  rw [readHt]
  split
  next t ht =>
    simp only [ht, Option.some.injEq, Obj.ht.injEq, exists_eq_left']
    by_cases hz : t.nNumUsed = 0
    · by_cases hn : t.nNumOfElements = 0
      · simp [hz, hn]
      · simp [hz, hn]
    cases hp : t.packed with
    | true =>
      rcases hd : rd t.dataAddr with _ | (s | t' | ⟨hash, vs⟩ | ⟨hash, bs⟩ | e | _)
      case some.packed =>
        by_cases hc : vs.length = t.nNumUsed ∧ t.nNumOfElements = vs.countP (· ≠ .undef)
        · simp [hz, hc]
        · simp only [hz, hc, if_false]
          grind
      all_goals simp [hz]
    | false =>
      rcases hd : rd t.dataAddr with _ | (s | t' | ⟨hash, vs⟩ | ⟨hash, bs⟩ | e | _)
      case some.buckets =>
        by_cases hc : bs.length = t.nNumUsed ∧ t.nNumOfElements = bs.countP (·.val ≠ .undef)
        · simp [hz, hc]
        · simp only [hz, hc, if_false]
          grind
      all_goals simp [hz]
  next hne =>
    simp only [reduceCtorEq, false_iff]
    rintro ⟨t, ht, -⟩
    exact hne t ht

/-! ## More memory and more depth read the same -/

/-- `rd'` has everything that `rd` has. -/
def Extends (rd rd' : Mem) : Prop := ∀ ⦃p : Nat⦄ ⦃o : Obj⦄, rd p = some o → rd' p = some o

/-- A memory extends itself. -/
theorem Extends.refl (rd : Mem) : Extends rd rd := fun _ _ h => h

/-- Extending a memory twice. -/
theorem Extends.trans {rd₁ : Mem} (h : Extends rd rd₁) (h' : Extends rd₁ rd') : Extends rd rd' :=
  fun _ _ hp => h' (h hp)

/-- A string reads the same in a larger memory. -/
theorem Extends.readStr (h : Extends rd rd') {s : Bytes} (hs : readStr z rd p = some s) :
    readStr z rd' p = some s := by
  obtain ⟨o, ho, hh, rfl⟩ := readStr_eq_some.1 hs
  exact readStr_eq_some.2 ⟨o, h ho, hh, rfl⟩

/-- So does the key of a bucket. -/
theorem Extends.readKey (h : Extends rd rd') {hk : Nat} {key : Option Nat} {k : Key}
    (hs : readKey z rd hk key = some k) : readKey z rd' hk key = some k := by
  cases key with
  | none => exact hs
  | some p =>
    obtain ⟨s, hs', rfl⟩ := Option.map_eq_some_iff.1 hs
    exact Option.map_eq_some_iff.2 ⟨s, h.readStr hs', rfl⟩

/-- If every element reads the same, the packed array does. -/
theorem readPacked_mono {idx : Nat} {vs : List Zval} {els : List (Key × Value)}
    (hfg : ∀ v ∈ vs, v ≠ .undef → ∀ a, f v = some a → g v = some a)
    (h : readPacked f idx vs = some els) : readPacked g idx vs = some els := by
  induction vs generalizing idx els with
  | nil => exact h
  | cons v vs ih =>
    have ih {i els} (h : readPacked f i vs = some els) : readPacked g i vs = some els :=
      ih (fun w hw => hfg w (by simp [hw])) h
    obtain ⟨hv, h⟩ | ⟨hv, a, rest, ha, h, he⟩ := readPacked_cons.1 h
    · exact readPacked_cons.2 (.inl ⟨hv, ih h⟩)
    · exact readPacked_cons.2 (.inr ⟨hv, a, rest, hfg v (by simp) hv a ha, ih h, he⟩)

/-- If every key and element reads the same, the hashed array does. -/
theorem readBuckets_mono {bs : List Bucket} {els : List (Key × Value)}
    (hkey : ∀ b ∈ bs, b.val ≠ .undef → ∀ k, readKey z rd b.h b.key = some k →
      readKey z rd' b.h b.key = some k)
    (hfg : ∀ b ∈ bs, b.val ≠ .undef → ∀ a, f b.val = some a → g b.val = some a)
    (hb : readBuckets z rd f bs = some els) : readBuckets z rd' g bs = some els := by
  induction bs generalizing els with
  | nil => exact hb
  | cons b bs ih =>
    have ih {els} (h : readBuckets z rd f bs = some els) : readBuckets z rd' g bs = some els :=
      ih (fun w hw => hkey w (by simp [hw])) (fun w hw => hfg w (by simp [hw])) h
    obtain ⟨hv, hb⟩ | ⟨hv, k, a, rest, hk, ha, hb, he⟩ := readBuckets_cons.1 hb
    · exact readBuckets_cons.2 (.inl ⟨hv, ih hb⟩)
    · exact readBuckets_cons.2 (.inr ⟨hv, k, a, rest, hkey b (by simp) hv k hk,
        hfg b (by simp) hv a ha, ih hb, he⟩)

/-- So do the buckets of a hash whose elements do. -/
theorem Extends.readBuckets (h : Extends rd rd') {bs : List Bucket} {els : List (Key × Value)}
    (hfg : ∀ b ∈ bs, b.val ≠ .undef → ∀ a, f b.val = some a → g b.val = some a)
    (hb : readBuckets z rd f bs = some els) : readBuckets z rd' g bs = some els :=
  readBuckets_mono (fun _ _ _ _ => h.readKey) hfg hb

/-- So does a zval if tables do. -/
theorem Extends.readZval (h : Extends rd rd') {t t' : Nat → Option Value}
    (ht : ∀ p a, t p = some a → t' p = some a) (v : Zval) (a : Value)
    (hv : readZval z rd t v = some a) : readZval z rd' t' v = some a := by
  cases v with
  | null | bool _ | long _ | double _ => exact hv
  | string p _ =>
    obtain ⟨s, hs, rfl⟩ := Option.map_eq_some_iff.1 hv
    exact Option.map_eq_some_iff.2 ⟨s, h.readStr hs, rfl⟩
  | array p _ => exact ht p a hv
  | undef | object _ | resource _ | reference _ | indirect _ | ptr _ => cases hv

/-- A reading survives in a larger memory and at a larger depth. -/
theorem Extends.readHt (h : Extends rd rd') {n m : Nat} (hnm : n ≤ m) (p : Nat) (a : Value)
    (ha : readHt z rd n p = some a) : readHt z rd' m p = some a := by
  induction n generalizing m p a with
  | zero => cases ha
  | succ n ih =>
    obtain ⟨m, rfl⟩ := Nat.exists_eq_add_of_le' (Nat.zero_lt_of_lt hnm)
    have ih' := h.readZval (z := z) fun p a => ih (m := m) (by omega) p a
    obtain ⟨t, ht, hz | ⟨hz, hp, hash, vs, els, hd, hl, hn, he, rfl⟩ |
      ⟨hz, hp, hash, bs, els, hd, hl, hn, he, rfl⟩⟩ := readHt_succ.1 ha
    · exact readHt_succ.2 ⟨t, h ht, .inl hz⟩
    · exact readHt_succ.2 ⟨t, h ht, .inr (.inl ⟨hz, hp, hash, vs, els, h hd, hl, hn,
        readPacked_mono (fun v _ _ => ih' v) he, rfl⟩)⟩
    · exact readHt_succ.2 ⟨t, h ht, .inr (.inr ⟨hz, hp, hash, bs, els, h hd, hl, hn,
        h.readBuckets (fun b _ _ => ih' b.val) he, rfl⟩)⟩

/-- Two readings of a table, at any depths, give the same array. -/
theorem readHt_unique {n m : Nat} {a a' : Value} (h : readHt z rd n p = some a)
    (h' : readHt z rd m p = some a') : a = a' :=
  Option.some.inj (((Extends.refl rd).readHt (le_max_left n m) p a h).symm.trans
    ((Extends.refl rd).readHt (le_max_right n m) p a' h'))

end ImmutableCache
