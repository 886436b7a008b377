import ImmutableCache.Persist.Footprint

/-!
# Which values are stored directly

The sizing pass accepts in direct form exactly the values that read as scalars, strings and arrays.
`WellZval` describes every value that PHP code can hand to the cache: a finite graph, in which
objects, resources, references and `INDIRECT`s may occur anywhere. A readable value is sized without
asking for serialization, and a value that is sized so is readable, although the memo table makes
the pass look at a repeated pointer only once.
-/

namespace ImmutableCache

section

variable (sp : Space) (rd : Mem)

/-- An object, resource or reference of the process. -/
def Opaque (p : Nat) : Prop := sp.shared p = false ∧ rd p = some .other

/-- A zval as PHP code can pass it, given the tables below. What lies in the shared segments is
readable. -/
def WellZval (depth : Nat) (wellHt : Nat → Prop) : Zval → Prop
  | .null | .bool _ | .long _ | .double _ => True
  | .string p _ => ∃ s, readStr sp.zend rd p = some s
  | .array p _ => if sp.shared p then ∃ a, readHt sp.zend rd depth p = some a else wellHt p
  | .object p | .resource p | .reference p => Opaque sp rd p
  | .undef | .indirect _ | .ptr _ => False

/-- A table as PHP code can pass it, nested at most `depth` deep. -/
def WellHt : Nat → Nat → Prop
  | 0, _ => False
  | depth + 1, p => ∃ t, rd p = some (.ht t) ∧
      (t.nNumUsed = 0 ∧ t.nNumOfElements = 0 ∨
      t.nNumUsed ≠ 0 ∧ t.packed = true ∧ (∃ hash vs, rd t.dataAddr = some (.packed hash vs) ∧
        vs.length = t.nNumUsed ∧ t.nNumOfElements = vs.countP (· ≠ .undef) ∧
        ∀ v ∈ vs, v ≠ .undef → WellZval sp rd depth (WellHt depth) v) ∨
      t.nNumUsed ≠ 0 ∧ t.packed = false ∧ (∃ hash bs, rd t.dataAddr = some (.buckets hash bs) ∧
        bs.length = t.nNumUsed ∧ t.nNumOfElements = bs.countP (·.val ≠ .undef) ∧
        ∀ b ∈ bs, b.val ≠ .undef → (∃ k, readKey sp.zend rd b.h b.key = some k) ∧
          (b.val.isIndirect = true ∨ WellZval sp rd depth (WellHt depth) b.val)))

end

variable {υ : Type} {sp : Space} {rd : Mem} {serializer : Serializer υ} {P : Nat → Prop}
  {c c' : Ctxt} {n : Nat}

/-! ## Readable values are sized in direct form -/

/-- The function `f` accepts what can be read at depth `n`. -/
def Accepts (sp : Space) (rd : Mem) (n : Nat) (f : Ctxt → Zval → Bool × Ctxt) : Prop :=
  ∀ ⦃c : Ctxt⦄ ⦃v : Zval⦄ ⦃a : Value⦄, Direct sp rd c →
    readZval sp.zend rd (readHt sp.zend rd n) v = some a →
    ∃ c', f c v = (true, c') ∧ Direct sp rd c'

/-- `calc_zval` accepts a readable value if the function for the tables below does. -/
theorem calcZval_accepts {g : Ctxt → HashTable → Bool × Ctxt}
    (hg : ∀ {c p a}, Direct sp rd c → readHt sp.zend rd n p = some a →
      ∃ c', g c (sp.ht c.shm p) = (true, c') ∧ Direct sp rd c') :
    Accepts sp rd n (calcZval sp serializer g) := by
  intro c v a h hread
  cases v with
  | null | bool _ | long _ | double _ => exact ⟨c, rfl, h⟩
  | string p rc => exact ⟨_, calcZval_string h.ser, h.calcStr p⟩
  | array p rc =>
    have hm := h.calcMemoize p
    rw [calcZval_array h.ser]
    cases hp : sp.shared p with
    | true => exact ⟨c, rfl, h⟩
    | false =>
      cases hseen : (calcMemoize c p).1 with
      | true => exact ⟨_, rfl, hm⟩
      | false => exact hg hm hread
  | undef | object _ | resource _ | reference _ | indirect _ | ptr _ => cases hread

/-- The loop over a packed table accepts elements that can be read. -/
theorem Accepts.packed {f : Ctxt → Zval → Bool × Ctxt} (hf : Accepts sp rd n f)
    (hundef : ∀ c, f c .undef = (true, c)) {vs : List Zval} {idx : Nat}
    {els : List (Key × Value)} (h : Direct sp rd c)
    (hread : readPacked (readZval sp.zend rd (readHt sp.zend rd n)) idx vs = some els) :
    ∃ c', calcPacked f c vs = (true, c') ∧ Direct sp rd c' := by
  induction vs generalizing c idx els with
  | nil => exact ⟨c, rfl, h⟩
  | cons v vs ih =>
    obtain ⟨rfl, hrest⟩ | ⟨-, a, rest, ha, hrest, rfl⟩ := readPacked_cons.1 hread
    · obtain ⟨c', hc', h'⟩ := ih h hrest
      exact ⟨c', calcPacked_cons.2 ⟨c, hundef c, hc'⟩, h'⟩
    · obtain ⟨c₁, hc₁, h₁⟩ := hf h ha
      obtain ⟨c', hc', h'⟩ := ih h₁ hrest
      exact ⟨c', calcPacked_cons.2 ⟨c₁, hc₁, hc'⟩, h'⟩

/-- So does the loop over the buckets. -/
theorem Accepts.buckets {f : Ctxt → Zval → Bool × Ctxt} (hf : Accepts sp rd n f)
    {bs : List Bucket} {els : List (Key × Value)} (h : Direct sp rd c)
    (hread : readBuckets sp.zend rd (readZval sp.zend rd (readHt sp.zend rd n)) bs = some els) :
    ∃ c', calcBuckets sp f c bs = (true, c') ∧ Direct sp rd c' := by
  induction bs generalizing c els with
  | nil => exact ⟨c, rfl, h⟩
  | cons b bs ih =>
    obtain ⟨hu, hrest⟩ | ⟨hu, k, a, rest, -, ha, hrest, rfl⟩ := readBuckets_cons.1 hread
    · obtain ⟨c', hc', h'⟩ := ih h hrest
      exact ⟨c', calcBuckets_cons.2 (.inl ⟨hu, hc'⟩), h'⟩
    · have hi : b.val.isIndirect = false := by
        cases hv : b.val with
        | indirect p =>
          rw [hv] at ha
          cases ha
        | _ => rfl
      obtain ⟨c₁, hc₁, h₁⟩ := hf (h.calcKey b.key) ha
      obtain ⟨c', hc', h'⟩ := ih h₁ hrest
      exact ⟨c', calcBuckets_cons.2 (.inr ⟨hu, hi, c₁, hc₁, hc'⟩), h'⟩

/-- `calc_ht` accepts a readable table. -/
theorem calcHt_accepts {depth : Nat} (hle : n ≤ depth) {p : Nat} {a : Value} (h : Direct sp rd c)
    (hread : readHt sp.zend rd n p = some a) :
    ∃ c', calcHt sp serializer depth c (sp.ht c.shm p) = (true, c') ∧ Direct sp rd c' := by
  induction n generalizing depth p a c with
  | zero => cases hread
  | succ n ih =>
    obtain ⟨depth, rfl⟩ := Nat.exists_eq_add_of_le' (Nat.zero_lt_of_lt hle)
    have hf : Accepts sp rd n (calcZval sp serializer (calcHt sp serializer depth)) :=
      calcZval_accepts fun hc hr => ih (Nat.le_of_succ_le_succ hle) hc hr
    obtain ⟨t, ht, hcase⟩ := readHt_succ.1 hread
    have hp : sp.ht c.shm p = t := by rw [Space.ht, h.ext ht]
    rw [calcHt, hp]
    obtain ⟨hz, -, rfl⟩ | ⟨hz, hpk, hash, vs, els, hd, hlen, -, hels, rfl⟩ |
      ⟨hz, hpk, hash, bs, els, hd, hlen, -, hels, rfl⟩ := hcase
    · rw [if_pos hz]
      exact ⟨_, rfl, h.addSize _⟩
    · have hdat : (sp.arPacked (c.addSize sizeofHashTable).shm t).2 = vs := by
        rw [Space.arPacked, (h.addSize _).ext hd, ← hlen]
        simp
      rw [if_neg hz, if_pos hpk, hdat]
      exact hf.packed (fun _ => rfl) ((h.addSize _).addSize _) hels
    · have hdat : (sp.arData (c.addSize sizeofHashTable).shm t).2 = bs := by
        rw [Space.arData, (h.addSize _).ext hd, ← hlen]
        simp
      rw [if_neg hz, if_neg (by simp [hpk]), hdat]
      exact hf.buckets ((h.addSize _).addSize _) hels

/-! ## Well-formed values -/

/-- A well-formed value that reads at some depth reads at its own depth. -/
theorem WellZval.read {m : Nat}
    (hht : ∀ p a, WellHt sp rd n p → readHt sp.zend rd m p = some a →
      readHt sp.zend rd n p = some a) {v : Zval} (hw : WellZval sp rd n (WellHt sp rd n) v)
    (a : Value) (h : readZval sp.zend rd (readHt sp.zend rd m) v = some a) :
    readZval sp.zend rd (readHt sp.zend rd n) v = some a := by
  cases v with
  | null | bool _ | long _ | double _ | string _ _ => exact h
  | array p rc =>
    cases hp : sp.shared p with
    | true =>
      obtain ⟨a', ha'⟩ : ∃ a, readHt sp.zend rd n p = some a := by simpa [WellZval, hp] using hw
      rw [readHt_unique h ha']
      exact ha'
    | false => exact hht p a (by simpa [WellZval, hp] using hw) h
  | undef | object _ | resource _ | reference _ | indirect _ | ptr _ => cases h

/-- A well-formed table that reads at some depth reads at its own depth. -/
theorem WellHt.read {m p : Nat} {a : Value} (hw : WellHt sp rd n p)
    (h : readHt sp.zend rd m p = some a) : readHt sp.zend rd n p = some a := by
  induction n generalizing m p a with
  | zero => exact hw.elim
  | succ n ih =>
    cases m with
    | zero => cases h
    | succ m =>
      obtain ⟨t, ht, hcase⟩ := hw
      obtain ⟨t', ht', hcase'⟩ := readHt_succ.1 h
      obtain rfl : t = t' := by simpa [ht] using ht'
      have hval := fun {v} hw => WellZval.read (m := m) (fun p a => ih (p := p) (a := a)) (v := v) hw
      refine readHt_succ.2 ⟨t, ht, ?_⟩
      obtain hz | ⟨hz, hpk, hash, vs, els, hd, hlen, hcount, hels, rfl⟩ |
        ⟨hz, hpk, hash, bs, els, hd, hlen, hcount, hels, rfl⟩ := hcase'
      · exact .inl hz
      · obtain ⟨hz', -⟩ | ⟨-, -, hash', vs', hd', -, -, hall⟩ | ⟨-, hpk', -⟩ := hcase
        · exact absurd hz' hz
        · obtain ⟨rfl, rfl⟩ : hash = hash' ∧ vs = vs' := by simpa [hd] using hd'
          exact .inr (.inl ⟨hz, hpk, hash, vs, els, hd, hlen, hcount,
            readPacked_mono (fun v hv hu => hval (hall v hv hu)) hels, rfl⟩)
        · rw [hpk] at hpk'
          cases hpk'
      · obtain ⟨hz', -⟩ | ⟨-, hpk', -⟩ | ⟨-, -, hash', bs', hd', -, -, hall⟩ := hcase
        · exact absurd hz' hz
        · rw [hpk] at hpk'
          cases hpk'
        · obtain ⟨rfl, rfl⟩ : hash = hash' ∧ bs = bs' := by simpa [hd] using hd'
          refine .inr (.inr ⟨hz, hpk, hash, bs, els, hd, hlen, hcount,
            (Extends.refl rd).readBuckets (fun b hb hu a ha => ?_) hels, rfl⟩)
          rcases (hall b hb hu).2 with hi | hw
          · cases hv : b.val with
            | indirect p =>
              rw [hv] at ha
              cases ha
            | _ =>
              rw [hv] at hi
              cases hi
          · exact hval hw a ha

/-- A well-formed value stays well-formed in a larger memory and at a larger depth. -/
theorem WellZval.mono {rd' : Mem} {m : Nat} (hext : Extends rd rd') (hnm : n ≤ m)
    {f g : Nat → Prop} (hfg : ∀ p, f p → g p) {v : Zval} (hw : WellZval sp rd n f v) :
    WellZval sp rd' m g v := by
  cases v with
  | null | bool _ | long _ | double _ => trivial
  | string p rc => exact hw.imp fun s hs => hext.readStr hs
  | array p rc =>
    cases hp : sp.shared p with
    | true =>
      obtain ⟨a, ha⟩ : ∃ a, readHt sp.zend rd n p = some a := by simpa [WellZval, hp] using hw
      have hr := hext.readHt hnm p a ha
      simpa [WellZval, hp] using ⟨a, hr⟩
    | false => simpa [WellZval, hp] using hfg p (by simpa [WellZval, hp] using hw)
  | object p | resource p | reference p => exact ⟨hw.1, hext hw.2⟩
  | undef | indirect _ | ptr _ => exact hw.elim

/-- A well-formed table stays well-formed in a larger memory and at a larger depth. -/
theorem WellHt.mono {rd' : Mem} {m p : Nat} (hext : Extends rd rd') (hnm : n ≤ m)
    (hw : WellHt sp rd n p) : WellHt sp rd' m p := by
  induction n generalizing m p with
  | zero => exact hw.elim
  | succ n ih =>
    obtain ⟨m, rfl⟩ := Nat.exists_eq_add_of_le' (Nat.zero_lt_of_lt hnm)
    have hnm : n ≤ m := by omega
    have hval : ∀ v, WellZval sp rd n (WellHt sp rd n) v →
        WellZval sp rd' m (WellHt sp rd' m) v := fun v => .mono hext hnm fun p => ih hnm
    obtain ⟨t, ht, hz | ⟨hz, hpk, hash, vs, hd, hlen, hcount, hall⟩ |
      ⟨hz, hpk, hash, bs, hd, hlen, hcount, hall⟩⟩ := hw
    · exact ⟨t, hext ht, .inl hz⟩
    · exact ⟨t, hext ht, .inr (.inl ⟨hz, hpk, hash, vs, hext hd, hlen, hcount,
        fun v hv hu => hval v (hall v hv hu)⟩)⟩
    · refine ⟨t, hext ht, .inr (.inr ⟨hz, hpk, hash, bs, hext hd, hlen, hcount, fun b hb hu => ?_⟩)⟩
      obtain ⟨⟨k, hk⟩, hv⟩ := hall b hb hu
      exact ⟨⟨k, hext.readKey hk⟩, hv.imp_right (hval b.val)⟩

/-- A well-formed table is well-formed at any larger depth. -/
theorem WellHt.succ {p : Nat} (hw : WellHt sp rd n p) : WellHt sp rd (n + 1) p :=
  hw.mono (.refl rd) (Nat.le_succ n)

/-! ## What is sized in direct form is readable -/

/-- Every pointer counted so far leads to a string or to a table, and the table is readable if it is
well-formed at depth `n`. -/
def Counted (sp : Space) (rd : Mem) (n : Nat) (c : Ctxt) : Prop :=
  ∀ k ∈ c.alreadyCounted, ∃ p o, k = pointerToHashKey p ∧ sp.shared p = false ∧
    rd p = some o ∧ o ≠ .other ∧ (WellHt sp rd n p → ∃ m a, readHt sp.zend rd m p = some a)

/-- The pointers counted between `c` and `c'` are readable. -/
def CountedNew (sp : Space) (rd : Mem) (c c' : Ctxt) : Prop :=
  ∀ k ∈ c'.alreadyCounted, k ∈ c.alreadyCounted ∨
    ∃ p m, k = pointerToHashKey p ∧ sp.shared p = false ∧ Readable sp.zend rd m p

namespace CountedNew

/-- Nothing has been counted. -/
theorem refl (c : Ctxt) : CountedNew sp rd c c := fun _ hk => .inl hk

/-- What is counted in two steps. -/
theorem trans {c₁ : Ctxt} (h : CountedNew sp rd c c₁) (h' : CountedNew sp rd c₁ c') :
    CountedNew sp rd c c' := by
  intro k hk
  rcases h' k hk with hk | hk
  · exact h k hk
  · exact .inr hk

/-- A readable pointer is counted. -/
theorem calcMemoize {p m : Nat} (hp : sp.shared p = false) (hr : Readable sp.zend rd m p)
    (c : Ctxt) : CountedNew sp rd c (calcMemoize c p).2 := by
  unfold ImmutableCache.calcMemoize
  split
  · exact .refl c
  split
  · exact .refl c
  · intro k hk
    rcases List.mem_cons.1 hk with rfl | hk
    · exact .inr ⟨p, m, rfl, hp, hr⟩
    · exact .inl hk

/-- A string that can be read is counted. -/
theorem calcStr {p : Nat} {s : Bytes} (hs : readStr sp.zend rd p = some s) (c : Ctxt) :
    CountedNew sp rd c (calcStr sp c p) := by
  unfold ImmutableCache.calcStr
  split
  · exact .refl c
  next hp =>
    have hnew := calcMemoize (m := 0) (by simpa using hp) (.inl ⟨s, hs⟩) c
    split
    next he => rwa [he] at hnew
    next he =>
      rw [he] at hnew
      exact hnew

/-- The string of a key that can be read is counted. -/
theorem calcKey {b : Bucket} {k : Key} (hk : readKey sp.zend rd b.h b.key = some k) (c : Ctxt) :
    CountedNew sp rd c (calcKey sp c b.key) := by
  cases hb : b.key with
  | none => exact .refl c
  | some p =>
    rw [hb] at hk
    obtain ⟨s, hs, -⟩ := Option.map_eq_some_iff.1 hk
    exact .calcStr hs c

end CountedNew

/-- The sizing pass has gone on from `c` to `c'` in direct form: it has counted readable objects,
each once. -/
structure Sized (sp : Space) (rd : Mem) (c c' : Ctxt) : Prop where
  direct : Direct sp rd c'
  counted : CountedNew sp rd c c'
  tally : c.memoizationNeeded = true → ∃ ps, Tally sp c c' ps

namespace Sized

/-- The pass has not gone on. -/
theorem refl (h : Direct sp rd c) : Sized sp rd c c := ⟨h, .refl c, fun hm => ⟨[], .refl hm⟩⟩

/-- The pass has gone on twice. -/
theorem trans {c₁ : Ctxt} (h : Sized sp rd c c₁) (h' : Sized sp rd c₁ c') : Sized sp rd c c' := by
  refine ⟨h'.direct, h.counted.trans h'.counted, fun hm => ?_⟩
  obtain ⟨ps, hps⟩ := h.tally hm
  obtain ⟨ps', hps'⟩ := h'.tally hps.memo
  exact ⟨ps' ++ ps, hps.trans hps'⟩

/-- The pass goes on over a string that can be read. -/
theorem calcStr (hreq : ∀ p, sp.shared p = false → rd p = sp.req p) (h : Direct sp rd c) {p : Nat}
    {s : Bytes} (hs : readStr sp.zend rd p = some s) : Sized sp rd c (calcStr sp c p) :=
  ⟨h.calcStr p, .calcStr hs c, fun hm => Tally.calcStr hreq h hm hs⟩

/-- The pass goes on over a key that can be read. -/
theorem calcKey (hreq : ∀ p, sp.shared p = false → rd p = sp.req p) (h : Direct sp rd c)
    {b : Bucket} {k : Key} (hk : readKey sp.zend rd b.h b.key = some k) :
    Sized sp rd c (calcKey sp c b.key) :=
  ⟨h.calcKey b.key, .calcKey hk c, fun hm => Tally.calcKey hreq h hm hk⟩

end Sized

/-- The function `f` succeeds on a well-formed value only if it is readable. -/
def Rejects (sp : Space) (rd : Mem) (n : Nat) (f : Ctxt → Zval → Bool × Ctxt) : Prop :=
  ∀ ⦃c c' : Ctxt⦄ ⦃v : Zval⦄, Direct sp rd c → Counted sp rd n c →
    WellZval sp rd n (WellHt sp rd n) v → f c v = (true, c') →
    Sized sp rd c c' ∧ ∃ a, readZval sp.zend rd (readHt sp.zend rd n) v = some a

/-- The function `g` for tables succeeds on a well-formed table, just counted, only if it is
readable. -/
def RejectsHt (sp : Space) (rd : Mem) (n : Nat) (g : Ctxt → HashTable → Bool × Ctxt) : Prop :=
  ∀ ⦃c c' : Ctxt⦄ ⦃p : Nat⦄, Direct sp rd c → Counted sp rd n c → sp.shared p = false →
    (calcMemoize c p).1 = false → WellHt sp rd n p →
    g (calcMemoize c p).2 (sp.ht (calcMemoize c p).2.shm p) = (true, c') →
    Sized sp rd c c' ∧ ∃ a, readHt sp.zend rd n p = some a

/-- What is readable may be counted. -/
theorem Counted.new (h : Counted sp rd n c) (hnew : CountedNew sp rd c c') :
    Counted sp rd n c' := by
  intro k hk
  rcases hnew k hk with hk | ⟨p, m, rfl, hp, hr⟩
  · exact h k hk
  rcases hr with ⟨s, hr⟩ | ⟨a, hr⟩
  · obtain ⟨o, ho, -⟩ := readStr_eq_some.1 hr
    refine ⟨p, _, rfl, hp, ho, by simp, fun hw => ?_⟩
    cases n with
    | zero => exact hw.elim
    | succ n =>
      obtain ⟨t, ht, -⟩ := hw
      rw [ho] at ht
      cases ht
  · obtain ⟨t, ht⟩ := readHt_table hr
    exact ⟨p, _, rfl, hp, ht, by simp, fun _ => ⟨m, a, hr⟩⟩

/-- A pointer that has been counted before was counted when it was new. -/
theorem Counted.seen {p : Nat} {o : Obj} (hreq : ∀ p, sp.shared p = false → rd p = sp.req p)
    (h : Counted sp rd n c) (hp : sp.shared p = false) (ho : rd p = some o)
    (hm : (calcMemoize c p).1 = true) :
    (calcMemoize c p).2 = c ∧ o ≠ .other ∧
      (WellHt sp rd n p → ∃ m a, readHt sp.zend rd m p = some a) := by
  unfold calcMemoize at hm ⊢
  split at hm
  · cases hm
  next hneed =>
    split at hm
    next hmem =>
      rw [if_neg hneed, if_pos hmem]
      obtain ⟨p', o', hk, hp', ho', hne, hw⟩ := h _ hmem
      obtain rfl : p = p' := pointerToHashKey_inj (sp.req_lt ((hreq p hp).symm.trans ho))
        (sp.req_lt ((hreq p' hp').symm.trans ho')) hk
      obtain rfl : o = o' := by simpa [ho] using ho'
      exact ⟨rfl, hne, hw⟩
    · cases hm

/-- At a smaller depth fewer tables are well-formed. -/
theorem Counted.pred (h : Counted sp rd (n + 1) c) : Counted sp rd n c := by
  intro k hk
  obtain ⟨p, o, hk, hp, ho, hne, hw⟩ := h k hk
  exact ⟨p, o, hk, hp, ho, hne, fun h => hw h.succ⟩

/-- A table that is too deep to be well-formed at depth `n` may be counted before it is read. -/
theorem Counted.memoize {p : Nat} {t : HashTable} (h : Counted sp rd n c)
    (hp : sp.shared p = false) (ht : rd p = some (.ht t)) (hw : ¬ WellHt sp rd n p) :
    Counted sp rd n (calcMemoize c p).2 := by
  unfold calcMemoize
  split
  · exact h
  split
  · exact h
  · intro k hk
    rcases List.mem_cons.1 hk with rfl | hk
    · exact ⟨p, _, rfl, hp, ht, by simp, fun h => absurd h hw⟩
    · exact h k hk

/-- `calc_zval` succeeds on a well-formed value only if it is readable, if the function for the
tables below does so. -/
theorem RejectsHt.zval {g : Ctxt → HashTable → Bool × Ctxt} (hg : RejectsHt sp rd n g)
    (hreq : ∀ p, sp.shared p = false → rd p = sp.req p) :
    Rejects sp rd n (calcZval sp serializer g) := by
  intro c c' v h hcnt hw hc
  cases v with
  | null | bool _ | long _ | double _ =>
    obtain ⟨-, rfl⟩ := Prod.mk.inj hc
    exact ⟨.refl h, _, rfl⟩
  | string p rc =>
    obtain ⟨s, hs⟩ := hw
    rw [calcZval_string h.ser] at hc
    obtain ⟨-, rfl⟩ := Prod.mk.inj hc
    exact ⟨.calcStr hreq h hs, .string s, by simp [readZval, hs]⟩
  | array p rc =>
    rw [calcZval_array h.ser] at hc
    cases hp : sp.shared p with
    | true =>
      rw [hp, if_pos rfl] at hc
      obtain ⟨-, rfl⟩ := Prod.mk.inj hc
      exact ⟨.refl h, by simpa [WellZval, readZval, hp] using hw⟩
    | false =>
      have hw : WellHt sp rd n p := by simpa [WellZval, hp] using hw
      rw [hp, if_neg Bool.false_ne_true] at hc
      cases hseen : (calcMemoize c p).1 with
      | true =>
        obtain ⟨t, ht⟩ : ∃ t, rd p = some (.ht t) := by
          cases n with
          | zero => exact hw.elim
          | succ n => exact hw.imp fun t ht => ht.1
        obtain ⟨heq, -, hread⟩ := hcnt.seen hreq hp ht hseen
        obtain ⟨m, a, ha⟩ := hread hw
        rw [hseen, if_pos rfl, heq] at hc
        obtain ⟨-, rfl⟩ := Prod.mk.inj hc
        exact ⟨.refl h, a, hw.read ha⟩
      | false =>
        rw [hseen, if_neg Bool.false_ne_true] at hc
        exact hg h hcnt hp hseen hw hc
  | object p | resource p | reference p =>
    obtain ⟨hp, ho⟩ := hw
    -- no opaque value has been counted, so the switch over the type is reached
    cases hm : calcMemoize c p with
    | mk seen c₁ =>
      cases seen with
      | true => exact absurd rfl (hcnt.seen hreq hp ho (by rw [hm])).2.1
      | false => simp [calcZval, Zval.isScalar, Zval.counted, h.ser, hp, hm] at hc
  | undef | indirect _ | ptr _ => exact hw.elim

/-- The loop over a packed table succeeds only if all elements can be read. -/
theorem Rejects.packed {f : Ctxt → Zval → Bool × Ctxt} (hf : Rejects sp rd n f)
    (hundef : ∀ c, f c .undef = (true, c)) {vs : List Zval} (h : Direct sp rd c)
    (hcnt : Counted sp rd n c)
    (hw : ∀ v ∈ vs, v ≠ .undef → WellZval sp rd n (WellHt sp rd n) v)
    (hc : calcPacked f c vs = (true, c')) (idx : Nat) :
    Sized sp rd c c' ∧
      ∃ els, readPacked (readZval sp.zend rd (readHt sp.zend rd n)) idx vs = some els := by
  induction vs generalizing c idx with
  | nil =>
    obtain ⟨-, rfl⟩ := Prod.mk.inj hc
    exact ⟨.refl h, [], rfl⟩
  | cons v vs ih =>
    obtain ⟨c₁, hv, hc⟩ := calcPacked_cons.1 hc
    have hw' : ∀ w ∈ vs, w ≠ .undef → WellZval sp rd n (WellHt sp rd n) w :=
      fun w hmem => hw w (List.mem_cons_of_mem v hmem)
    by_cases hu : v = .undef
    · rw [hu, hundef] at hv
      obtain ⟨-, rfl⟩ := Prod.mk.inj hv
      obtain ⟨h', els, hels⟩ := ih h hcnt hw' hc (idx + 1)
      exact ⟨h', els, readPacked_cons.2 (.inl ⟨hu, hels⟩)⟩
    · obtain ⟨h₁, a, ha⟩ := hf h hcnt (hw v (by simp) hu) hv
      obtain ⟨h', els, hels⟩ := ih h₁.direct (hcnt.new h₁.counted) hw' hc (idx + 1)
      exact ⟨h₁.trans h', _, readPacked_cons.2 (.inr ⟨hu, a, els, ha, hels, rfl⟩)⟩

/-- So does the loop over the buckets. -/
theorem Rejects.buckets {f : Ctxt → Zval → Bool × Ctxt} (hf : Rejects sp rd n f)
    (hreq : ∀ p, sp.shared p = false → rd p = sp.req p) {bs : List Bucket} (h : Direct sp rd c) (hcnt : Counted sp rd n c)
    (hw : ∀ b ∈ bs, b.val ≠ .undef → (∃ k, readKey sp.zend rd b.h b.key = some k) ∧
      (b.val.isIndirect = true ∨ WellZval sp rd n (WellHt sp rd n) b.val))
    (hc : calcBuckets sp f c bs = (true, c')) :
    Sized sp rd c c' ∧
      ∃ els, readBuckets sp.zend rd (readZval sp.zend rd (readHt sp.zend rd n)) bs = some els := by
  induction bs generalizing c with
  | nil =>
    obtain ⟨-, rfl⟩ := Prod.mk.inj hc
    exact ⟨.refl h, [], rfl⟩
  | cons b bs ih =>
    have hw' : ∀ w ∈ bs, w.val ≠ .undef → (∃ k, readKey sp.zend rd w.h w.key = some k) ∧
        (w.val.isIndirect = true ∨ WellZval sp rd n (WellHt sp rd n) w.val) :=
      fun w hmem => hw w (List.mem_cons_of_mem b hmem)
    obtain ⟨hu, hc⟩ | ⟨hu, hi, c₁, hv, hc⟩ := calcBuckets_cons.1 hc
    · obtain ⟨h', els, hels⟩ := ih h hcnt hw' hc
      exact ⟨h', els, readBuckets_cons.2 (.inl ⟨hu, hels⟩)⟩
    · obtain ⟨⟨k, hk⟩, hval⟩ := hw b (by simp) hu
      have hkey := Sized.calcKey hreq h hk
      have hcnt' := hcnt.new hkey.counted
      obtain ⟨h₁, a, ha⟩ := hf hkey.direct hcnt' (hval.resolve_left (by simp [hi])) hv
      obtain ⟨h', els, hels⟩ := ih h₁.direct (hcnt'.new h₁.counted) hw' hc
      exact ⟨(hkey.trans h₁).trans h', _,
        readBuckets_cons.2 (.inr ⟨hu, k, a, els, hk, ha, hels, rfl⟩)⟩

/-- `calc_ht` succeeds on a well-formed table only if it is readable. The induction is on the depth
of the table: the table itself, which is counted before its elements, is too deep to occur among
them. -/
theorem RejectsHt.ht {depth : Nat} (hreq : ∀ p, sp.shared p = false → rd p = sp.req p)
    (hle : n ≤ depth) : RejectsHt sp rd n (calcHt sp serializer depth) := by
  induction n generalizing depth with
  | zero => exact fun c c' p _ _ _ _ hw => hw.elim
  | succ n ih =>
    intro c c' p h hcnt hp hseen hw hc
    by_cases hpred : WellHt sp rd n p
    · obtain ⟨h', a, ha⟩ := ih (by omega) h hcnt.pred hp hseen hpred hc
      exact ⟨h', a, (Extends.refl rd).readHt (Nat.le_succ n) p a ha⟩
    obtain ⟨depth, rfl⟩ := Nat.exists_eq_add_of_le' (Nat.zero_lt_of_lt hle)
    have hf : Rejects sp rd n (calcZval sp serializer (calcHt sp serializer depth)) :=
      (ih (by omega)).zval hreq
    obtain ⟨t, ht, hcase⟩ := hw
    have hm := h.calcMemoize p
    have hcnt' : Counted sp rd n (calcMemoize c p).2 := hcnt.pred.memoize hp ht hpred
    have hnew {a : Value} (ha : readHt sp.zend rd (n + 1) p = some a) :
        CountedNew sp rd c (calcMemoize c p).2 := .calcMemoize hp (.inr ⟨a, ha⟩) c
    have htally {m : Nat} (hsz : m = (Obj.ht t).weight) (hmemo : c.memoizationNeeded = true) :=
      Tally.memoize hmemo hp ((hreq p hp).symm.trans ht) hseen hsz
    have htab : sp.ht (calcMemoize c p).2.shm p = t := by rw [Space.ht, hm.ext ht]
    rw [htab, calcHt] at hc
    generalize (calcMemoize c p).2 = c₁ at hc hm hcnt' hnew htally
    obtain ⟨hz, hne⟩ | ⟨hz, hpk, hash, vs, hd, hlen, hcount, hall⟩ |
      ⟨hz, hpk, hash, bs, hd, hlen, hcount, hall⟩ := hcase
    · have ha : readHt sp.zend rd (n + 1) p = some (.array []) :=
        readHt_succ.2 ⟨t, ht, .inl ⟨hz, hne, rfl⟩⟩
      rw [if_pos hz] at hc
      obtain ⟨-, rfl⟩ := Prod.mk.inj hc
      refine ⟨⟨hm.addSize _, hnew ha, fun hmemo => ⟨[p], htally ?_ hmemo⟩⟩, _, ha⟩
      simp [Obj.weight, hz]
    · have hdat : (sp.arPacked (c₁.addSize sizeofHashTable).shm t).2 = vs := by
        rw [Space.arPacked, (hm.addSize _).ext hd, ← hlen]
        simp
      rw [if_neg hz, if_pos hpk, hdat] at hc
      obtain ⟨h', els, hels⟩ := hf.packed (fun _ => rfl) ((hm.addSize _).addSize _) hcnt'
        hall hc 0
      have ha := readHt_succ.2
        ⟨t, ht, .inr (.inl ⟨hz, hpk, hash, vs, els, hd, hlen, hcount, hels, rfl⟩)⟩
      refine ⟨Sized.trans ⟨(hm.addSize _).addSize _, hnew ha, fun hmemo => ⟨[p], ?_⟩⟩ h', _, ha⟩
      have := htally (m := (Obj.ht t).weight) rfl hmemo
      simpa [Ctxt.addSize, Obj.weight, hz, hpk, Nat.add_assoc] using this
    · have hdat : (sp.arData (c₁.addSize sizeofHashTable).shm t).2 = bs := by
        rw [Space.arData, (hm.addSize _).ext hd, ← hlen]
        simp
      rw [if_neg hz, if_neg (by simp [hpk]), hdat] at hc
      obtain ⟨h', els, hels⟩ := hf.buckets hreq ((hm.addSize _).addSize _) hcnt' hall hc
      have ha := readHt_succ.2
        ⟨t, ht, .inr (.inr ⟨hz, hpk, hash, bs, els, hd, hlen, hcount, hels, rfl⟩)⟩
      refine ⟨Sized.trans ⟨(hm.addSize _).addSize _, hnew ha, fun hmemo => ⟨[p], ?_⟩⟩ h', _, ha⟩
      have := htally (m := (Obj.ht t).weight) rfl hmemo
      simpa [Ctxt.addSize, Obj.weight, hz, hpk, Nat.add_assoc] using this

end ImmutableCache
