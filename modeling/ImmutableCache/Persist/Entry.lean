import ImmutableCache.Persist.Accept

/-!
# Persisting an entry

What `immutable_cache_persist` does with a whole entry. `Stored` is the choice that the sizing
half makes: a value that can be shared as a graph is stored directly, any other in serialized form
(`persistSize_stored`, `persistSize_readable`). `Copied` is what the copying half leaves in the
block: an entry with a frozen key and a frozen value that reads as the original one, and no object
in the block that is not frozen (`persistFill_copied`).
-/

namespace ImmutableCache

variable {υ : Type} {sp : Space} {P : Nat → Prop} {rd : Mem} {php : Serializer υ}
  {serializer : Option (Serializer υ)} {depth k alloc : Nat} {shm shm' : Mem} {orig : Entry}
  {c d : Ctxt} {key : Bytes}

/-! ## The form of an entry -/

/-- An entry as PHP code can hand it to `immutable_cache_cache_store`: the key reads as `key`, and
the value is well-formed, nested at most `depth` deep. -/
structure WellEntry (sp : Space) (rd : Mem) (depth : Nat) (orig : Entry) (key : Bytes) : Prop where
  req : ∀ p, sp.shared p = false → rd p = sp.req p
  key : readStr sp.zend rd orig.key = some key
  val : WellZval sp rd depth (WellHt sp rd depth) orig.val

/-- A well-formed entry stays well-formed when more can be read. -/
theorem WellEntry.mono {rd' : Mem} (h : WellEntry sp rd depth orig key) (hext : Extends rd rd')
    (hreq : ∀ p, sp.shared p = false → rd' p = sp.req p) : WellEntry sp rd' depth orig key where
  req := hreq
  key := hext.readStr h.key
  val := h.val.mono hext le_rfl fun _ => .mono hext le_rfl

/-- How the sizing pass has decided to store the value, at the context `c`. -/
inductive Stored (sp : Space) (rd : Mem) (ser : Serializer υ) (depth : Nat) (shm : Mem)
    (orig : Entry) (c : Ctxt) : Prop
  /-- As a graph that reads as `a`. -/
  | direct {a : Value} :
      c.useSerialization = false →
      readZval sp.zend rd (readHt sp.zend rd depth) orig.val = some a →
      Stored sp rd ser depth shm orig c
  /-- As the string `buf`. -/
  | serialized {m : Moment} {buf : Bytes} :
      c.useSerialization = true → c.serializedStr = some buf → orig.val.isScalar = false →
      ser.serialize m (sp.deref shm) orig.val = some buf →
      Stored sp rd ser depth shm orig c

/-- One object takes up at most all the memory of the process. -/
theorem Space.weight_lt (sp : Space) (p : Nat) : sp.weight p < 2 ^ 62 := by
  cases ho : sp.req p with
  | none => simp [Space.weight, ho]
  | some o =>
    calc sp.weight p ≤ ∑ q ∈ sp.objects, sp.weight q :=
          Finset.single_le_sum (fun _ _ => Nat.zero_le _) (sp.mem_objects ho)
      _ < 2 ^ 62 := sp.fits

/-- A string that can be read is counted with the bytes that it takes up, or not at all. -/
theorem calcStr_size_le (h : Extends rd (sp.deref c.shm))
    (hreq : ∀ p, sp.shared p = false → rd p = sp.req p) {p : Nat} {s : Bytes}
    (hs : readStr sp.zend rd p = some s) : (calcStr sp c p).size ≤ c.size + sp.weight p := by
  unfold calcStr
  split
  · omega
  next hp =>
    have hp : sp.shared p = false := by simpa using hp
    obtain ⟨o, ho, -, -⟩ := readStr_eq_some.1 hs
    have hsize := (calcMemoize_fields c p).1
    have hshm := (Grows.calcMemoize c p).shm
    split
    next c₁ he =>
      rw [he] at hsize
      exact (Nat.le_of_eq hsize).trans (Nat.le_add_right _ _)
    next c₁ he =>
      rw [he] at hsize hshm
      have hstr : sp.zstr c₁.shm p = o := by rw [Space.zstr, hshm, h ho]
      have hsz : c₁.size = c.size := hsize
      rw [hstr, Ctxt.addSizeStr, Ctxt.addSize, Space.weight, ← hreq p hp, ho, hsz]
      rfl

/-- Nothing has been counted at the start. -/
theorem Counted.nil {n : Nat} (h : c.alreadyCounted = []) : Counted sp rd n c := by
  intro k hk
  rw [h] at hk
  cases hk

/-- In direct form the sizing of a well-formed entry succeeds only if the value can be read. -/
theorem persistCalc_sized {ser : Serializer υ} {c₀ : Ctxt} (hw : WellEntry sp rd depth orig key)
    (h : Direct sp rd c₀) (hcounted : c₀.alreadyCounted = [])
    (hc : persistCalc sp ser depth c₀ orig = (true, c)) :
    Sized sp rd (c₀.addSize sizeofEntry) c ∧
      ∃ a, readZval sp.zend rd (readHt sp.zend rd depth) orig.val = some a := by
  have hk : Sized sp rd (c₀.addSize sizeofEntry) (calcStr sp (c₀.addSize sizeofEntry) orig.key) :=
    .calcStr hw.req (h.addSize _) hw.key
  have hcnt : Counted sp rd depth (c₀.addSize sizeofEntry) := .nil hcounted
  obtain ⟨hv, ha⟩ := (RejectsHt.ht hw.req le_rfl).zval hw.req hk.direct (hcnt.new hk.counted)
    hw.val hc
  exact ⟨hk.trans hv, ha⟩

/-- The size of an entry that is sized in direct form is bounded by the memory of the process. -/
theorem persistCalc_direct {ser : Serializer υ} {c₀ : Ctxt} (hw : WellEntry sp rd depth orig key)
    (h : Direct sp rd c₀) (hsize : c₀.size = 0) (hcounted : c₀.alreadyCounted = [])
    (hmemo : orig.val.isArray = true → c₀.memoizationNeeded = true)
    (hc : persistCalc sp ser depth c₀ orig = (true, c)) :
    c.useSerialization = false ∧
      (∃ a, readZval sp.zend rd (readHt sp.zend rd depth) orig.val = some a) ∧
      c.size < 2 ^ 63 + 64 := by
  have hk : Sized sp rd (c₀.addSize sizeofEntry) (calcStr sp (c₀.addSize sizeofEntry) orig.key) :=
    .calcStr hw.req (h.addSize _) hw.key
  have hkey := calcStr_size_le (h.addSize sizeofEntry).ext hw.req hw.key
  have hkw := sp.weight_lt orig.key
  have h64 : (c₀.addSize sizeofEntry).size = 64 := by
    rw [Ctxt.addSize, hsize]
    rfl
  obtain ⟨hv, a, ha⟩ := persistCalc_sized hw h hcounted hc
  refine ⟨hv.direct.ser, ⟨a, ha⟩, ?_⟩
  cases harr : orig.val with
  | array p rc =>
    obtain ⟨ps, hps⟩ := hv.tally (hmemo (by rw [harr]; rfl))
    have := hps.sum_lt
    rw [hps.size, h64]
    omega
  | string p rc =>
    rw [harr] at ha
    obtain ⟨s, hs, -⟩ := Option.map_eq_some_iff.1 ha
    have hval := calcStr_size_le hk.direct.ext hw.req hs
    have hvw := sp.weight_lt p
    rw [persistCalc, harr, calcZval_string hk.direct.ser] at hc
    obtain ⟨-, rfl⟩ := Prod.mk.inj hc
    omega
  | null | bool _ | long _ | double _ =>
    rw [persistCalc, harr] at hc
    obtain ⟨-, rfl⟩ := Prod.mk.inj hc
    omega
  | undef | object _ | resource _ | reference _ | indirect _ | ptr _ =>
    rw [harr] at ha
    cases ha

/-- In serialized form the sizing of an entry succeeds only if the serializer does. -/
theorem persistCalc_serialized {ser : Serializer υ} {c₀ : Ctxt}
    (hw : WellEntry sp rd depth orig key) (hext : Extends rd (sp.deref c₀.shm))
    (hser : c₀.useSerialization = true) (hsize : c₀.size = 0) (hs : orig.val.isScalar = false)
    (hc : persistCalc sp ser depth c₀ orig = (true, c)) :
    c.useSerialization = true ∧ c.size < 2 ^ 63 + 128 ∧ ∃ m buf, c.serializedStr = some buf ∧
      ser.serialize m (sp.deref c₀.shm) orig.val = some buf := by
  have hkey := calcStr_size_le (c := c₀.addSize sizeofEntry) hext hw.req hw.key
  have hshm : (calcStr sp (c₀.addSize sizeofEntry) orig.key).shm = c₀.shm :=
    (Grows.calcStr _ _).shm
  have hkw := sp.weight_lt orig.key
  have h64 : (c₀.addSize sizeofEntry).size = 64 := by
    rw [Ctxt.addSize, hsize]
    rfl
  have hform : (calcStr sp (c₀.addSize sizeofEntry) orig.key).useSerialization = true :=
    (calcStr_useSerialization _ _).trans hser
  rw [persistCalc, calcZval, hs, if_neg Bool.false_ne_true, hform, if_pos rfl, calcSerialize] at hc
  dsimp only at hc
  split at hc
  · cases hc
  next buf hbuf =>
    obtain ⟨-, rfl⟩ := Prod.mk.inj hc
    rw [hshm] at hbuf
    refine ⟨hform, ?_, _, buf, rfl, hbuf⟩
    have hlen := ser.serialize_lt hbuf
    dsimp only [Ctxt.addSizeStr, Ctxt.addSize, alignedSize, zstrStructSize] at hkey h64 ⊢
    omega

/-- A well-formed entry that is sized successfully is stored in one of the two forms, and its size
is far from wrapping. -/
theorem persistSize_stored (hw : WellEntry sp rd depth orig key) (hext : Extends rd (sp.deref shm))
    (h : persistSize sp php serializer depth shm k orig = (true, c)) :
    Stored sp rd (serializer.getD php) depth shm orig c ∧ c.size < 2 ^ 63 + 128 := by
  obtain ⟨u, warnings, k', m, x, hc, hu, hu'⟩ := persistSize_calc h
  cases u with
  | false =>
    obtain ⟨-, harr⟩ := hu rfl
    obtain ⟨h1, ⟨a, ha⟩, h3⟩ := persistCalc_direct hw ⟨hext, rfl⟩ rfl rfl (fun h => by
      cases hs : serializer with
      | none => simpa [hs] using h
      | some s => simp [hs, h] at harr) hc
    exact ⟨.direct h1 ha, by omega⟩
  | true =>
    obtain ⟨h1, h2, k'', buf, h3, h4⟩ := persistCalc_serialized hw hext rfl rfl (hu' rfl) hc
    exact ⟨.serialized h1 h3 (hu' rfl) h4, h2⟩

/-- A value that can be read is sized in direct form, unless it is an array and a serializer is
set. -/
theorem persistSize_readable (hext : Extends rd (sp.deref shm)) {a : Value}
    (ha : readZval sp.zend rd (readHt sp.zend rd depth) orig.val = some a)
    (hser : (serializer.isSome && orig.val.isArray) = false) :
    ∃ c, persistSize sp php serializer depth shm k orig = (true, c) ∧
      c.useSerialization = false := by
  have hobj : orig.val.isObject = false := by
    cases hv : orig.val with
    | object p => rw [hv] at ha; cases ha
    | _ => rfl
  have h0 : Direct sp rd { Ctxt.initContext shm [] k 0 false with
      memoizationNeeded := serializer.isNone && orig.val.isArray
      useSerialization := orig.val.isObject || (serializer.isSome && orig.val.isArray) } :=
    ⟨hext, by simp [hobj, hser]⟩
  have haccepts : Accepts sp rd depth
      (calcZval sp (serializer.getD php) (calcHt sp (serializer.getD php) depth)) :=
    calcZval_accepts fun hd hr => calcHt_accepts (le_refl depth) hd hr
  obtain ⟨c, hc, hd⟩ := haccepts ((h0.addSize sizeofEntry).calcStr orig.key) ha
  refine ⟨c, ?_, hd.ser⟩
  unfold persistSize
  dsimp only
  rw [persistCalc, hc]

/-! ## The copy of an entry -/

/-- The value `v` that the copy has for `orig` in the memory `rd'`, when it was sized at `c`. -/
def CopiedVal (sp : Space) (P : Nat → Prop) (rd shm : Mem) (depth : Nat) (c : Ctxt) (orig v : Zval) :
    Prop :=
  if c.useSerialization then ∃ q buf, v = .ptr q ∧ P q ∧ c.serializedStr = some buf ∧
    FrozenStr sp.zend (sp.deref shm) q buf
  else v.Frozen P shm ∧ ∃ a, readZval sp.zend rd (readHt sp.zend rd depth) orig = some a ∧
    readZval sp.zend (sp.deref shm) (readHt sp.zend (sp.deref shm) depth) v = some a

/-- The memory `shm'` after the copy of `orig`, sized at `c`, into the block at `alloc` of the
memory `shm`. -/
structure Copied (sp : Space) (P : Nat → Prop) (rd : Mem) (depth : Nat) (c : Ctxt) (orig : Entry)
    (key : Bytes) (alloc : Nat) (shm shm' : Mem) : Prop where
  nonempty : 0 < c.size
  ext : Extends shm shm'
  outside : ∀ q, q < alloc ∨ alloc + c.size ≤ q → shm' q = shm q
  frozen : ∀ q o, alloc ≤ q → q < alloc + c.size → shm' q = some o → o.Frozen sp.zend P shm'
  entry : ∃ kp v, shm' alloc = some (.entry { orig with key := kp, val := v, memSize := c.size }) ∧
    P kp ∧ FrozenStr sp.zend (sp.deref shm') kp key ∧ CopiedVal sp P rd shm' depth c orig.val v

/-- A value that has been copied stays so in a larger memory. -/
theorem CopiedVal.mono {v v' : Zval} (h : CopiedVal sp P rd shm depth c v v')
    (hext : Extends shm shm') : CopiedVal sp P rd shm' depth c v v' := by
  unfold CopiedVal at h ⊢
  split
  next hu =>
    rw [if_pos hu] at h
    obtain ⟨q, buf, hv, hP, hbuf, hstr⟩ := h
    exact ⟨q, buf, hv, hP, hbuf, hstr.mono hext.deref⟩
  next hu =>
    rw [if_neg hu] at h
    obtain ⟨hfr, a, ha, ha'⟩ := h
    exact ⟨hfr.mono (fun _ => id) hext.retains, a, ha,
      hext.deref.readZval (fun p a => hext.deref.readHt le_rfl p a) _ a ha'⟩

/-- A frozen string in the shared segments is a frozen key. -/
theorem FrozenStr.frozenKey (hs : Source sp P rd) {q : Nat} {s : Bytes} (hP : P q)
    (h : FrozenStr sp.zend (sp.deref shm) q s) : FrozenKey P shm q := by
  obtain ⟨o, ho, -⟩ := h
  rw [Space.deref_shared (hs.shared q hP)] at ho
  exact ⟨hP, o, ho⟩

/-- The copied value is one that an entry may hold. -/
theorem CopiedVal.frozen (hs : Source sp P rd) {v v' : Zval}
    (h : CopiedVal sp P rd shm depth c v v') :
    v'.Frozen P shm ∨ ∃ q, v' = .ptr q ∧ FrozenKey P shm q := by
  unfold CopiedVal at h
  split at h
  · obtain ⟨q, buf, hv, hP, -, hstr⟩ := h
    exact .inr ⟨q, hv, hstr.frozenKey hs hP⟩
  · exact .inl h.1

/-- What a successful sizing has done to the context. -/
theorem persistCalc_grows {ser : Serializer υ} {c₀ : Ctxt}
    (h : persistCalc sp ser depth c₀ orig = (true, c)) : Grows c₀ c := by
  have hg : Grows c₀ (persistCalc sp ser depth c₀ orig).2 := .persistCalc depth c₀ orig
  rwa [h] at hg

/-- Sizing an entry writes nothing. -/
theorem persistSize_allocated (h : persistSize sp php serializer depth shm k orig = (true, c)) :
    c.alreadyAllocated = [] := by
  obtain ⟨u, warnings, k', m, x, hc, -⟩ := persistSize_calc h
  have hg := persistCalc_grows hc
  exact hg.allocated

/-- The value of the entry, copied in the form that it was sized in. -/
theorem Copying.copyVal {base lim : Nat} (hs : Source sp P rd)
    (h : Copying sp P rd base lim depth d) (hser : d.useSerialization = c.useSerialization)
    (hstr : d.serializedStr = c.serializedStr) {ser : Serializer υ}
    (hst : Stored sp rd ser depth shm orig c)
    (hl : (copyZval sp (copyHt sp depth) d orig.val).2.allocCur ≤ lim) :
    Copying sp P rd base lim depth (copyZval sp (copyHt sp depth) d orig.val).2 ∧
      CopiedVal sp P rd (copyZval sp (copyHt sp depth) d orig.val).2.shm depth c orig.val
        (copyZval sp (copyHt sp depth) d orig.val).1 := by
  cases hst with
  | direct hu ha =>
    obtain ⟨h1, -, h3, h4⟩ := TableCopy.zval hs (TableCopy.ht hs le_rfl) h (hser.trans hu) ha hl
    refine ⟨h1, ?_⟩
    rw [CopiedVal, hu, if_neg Bool.false_ne_true]
    exact ⟨h3, _, ha, h4⟩
  | serialized hu hbuf hv _ =>
    rename_i buf _
    have heq : copyZval sp (copyHt sp depth) d orig.val =
        (.ptr d.allocCur, (ImmutableCache.copyCstr sp d buf 0).2) := by
      rw [copyZval, hv, if_neg Bool.false_ne_true, hser, hu, if_pos rfl, copySerialize, hstr, hbuf]
      rfl
    rw [heq] at hl ⊢
    obtain ⟨h1, h2, h3⟩ := h.copyCstr hs (o := ⟨true, 0, buf⟩) (.inl rfl) hl
    refine ⟨h1, ?_⟩
    rw [CopiedVal, hu, if_pos rfl]
    exact ⟨d.allocCur, buf, rfl, h2, hbuf, h3⟩

/-- The start of the copying pass, in a fresh block. -/
theorem Copying.fresh (hext : Extends rd (sp.deref shm)) {lim n : Nat}
    (hc : c.alreadyAllocated = []) (hroom : ∀ q, alloc ≤ q → q < lim → shm q = none ∧ P q) :
    Copying sp P rd alloc lim n { c with alloc := alloc, allocCur := alloc, shm := shm } := by
  refine { start := le_rfl, ext := hext, room := hroom, frozen := ?_, memo := ?_ }
  · intro q o h1 h2
    exact absurd h1 (Nat.not_le.2 h2)
  · intro p q hp _ hq
    simp [getAlreadyAllocated, hp, hc] at hq

/-- The copy of a well-formed entry into a fresh block of its size. -/
theorem persistFill_copied (hs : Source sp P rd) (hw : WellEntry sp rd depth orig key)
    (hext : Extends rd (sp.deref shm)) (hext' : Extends rd (sp.deref shm'))
    (h : persistSize sp php serializer depth shm k orig = (true, c))
    (hroom : ∀ q, alloc ≤ q → q < alloc + c.size → shm' q = none ∧ P q) :
    (persistFill sp depth c shm' alloc orig).1 = alloc ∧
      Copied sp P rd depth c orig key alloc shm' (persistFill sp depth c shm' alloc orig).2.shm := by
  have hst := (persistSize_stored hw hext h).1
  have hend := (persistFill_inStep h shm' alloc).cur
  have h₀ : Copying sp P rd alloc (alloc + c.size) depth
      { c with alloc := alloc, allocCur := alloc, shm := shm' } :=
    .fresh hext' (persistSize_allocated h) hroom
  refine ⟨rfl, ?_⟩
  unfold persistFill persistCopy at hend ⊢
  dsimp only [Ctxt.write_allocCur] at hend ⊢
  generalize hd₀ : { c with alloc := alloc, allocCur := alloc, shm := shm' } = d₀ at hend h₀ ⊢
  generalize hd₁ : (d₀.persistAlloc sizeofEntry).2 = d₁ at hend ⊢
  have hf₁ : Fills d₀ d₁ := hd₁ ▸ .persistAlloc d₀ sizeofEntry
  have hf₂ : Fills d₁ (getOrCopyZstr sp d₁ orig.key).2 := .getOrCopyZstr d₁ orig.key
  have hf₃ : Fills (getOrCopyZstr sp d₁ orig.key).2
      (copyZval sp (copyHt sp depth) (getOrCopyZstr sp d₁ orig.key).2 orig.val).2 :=
    .copyZval (.copyHt depth) _ _
  have hcur₀ : d₀.allocCur = alloc := by rw [← hd₀]
  have hcur₁ : d₁.allocCur = alloc + alignedSize sizeofEntry := by
    rw [← hd₁, Ctxt.persistAlloc_allocCur, hcur₀]
  have hpos : 0 < alignedSize sizeofEntry := by decide
  -- the pieces are allocated one after the other, up to the end of the block
  have h₁ : Copying sp P rd alloc (alloc + c.size) depth d₁ := by
    rw [← hd₁]
    refine h₀.persistAlloc ?_
    rw [hd₁]
    exact hf₂.cur.trans (hf₃.cur.trans hend.le)
  obtain ⟨h₂, -, hP, hkey⟩ := h₁.getOrCopyZstr hs hw.key (hf₃.cur.trans hend.le)
  obtain ⟨h₃, hval⟩ := h₂.copyVal hs (c := c) (hf₂.ser.trans (by rw [← hd₁, ← hd₀]; rfl))
    (hf₂.str.trans (by rw [← hd₁, ← hd₀]; rfl)) hst hend.le
  have hsize : (copyZval sp (copyHt sp depth) (getOrCopyZstr sp d₁ orig.key).2 orig.val).2.size =
      c.size := by rw [((hf₁.trans hf₂).trans hf₃).size, ← hd₀]
  have hf := (hf₁.trans hf₂).trans hf₃
  have hext₃ := h₂.extends_fills hf₃ hend.le
  generalize copyZval sp (copyHt sp depth) (getOrCopyZstr sp d₁ orig.key).2 orig.val = r at *
  generalize getOrCopyZstr sp d₁ orig.key = r₂ at *
  have hshm₀ : d₀.shm = shm' := by rw [← hd₀]
  have hne : d₀.allocCur < r.2.allocCur := by
    have := hf₂.cur
    have := hf₃.cur
    omega
  have hnone : r.2.shm alloc = none := by
    rw [(hf₂.trans hf₃).shm alloc (by omega), ← hd₁, Ctxt.persistAlloc_shm, hshm₀]
    exact (hroom alloc le_rfl (by omega)).1
  rw [Ctxt.persistAlloc_fst, hcur₀, hsize]
  have hext₄ : Extends r.2.shm (r.2.write alloc (.entry { orig with
    key := r₂.1, val := r.1, memSize := c.size })).shm := extends_write hnone
  have hkey' := (hkey.mono hext₃.deref).mono hext₄.deref
  have hval' := hval.mono hext₄
  refine { nonempty := by omega, ext := ?_, outside := ?_, frozen := ?_, entry := ?_ }
  · rw [← hshm₀]
    exact (h₀.extends_fills hf hend.le).trans hext₄
  · intro q hq
    rw [Ctxt.write_shm_of_ne (by omega), hf.shm q (by omega), hshm₀]
  · intro q o h1 h2 ho
    rcases of_write_shm ho with ⟨-, rfl⟩ | ho
    · exact ⟨hkey'.frozenKey hs hP, hval'.frozen hs⟩
    · exact (h₃.frozen q o h1 (by omega) ho).mono (fun _ => id) hext₄.retains
  · exact ⟨r₂.1, r.1, Ctxt.write_shm_self _ _ _, hP, hkey', hval'⟩

/-! ## The allocations of the copy -/

/-- The copy of the entry allocates memo entries in the request heap: an array that is stored
directly, when it or its key is not in the shared segments. -/
def CopyAllocates (sp : Space) (rd : Mem) (depth : Nat) (serializer : Option (Serializer υ))
    (orig : Entry) : Prop :=
  serializer.isNone = true ∧ ∃ p rc a, orig.val = .array p rc ∧
    readHt sp.zend rd depth p = some a ∧ (sp.shared p = false ∨ sp.shared orig.key = false)

/-- Strings and arrays in the shared segments need no memo entry. -/
theorem persistFill_emallocs_shared {p : Nat} {rc : Bool} (hv : orig.val = .array p rc)
    (hser : c.useSerialization = false) (hp : sp.shared p = true)
    (hk : sp.shared orig.key = true) :
    (persistFill sp depth c shm alloc orig).2.emallocs = c.emallocs := by
  simp [persistFill, persistCopy, getOrCopyZstr, getAlreadyAllocated, hk, copyZval, hv, hp, hser,
    Zval.isScalar, Zval.counted, Ctxt.persistAlloc, Ctxt.write]

/-- Otherwise the copy of a well-formed entry allocates nothing in the request heap. -/
theorem persistFill_emallocs (hw : WellEntry sp rd depth orig key)
    (hext : Extends rd (sp.deref shm))
    (h : persistSize sp php serializer depth shm k orig = (true, c))
    (hn : ¬ CopyAllocates sp rd depth serializer orig) :
    (persistFill sp depth c shm' alloc orig).2.emallocs = c.emallocs := by
  obtain ⟨u, warnings, k', m, x, hc, -⟩ := persistSize_calc h
  have hg := persistCalc_grows hc
  have hmemo : c.memoizationNeeded = (!u && (serializer.isNone && orig.val.isArray)) := hg.memo
  cases hm : c.memoizationNeeded with
  | false =>
    exact (Fills.persistCopy depth { c with alloc, allocCur := alloc, shm := shm' } orig).emallocs hm
  | true =>
    -- an array in direct form
    rw [hm] at hmemo
    obtain ⟨hu, hser, harr⟩ : u = false ∧ serializer.isNone = true ∧ orig.val.isArray = true := by
      simpa using hmemo.symm
    subst hu
    obtain ⟨h1, ⟨a, ha⟩, -⟩ := persistCalc_direct hw ⟨hext, rfl⟩ rfl rfl
      (fun h => by simp [hser, h]) hc
    obtain ⟨p, rc, hv⟩ : ∃ p rc, orig.val = .array p rc := by
      cases hv : orig.val <;> simp [hv, Zval.isArray] at harr
      exact ⟨_, _, rfl⟩
    rw [hv] at ha
    have hsh : ¬ (sp.shared p = false ∨ sp.shared orig.key = false) :=
      fun hs => hn ⟨hser, p, rc, a, hv, ha, hs⟩
    simp only [not_or, Bool.not_eq_false] at hsh
    exact persistFill_emallocs_shared hv h1 hsh.1 hsh.2

end ImmutableCache
