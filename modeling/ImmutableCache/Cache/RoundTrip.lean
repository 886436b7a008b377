import ImmutableCache.Cache.History

/-!
# Persisting and unpersisting

What `immutable_cache_unpersist` gives for the value of an entry that `immutable_cache_persist` has
just made: a value that is shared as a graph reads the same as the original one, and any other is
what the serializer's two functions make of it.
-/

namespace ImmutableCache

open Bail

variable {υ : Type} {z : Zend} {pool : Pool} {sp : Space} {rd shm : Mem} {P : Nat → Prop}
  {w w' w₀ : World υ} {php : Serializer υ} {evs : List (Event υ)} {orig : Entry} {k : Bytes}
  {depth n p : Nat} {v : Zval} {a : Value} {serializer : Option (Serializer υ)} {c : Ctxt}

/-- An array of holes has no elements. -/
theorem readPacked_holes {f : Zval → Option Value} {idx : Nat} {vs : List Zval}
    {els : List (Key × Value)} (h : readPacked f idx vs = some els)
    (hn : vs.countP (· ≠ .undef) = 0) : els = [] := by
  induction vs generalizing idx els with
  | nil => cases h; rfl
  | cons v vs ih =>
    obtain ⟨hv, h⟩ | ⟨hv, -⟩ := readPacked_cons.1 h
    · exact ih h (by simpa [hv] using hn)
    · simp [hv] at hn

/-- A hash of holes has no elements. -/
theorem readBuckets_holes {f : Zval → Option Value} {bs : List Bucket} {els : List (Key × Value)}
    (h : readBuckets z rd f bs = some els) (hn : bs.countP (·.val ≠ .undef) = 0) : els = [] := by
  induction bs generalizing els with
  | nil => cases h; rfl
  | cons b bs ih =>
    obtain ⟨hv, h⟩ | ⟨hv, -⟩ := readBuckets_cons.1 h
    · exact ih h (by simpa [hv] using hn)
    · simp [hv] at hn

/-- An array with no elements reads as such. -/
theorem readHt_noElements {t : HashTable} (h : readHt z rd n p = some a) (ht : rd p = some (.ht t))
    (hn : t.nNumOfElements = 0) : a = .array [] := by
  obtain ⟨n, rfl⟩ : ∃ m, n = m + 1 := by
    cases n with
    | zero => cases h
    | succ n => exact ⟨n, rfl⟩
  obtain ⟨t', ht', hcase⟩ := readHt_succ.1 h
  obtain rfl : t = t' := by simpa [ht] using ht'
  obtain ⟨-, -, rfl⟩ | ⟨-, -, hash, vs, els, -, -, hcount, hels, rfl⟩ |
    ⟨-, -, hash, bs, els, -, -, hcount, hels, rfl⟩ := hcase
  · rfl
  · rw [readPacked_holes hels (hcount ▸ hn)]
  · rw [readBuckets_holes hels (hcount ▸ hn)]

/-- The engine's empty array has no elements. -/
theorem Space.On.readHt_emptyArray (hon : sp.On pool z) (shm : Mem) (n : Nat) :
    readHt z (sp.deref shm) (n + 1) z.emptyArray = some (.array []) := by
  obtain ⟨hs, t, ht, h1, h2⟩ := hon.emptyArray
  refine readHt_succ.2 ⟨t, ?_, .inl ⟨h1, h2, rfl⟩⟩
  rw [Space.deref_req hs]
  exact ht

/-- Unpersisting a value that is shared as a graph gives one that reads the same. -/
theorem unpersist_read {ser : Serializer υ} (hon : sp.On pool sp.zend)
    (hv : v.Frozen P shm)
    (ha : readZval sp.zend (sp.deref shm) (readHt sp.zend (sp.deref shm) depth) v = some a) :
    ∃ u, unpersist sp shm ser v = (true, .zval u) ∧
      readZval sp.zend (sp.deref shm) (readHt sp.zend (sp.deref shm) depth) u = some a := by
  cases v with
  | undef | null | bool _ | long _ | double _ | string _ _ => exact ⟨_, rfl, ha⟩
  | array p rc =>
    simp only [unpersist, unpersistZval]
    split
    next hn =>
      refine ⟨_, rfl, ?_⟩
      cases depth with
      | zero => cases ha
      | succ depth =>
        obtain ⟨t, ht, -⟩ := readHt_succ.1 ha
        rw [Space.ht, ht] at hn
        rw [readHt_noElements ha ht hn]
        exact hon.readHt_emptyArray shm depth
    next hn => exact ⟨_, rfl, ha⟩
  | object _ | resource _ | reference _ | indirect _ | ptr _ => exact hv.elim

/-- An array is stored in serialized form if a serializer is set. -/
theorem persistSize_serialized (hw : WellEntry sp rd depth orig k)
    (hext : Extends rd (sp.deref shm)) (hser : (serializer.isSome && orig.val.isArray) = true)
    (h : persistSize sp php serializer depth shm n orig = (true, c)) :
    c.useSerialization = true := by
  obtain ⟨u, warnings, k', m, x, hc, hu, hu'⟩ := persistSize_calc h
  cases u with
  | false =>
    rw [(hu rfl).2] at hser
    cases hser
  | true => exact (persistCalc_serialized hw hext rfl rfl (hu' rfl) hc).1

/-- In every state that a cache can come to, and for every well-formed entry that
`immutable_cache_persist` copies: if its value is a graph of scalars, strings and arrays, which is
not an array for another serializer, `immutable_cache_unpersist` gives a value that reads the same.
Any other value is tagged, and `immutable_cache_unpersist` unserializes what the serializer made of
it. -/
theorem persist_unpersist (hc : Created pool w₀) (h : Run (Step pool z php) w₀ evs w)
    (hon : sp.On pool z) (hw : WellEntry sp (w.view sp) depth orig k)
    (hp : persist pool sp php depth orig w = .ok (some p) w') :
    (∀ a, readZval z (w.view sp) (readHt z (w.view sp) depth) orig.val = some a →
        (w.serializer.isSome && orig.val.isArray) = false →
          (∀ q, (entryAt w'.shm p).val ≠ .ptr q) ∧
          ∃ u, unpersist sp w'.shm (w.serializer.getD php) (entryAt w'.shm p).val =
              (true, .zval u) ∧
            readZval z (sp.deref w'.shm) (readHt z (sp.deref w'.shm) depth) u = some a) ∧
      (((∀ a, readZval z (w.view sp) (readHt z (w.view sp) depth) orig.val ≠ some a) ∨
          (w.serializer.isSome && orig.val.isArray) = true) →
        ∃ q i buf, (entryAt w'.shm p).val = .ptr q ∧
          (w.serializer.getD php).serialize i (sp.deref w.shm) orig.val = some buf ∧
          unpersist sp w'.shm (w.serializer.getD php) (entryAt w'.shm p).val =
            match (w.serializer.getD php).unserialize buf with
            | some x => (true, .unserialized x)
            | none => (false, .zval .null)) := by
  obtain ⟨es, live, hinv⟩ := run_inv hc h
  have hz := hon.zend
  subst hz
  rw [hinv.view_eq] at hw ⊢
  have hext : Extends (view sp w.shm es) (sp.deref w.shm) := extends_view fun _ _ _ _ ho => ho
  obtain ⟨c, sz, hd⟩ := hinv.persist_draft hon hw hp
  obtain ⟨kp, v, he, -, hP, -, hval⟩ := hd.entry hinv
  have hsh := fun q (hq : PubOr w.shm es p c.size q) => hd.pubOr_shared hinv hon hq
  rw [entryAt_eq he]
  unfold CopiedVal at hval
  obtain ⟨hst, -⟩ := persistSize_stored hw hext hd.sized
  refine ⟨fun a ha hser => ?_, fun hform => ?_⟩
  · obtain ⟨c', hc', hu⟩ : ∃ c', persistSize sp php w.serializer depth w.shm w.serializations orig =
        (true, c') ∧ c'.useSerialization = false := persistSize_readable hext ha hser
    obtain rfl : c' = c := (Prod.mk.inj (hc'.symm.trans hd.sized)).2
    rw [hu, if_neg Bool.false_ne_true] at hval
    obtain ⟨hfr, a', ha', hread⟩ := hval
    obtain rfl : a' = a := Option.some.inj (ha'.symm.trans ha)
    refine ⟨?_, unpersist_read hon hfr hread⟩
    rintro q rfl
    exact hfr
  · have hu : c.useSerialization = true := by
      obtain hno | hser := hform
      · cases hst with
        | direct _ ha => exact absurd ha (hno _)
        | serialized hu _ _ _ => exact hu
      · exact persistSize_serialized hw hext hser hd.sized
    rw [hu, if_pos rfl] at hval
    obtain ⟨q, buf, rfl, hq, hbuf, o, ho, -, -, rfl⟩ := hval
    cases hst with
    | direct hno _ =>
      rw [hu] at hno
      cases hno
    | serialized _ hbuf' _ hser =>
      obtain rfl := Option.some.inj (hbuf'.symm.trans hbuf)
      refine ⟨q, _, _, rfl, hser, ?_⟩
      have hbytes : (sp.zstr w'.shm q).val = o.val := by rw [Space.zstr, ho]
      cases hx : (w.serializer.getD php).unserialize o.val with
      | some x => rw [unpersist, hbytes, hx]
      | none => rw [unpersist, hbytes, hx]

/-- The array `["b"]` in the small cache. -/
theorem persist_unpersist_small : ∃ p w',
    persist Small.pool Small.sp Small.php 1 (initEntry 104 (.array 168 true) 0)
        (Small.start (Small.env none)) = .ok (some p) w' ∧
      ∃ u, unpersist Small.sp w'.shm Small.php (entryAt w'.shm p).val = (true, .zval u) ∧
        readZval Small.zend (Small.sp.deref w'.shm)
          (readHt Small.zend (Small.sp.deref w'.shm) 1) u =
          some (.array [(.int 0, .string [98])]) := by
  have hgives : Small.gives (persist Small.pool Small.sp Small.php 1
      (initEntry 104 (.array 168 true) 0)) (Small.start (Small.env none)) Option.isSome = true := by
    decide +kernel
  obtain ⟨r, w', hr, hsome⟩ := Small.of_gives hgives
  obtain ⟨p, rfl⟩ := Option.isSome_iff_exists.1 hsome
  obtain ⟨hon, k, hw⟩ := Small.storeArray_legal (Small.start (Small.env none))
  have hread : readZval Small.zend ((Small.start (Small.env none)).view Small.sp)
      (readHt Small.zend ((Small.start (Small.env none)).view Small.sp) 1) (.array 168 true) =
      some (.array [(.int 0, .string [98])]) := by rfl
  obtain ⟨-, hu⟩ := (persist_unpersist Small.created .nil hon hw hr).1 _ hread rfl
  exact ⟨p, w', hr, hu⟩

end ImmutableCache
