import ImmutableCache.Cache.History

/-!
# How often an entry is serialized

In direct form a sizing pass serializes nothing; in serialized form it is one call of `serialize`,
on the value itself. `immutable_cache_persist` sizes a second time, with serialization, whenever the
first pass has failed and the context's `use_serialization` is set. That flag is set by the first
pass when it meets an object, a reference or an `INDIRECT` slot, but it is also set before the
first pass if the value is an object, or an array and a serializer is configured. Then the first
pass is already a serialization, and its failure is followed by another call
(`persist_serializesOnce`).
-/

namespace ImmutableCache

open Bail

variable {υ : Type} {pool : Pool} {sp : Space} {w w' : World υ} {php ser : Serializer υ}
  {serializer : Option (Serializer υ)} {shm : Mem} {depth k m n : Nat} {orig : Entry} {c c' : Ctxt}

/-! ## A sizing pass -/

/-- Started in direct form, a sizing step serializes nothing, and it is in direct form when it
succeeds. -/
def Plain {α : Type} (f : Ctxt → α → Bool × Ctxt) : Prop :=
  ∀ c a, c.useSerialization = false → (f c a).2.serializations = c.serializations ∧
    ((f c a).1 = true → (f c a).2.useSerialization = false)

/-- Counting an address serializes nothing and throws nothing. -/
theorem calcMemoize_moment (c : Ctxt) (p : Nat) :
    (calcMemoize c p).2.serializations = c.serializations ∧
      (calcMemoize c p).2.exception = c.exception := by
  unfold calcMemoize
  split
  · exact ⟨rfl, rfl⟩
  · split <;> exact ⟨rfl, rfl⟩

/-- Neither does counting a string. -/
theorem calcStr_moment (c : Ctxt) (p : Nat) :
    (calcStr sp c p).serializations = c.serializations ∧
      (calcStr sp c p).exception = c.exception := by
  have hm := calcMemoize_moment c p
  unfold calcStr
  split
  · exact ⟨rfl, rfl⟩
  · split
    next he => rwa [he] at hm
    next he => rwa [he] at hm

namespace Plain

/-- A zval is sized in direct form if a table is. -/
theorem calcZval {f : Ctxt → HashTable → Bool × Ctxt} (hf : Plain f) :
    Plain (calcZval sp ser f) := by
  intro c zv h
  unfold ImmutableCache.calcZval
  split
  · exact ⟨rfl, fun _ => h⟩
  rw [if_neg (ne_true_of_eq_false h)]
  split
  · exact ⟨rfl, fun _ => h⟩
  have hs := (calcMemoize_moment c zv.counted).1
  have hu := (calcMemoize_fields c zv.counted).2.trans h
  generalize ImmutableCache.calcMemoize c zv.counted = r at hs hu ⊢
  obtain ⟨seen, c₁⟩ := r
  cases seen with
  | true => exact ⟨hs, fun _ => hu⟩
  | false =>
    cases zv with
    | array p rc => exact ⟨(hf c₁ _ hu).1.trans hs, (hf c₁ _ hu).2⟩
    | string _ _ => exact ⟨hs, fun _ => hu⟩
    | undef | null | bool _ | long _ | double _ | resource _ | reference _ | object _
    | indirect _ | ptr _ => exact ⟨hs, nofun⟩

/-- The loop over a packed table. -/
theorem calcPacked {f : Ctxt → Zval → Bool × Ctxt} (hf : Plain f) : Plain (calcPacked f) := by
  intro c vs h
  induction vs generalizing c with
  | nil => exact ⟨rfl, fun _ => h⟩
  | cons v vs ih =>
    obtain ⟨hs, hu⟩ := hf c v h
    rw [ImmutableCache.calcPacked]
    split
    next hc =>
      rw [hc] at hs
      exact ⟨hs, fun hok => absurd hok Bool.false_ne_true⟩
    next c₁ hc =>
      rw [hc] at hs hu
      exact ⟨(ih c₁ (hu rfl)).1.trans hs, (ih c₁ (hu rfl)).2⟩

/-- The loop over the buckets of a hash. -/
theorem calcBuckets {f : Ctxt → Zval → Bool × Ctxt} (hf : Plain f) : Plain (calcBuckets sp f) := by
  intro c bs h
  induction bs generalizing c with
  | nil => exact ⟨rfl, fun _ => h⟩
  | cons b bs ih =>
    rw [ImmutableCache.calcBuckets]
    split
    · exact ih c h
    split
    · exact ⟨rfl, fun hok => absurd hok Bool.false_ne_true⟩
    have hk : (calcKey sp c b.key).serializations = c.serializations ∧
        (calcKey sp c b.key).useSerialization = false := by
      cases b.key with
      | none => exact ⟨rfl, h⟩
      | some q => exact ⟨(calcStr_moment c q).1, (calcStr_useSerialization c q).trans h⟩
    obtain ⟨hs, hu⟩ := hf _ b.val hk.2
    split
    next hc =>
      rw [hc] at hs
      exact ⟨hs.trans hk.1, fun hok => absurd hok Bool.false_ne_true⟩
    next c₁ hc =>
      rw [hc] at hs hu
      exact ⟨(ih c₁ (hu rfl)).1.trans (hs.trans hk.1), (ih c₁ (hu rfl)).2⟩

/-- A table, by induction on the depth. -/
theorem calcHt (depth : Nat) : Plain (calcHt sp ser depth) := by
  induction depth with
  | zero => exact fun c _ h => ⟨rfl, nofun⟩
  | succ depth ih =>
    intro c ht h
    rw [ImmutableCache.calcHt]
    split
    · exact ⟨rfl, fun _ => h⟩
    split
    · exact ih.calcZval.calcPacked (_ : Ctxt) _ h
    · exact ih.calcZval.calcBuckets (_ : Ctxt) _ h

/-- An entry whose sizing pass starts in direct form. -/
theorem persistCalc (depth : Nat) : Plain (persistCalc sp ser depth) := by
  intro c orig h
  have hv : Plain (ImmutableCache.calcZval sp ser (ImmutableCache.calcHt sp ser depth)) :=
    (Plain.calcHt depth).calcZval
  obtain ⟨hs, hu⟩ := hv (calcStr sp (c.addSize sizeofEntry) orig.key) orig.val
    ((calcStr_useSerialization _ _).trans h)
  exact ⟨hs.trans (calcStr_moment _ _).1, hu⟩

end Plain

/-- What sizing in serialized form does to the context: one call and one allocation, whether the
value is accepted or not. -/
theorem calcSerialize_fields (sp : Space) (ser : Serializer υ) (c : Ctxt) (zv : Zval) :
    (calcSerialize sp ser c zv).1 =
        (ser.serialize ⟨c.serializations, sp.exception || c.exception⟩ (sp.deref c.shm) zv).isSome ∧
      (calcSerialize sp ser c zv).2.serializations = c.serializations + 1 ∧
      (calcSerialize sp ser c zv).2.useSerialization = c.useSerialization ∧
      (calcSerialize sp ser c zv).2.emallocs = c.emallocs + 1 := by
  unfold calcSerialize
  dsimp only
  cases ser.serialize ⟨c.serializations, sp.exception || c.exception⟩ (sp.deref c.shm) zv <;>
    exact ⟨rfl, rfl, rfl, rfl⟩

/-- Without the memo table counting a string allocates nothing. -/
theorem calcStr_emallocs (h : c.memoizationNeeded = false) (p : Nat) :
    (calcStr sp c p).emallocs = c.emallocs := by
  unfold calcStr calcMemoize
  rw [h]
  split <;> rfl

/-- In serialized form the sizing of an entry that is not a scalar is one call of `serialize`. -/
theorem persistCalc_serializes (sp : Space) (ser : Serializer υ) (depth : Nat)
    (h : c.useSerialization = true) (hmemo : c.memoizationNeeded = false)
    (hs : orig.val.isScalar = false) :
    (persistCalc sp ser depth c orig).1 =
        (ser.serialize ⟨c.serializations, sp.exception || c.exception⟩ (sp.deref c.shm)
          orig.val).isSome ∧
      (persistCalc sp ser depth c orig).2.serializations = c.serializations + 1 ∧
      (persistCalc sp ser depth c orig).2.useSerialization = true ∧
      (persistCalc sp ser depth c orig).2.emallocs = c.emallocs + 1 := by
  rw [persistCalc]
  have hu : (calcStr sp (c.addSize sizeofEntry) orig.key).useSerialization = true :=
    (calcStr_useSerialization _ _).trans h
  have hk : (calcStr sp (c.addSize sizeofEntry) orig.key).serializations = c.serializations :=
    (calcStr_moment _ _).1
  have hx : (calcStr sp (c.addSize sizeofEntry) orig.key).exception = c.exception :=
    (calcStr_moment _ _).2
  have hm : (calcStr sp (c.addSize sizeofEntry) orig.key).shm = c.shm := (Grows.calcStr _ _).shm
  have he : (calcStr sp (c.addSize sizeofEntry) orig.key).emallocs = c.emallocs :=
    calcStr_emallocs (c := c.addSize sizeofEntry) hmemo _
  generalize calcStr sp (c.addSize sizeofEntry) orig.key = c₁ at hu hk hx hm he ⊢
  rw [calcZval, hs, if_neg Bool.false_ne_true, hu, if_pos rfl, ← hk, ← hx, ← hm, ← he]
  obtain ⟨h1, h2, h3, h4⟩ := calcSerialize_fields sp ser c₁ orig.val
  exact ⟨h1, h2, h3.trans hu, h4⟩

/-! ## Both sizing passes -/

/-- `immutable_cache_persist` sets `use_serialization` before the first pass. -/
def serializedFirst (serializer : Option (Serializer υ)) (val : Zval) : Bool :=
  val.isObject || (serializer.isSome && val.isArray)

/-- The context of the first pass. -/
def Ctxt.first (serializer : Option (Serializer υ)) (shm : Mem) (k : Nat) (orig : Entry) : Ctxt :=
  { Ctxt.initContext shm [] k 0 false with
    memoizationNeeded := serializer.isNone && orig.val.isArray
    useSerialization := serializedFirst serializer orig.val }

/-- The context of the second pass, when the first one has failed at `c`. -/
def Ctxt.retry (shm : Mem) (c : Ctxt) : Ctxt :=
  { Ctxt.initContext shm c.warnings c.serializations c.emallocs c.exception with
    useSerialization := true }

/-- The second pass runs exactly if the first one has failed with `use_serialization` set. -/
theorem persistSize_eq : persistSize sp php serializer depth shm k orig =
    let r := persistCalc sp (serializer.getD php) depth (.first serializer shm k orig) orig
    if r.1 = false ∧ r.2.useSerialization = true then
      persistCalc sp (serializer.getD php) depth (.retry shm r.2) orig
    else r := by
  unfold persistSize Ctxt.first serializedFirst
  dsimp only
  split
  next hc => rw [hc, if_neg (fun h => nomatch h.1)]
  next hc =>
    rw [hc]
    split
    next hu => exact (if_pos ⟨rfl, hu⟩).symm
    next hu => exact (if_neg fun h => hu h.2).symm

/-- Only objects and arrays are serialized in the first attempt. -/
theorem isScalar_of_serializedFirst {val : Zval} (h : serializedFirst serializer val = true) :
    val.isScalar = false := by
  cases val with
  | object _ | array _ _ => rfl
  | undef | null | bool _ | long _ | double _ | string _ _ | resource _ | reference _
  | indirect _ | ptr _ => simp [serializedFirst, Zval.isObject, Zval.isArray] at h

/-- A value that is serialized in the first attempt has no memo table. -/
theorem memoizationNeeded_of_serializedFirst
    (h : serializedFirst serializer orig.val = true) :
    (Ctxt.first serializer shm k orig).memoizationNeeded = false := by
  unfold Ctxt.first
  dsimp only
  cases hv : orig.val <;> cases serializer <;> first | rfl | (rw [hv] at h; cases h)

/-- If the first pass is a serialization, there is one call of `serialize`, and another one if the
first fails; nothing else is allocated in the request heap. -/
theorem persistSize_serializedFirst (h : serializedFirst serializer orig.val = true) :
    ∃ n, (persistSize sp php serializer depth shm k orig).2.serializations = k + n ∧
      (persistSize sp php serializer depth shm k orig).2.emallocs = n ∧
      (persistSize sp php serializer depth shm k orig).2.useSerialization = true ∧
      n = if ((serializer.getD php).serialize ⟨k, sp.exception⟩ (sp.deref shm) orig.val).isSome
        then 1 else 2 := by
  have hs := isScalar_of_serializedFirst h
  rw [persistSize_eq]
  have hfirst := persistCalc_serializes sp (serializer.getD php) depth
    (c := .first serializer shm k orig) h (memoizationNeeded_of_serializedFirst h) hs
  generalize persistCalc sp (serializer.getD php) depth (.first serializer shm k orig) orig = r
    at hfirst ⊢
  obtain ⟨h1, h2, h3, h4⟩ := hfirst
  rw [show (Ctxt.first serializer shm k orig).exception = false from rfl, Bool.or_false] at h1
  change r.1 = ((serializer.getD php).serialize ⟨k, sp.exception⟩ (sp.deref shm) orig.val).isSome
    at h1
  rw [← h1]
  dsimp only
  cases hr : r.1 with
  | true => exact ⟨1, h2, h4, h3, rfl⟩
  | false =>
    rw [if_pos ⟨rfl, h3⟩]
    obtain ⟨-, h2', h3', h4'⟩ := persistCalc_serializes sp (serializer.getD php) depth
      (c := .retry shm r.2) rfl rfl hs
    exact ⟨2, h2'.trans (congrArg (· + 1) h2), h4'.trans (congrArg (· + 1) h4), h3', rfl⟩

/-- If the first pass is in direct form, there is one call of `serialize` if `use_serialization` is
set in the end, and none otherwise. -/
theorem persistSize_plainFirst (h : serializedFirst serializer orig.val = false) :
    (persistSize sp php serializer depth shm k orig).2.serializations = k +
      (if (persistSize sp php serializer depth shm k orig).2.useSerialization then 1 else 0) := by
  rw [persistSize_eq]
  have hfirst : (persistCalc sp (serializer.getD php) depth (.first serializer shm k orig)
      orig).2.serializations = k ∧ _ := Plain.persistCalc depth _ orig h
  have hscalar : (persistCalc sp (serializer.getD php) depth (.first serializer shm k orig)
      orig).1 = false → orig.val.isScalar = false := by
    intro hno
    cases hs : orig.val.isScalar with
    | false => rfl
    | true =>
      rw [persistCalc, calcZval, if_pos hs] at hno
      cases hno
  generalize persistCalc sp (serializer.getD php) depth (.first serializer shm k orig) orig = r
    at hfirst hscalar ⊢
  obtain ⟨h1, h2⟩ := hfirst
  dsimp only
  by_cases hretry : r.1 = false ∧ r.2.useSerialization = true
  · obtain ⟨-, h2', h3', -⟩ := persistCalc_serializes sp (serializer.getD php) depth
      (c := .retry shm r.2) rfl rfl (hscalar hretry.1)
    rw [if_pos hretry, h3', if_pos rfl]
    exact h2'.trans (congrArg (· + 1) h1)
  · have hu : r.2.useSerialization = false := by
      cases hr : r.1 with
      | true => exact h2 hr
      | false => simpa [hr] using hretry
    rw [if_neg hretry, hu]
    exact h1

/-! ## The calls of an operation -/

/-- Locking, allocating and copying call no `serialize`. -/
theorem Keeps.serializations {α : Type} {x : Op υ α} (h : Keeps World.rest x) :
    Keeps World.serializations x := h.of_eq (fun r => r.2.1.countP (·.entry.isNone)) fun _ => rfl

/-- Between `w` and `w'`, `serialize` was called `n` times, and each call has returned. -/
structure Returned (n : Nat) (w w' : World υ) : Prop where
  count : w'.serializations = w.serializations + n
  ok : ∀ i < n, w.env.emallocOk (w.emallocs + i) = true

/-- Between `w` and `w'`, the last of at most `n` calls of `serialize` has bailed out. -/
def Cut (n : Nat) (w w' : World υ) : Prop :=
  ∃ i < n, (∀ j < i, w.env.emallocOk (w.emallocs + j) = true) ∧
    w.env.emallocOk (w.emallocs + i) = false ∧ w'.serializations = w.serializations + i + 1

/-- The calls are the same for a state with the same count. -/
theorem Returned.of_count (h : Returned n w w₁) (hs : w'.serializations = w₁.serializations) :
    Returned n w w' := ⟨hs.trans h.count, h.ok⟩

/-- Several calls of `serialize`. -/
theorem wp_serializeN : Wp (serializeN ser n) w (fun _ => Returned n w) (Cut n w) := by
  induction n generalizing w with
  | zero => exact ⟨rfl, nofun⟩
  | succ n ih =>
    have hcount : ∀ m, World.serializations { w with
        callbacks := w.callbacks ++ [⟨ser, none, w.held⟩], emallocs := m } =
        w.serializations + 1 := by
      intro m
      simp [World.serializations, List.countP_append]
    rw [serializeN]
    simp only [callback, emalloc, wp_bind, wp_modify, wp_get, wp_set, wp_ite]
    split
    next hok =>
      have hoks : ∀ m, (∀ i < m, w.env.emallocOk (w.emallocs + 1 + i) = true) →
          ∀ i < m + 1, w.env.emallocOk (w.emallocs + i) = true := by
        intro m hm i hi
        cases i with
        | zero => exact hok
        | succ i =>
          have := hm i (by omega)
          rwa [Nat.add_comm i, ← Nat.add_assoc]
      refine ih.mono (fun _ w' h => ⟨?_, hoks n h.ok⟩) fun w' => ?_
      · rw [h.count, hcount]
        omega
      · rintro ⟨i, hi, hbefore, hfail, h⟩
        refine ⟨i + 1, by omega, hoks i hbefore, ?_, ?_⟩
        · rwa [Nat.add_comm i, ← Nat.add_assoc]
        · rw [h, hcount]
          omega
    next hfail => exact ⟨0, by omega, nofun, eq_false_of_ne_true hfail, hcount _⟩

/-- The calls of `serialize` in one call of `immutable_cache_persist` are those of its two sizing
passes, unless one of the allocations before them or one of the calls bails out. -/
theorem wp_persist_serializations
    (hc : (persistSize sp php w.serializer depth w.shm w.serializations orig).2 = c)
    (hn : c.serializations = w.serializations + n) :
    Wp (persist pool sp php depth orig) w
      (fun _ w' => w'.serializations = w.serializations + n ∧
        (c.emallocs ≤ n → Returned n w w'))
      fun w' => w'.serializations ≤ w.serializations + n ∧
        (c.emallocs ≤ n → Returned n w w' ∨ Cut n w w') := by
  rw [wp_persist_iff]
  simp only [persistReserve, wp_bind, wp_get]
  rw [hc, hn, Nat.add_sub_cancel_left]
  refine (Keeps.serializations (Keeps.emallocN _) w).eq.mono (fun _ w₁ h₁ => ?_) fun w' h => ?_
  swap
  · obtain ⟨j, hj, -⟩ := emallocN_error h.1
    exact ⟨by rw [h.2]; omega, fun hle => by omega⟩
  have hfirst : c.emallocs ≤ n → w = w₁ := by
    intro hle
    have h := h₁.1
    rw [Nat.sub_eq_zero_of_le hle] at h
    cases h
    rfl
  refine wp_serializeN.mono (fun _ w₂ h₂ => ?_) fun w' h₂ => ?_
  · -- nothing after the calls of `serialize` makes another one
    have hlast : ∀ w' : World υ, w'.serializations = w₂.serializations →
        w'.serializations = w.serializations + n ∧ (c.emallocs ≤ n → Returned n w w') := by
      intro w' h
      refine ⟨by rw [h, h₂.count, h₁.2], fun hle => ?_⟩
      rw [hfirst hle]
      exact h₂.of_count h
    have hbail : ∀ w' : World υ, w'.serializations = w₂.serializations →
        w'.serializations ≤ w.serializations + n ∧
          (c.emallocs ≤ n → Returned n w w' ∨ Cut n w w') :=
      fun w' h => ⟨(hlast w' h).1.le, fun hle => .inl ((hlast w' h).2 hle)⟩
    rw [wp_modify, wp_ite]
    split
    · rw [wp_bind]
      refine (Keeps.serializations (Keeps.smaMalloc _) _).mono (fun r w₃ h₃ => ?_) hbail
      cases r with
      | none => exact hlast w₃ h₃
      | some p =>
        exact (Keeps.serializations (Keeps.persistInto _ p c) w₃).mono
          (fun _ w' h => hlast w' (h.trans h₃)) fun w' h => hbail w' (h.trans h₃)
    · exact hlast _ rfl
  · obtain ⟨i, hi, -, -, h⟩ := id h₂
    refine ⟨by rw [h, h₁.2]; omega, fun hle => .inr ?_⟩
    rwa [hfirst hle]

/-- If the first pass is a serialization that fails, `serialize` is called twice, unless the first
call bails out. -/
theorem wp_persist_twice (hfirst : serializedFirst w.serializer orig.val = true)
    (hfail : (w.serializer.getD php).serialize ⟨w.serializations, sp.exception⟩ (sp.deref w.shm)
      orig.val = none) :
    Wp (persist pool sp php depth orig) w
      (fun _ w' => Returned 2 w w') fun w' => Returned 2 w w' ∨ Cut 2 w w' := by
  obtain ⟨n, hn, he, -, htwo⟩ : ∃ n, (persistSize sp php w.serializer depth w.shm w.serializations
    orig).2.serializations = w.serializations + n ∧ _ := persistSize_serializedFirst hfirst
  rw [hfail] at htwo
  obtain rfl : n = 2 := htwo
  exact (wp_persist_serializations rfl hn).mono (fun _ _ h => h.2 he.le) fun w' h => h.2 he.le

/-- One call of `immutable_cache_persist` calls `serialize` once if `use_serialization` is set when
the entry has been sized, and not at all otherwise; a bailout may come before that call. -/
def SerializesOnce (pool : Pool) (sp : Space) (php : Serializer υ) (depth : Nat) (orig : Entry)
    (w : World υ) : Prop :=
  let c := (persistSize sp php w.serializer depth w.shm w.serializations orig).2
  let n := if c.useSerialization then 1 else 0
  Wp (persist pool sp php depth orig) w (fun _ w' => w'.serializations = w.serializations + n)
    fun w' => w'.serializations ≤ w.serializations + n

/-- A first pass that fails as a serialization, and does not bail out, is followed by another one. -/
theorem SerializesOnce.not_twice (honce : SerializesOnce pool sp php depth orig w)
    (hfirst : serializedFirst w.serializer orig.val = true)
    (hs : (w.serializer.getD php).serialize ⟨w.serializations, sp.exception⟩ (sp.deref w.shm)
      orig.val = none) :
    w.env.emallocOk w.emallocs = false := by
  unfold SerializesOnce at honce
  obtain ⟨n, hn, -, hu, -⟩ : ∃ n, (persistSize sp php w.serializer depth w.shm
    w.serializations orig).2.serializations = w.serializations + n ∧ _ :=
    persistSize_serializedFirst hfirst
  dsimp only at honce
  rw [hu, if_pos rfl] at honce
  have htwice : Wp (persist pool sp php depth orig) w _ _ := wp_persist_twice hfirst hs
  cases hok : w.env.emallocOk w.emallocs with
  | false => rfl
  | true =>
    have hno : Wp (persist pool sp php depth orig) w (fun _ _ => False) fun _ => False := by
      refine (honce.and htwice).mono (fun _ w' h => ?_) fun w' h => ?_
      · have := h.2.count
        omega
      · obtain h2 | ⟨i, hi, -, hfail, h2⟩ := h.2
        · have := h2.count
          omega
        · obtain rfl : i = 0 := by omega
          rw [Nat.add_zero, hok] at hfail
          cases hfail
    exact hno.not_false.elim

/-- `serialize` is called at most once exactly if the first sizing pass is in direct form, or is a
serialization that succeeds or bails out. -/
theorem persist_serializesOnce : SerializesOnce pool sp php depth orig w ↔
    serializedFirst w.serializer orig.val = false ∨
    ((w.serializer.getD php).serialize ⟨w.serializations, sp.exception⟩ (sp.deref w.shm)
      orig.val).isSome = true ∨
    w.env.emallocOk w.emallocs = false := by
  cases hfirst : serializedFirst w.serializer orig.val with
  | false =>
    refine iff_of_true ?_ (.inl rfl)
    exact (wp_persist_serializations rfl (persistSize_plainFirst hfirst)).mono (fun _ _ h => h.1)
      fun _ h => h.1
  | true =>
    rw [or_iff_right (by decide)]
    obtain ⟨n, hn, -, hu, hcount⟩ : ∃ n, (persistSize sp php w.serializer depth w.shm
      w.serializations orig).2.serializations = w.serializations + n ∧ _ :=
      persistSize_serializedFirst hfirst
    cases hs : (w.serializer.getD php).serialize ⟨w.serializations, sp.exception⟩ (sp.deref w.shm)
      orig.val with
    | some buf =>
      rw [hs] at hcount
      obtain rfl : n = 1 := hcount
      refine iff_of_true ?_ (.inl rfl)
      unfold SerializesOnce
      dsimp only
      rw [hu, if_pos rfl]
      exact (wp_persist_serializations rfl hn).mono (fun _ _ h => h.1) fun _ h => h.1
    | none =>
      rw [or_iff_right (by decide)]
      refine ⟨fun honce => honce.not_twice hfirst hs, fun hbail => ?_⟩
      unfold SerializesOnce
      dsimp only
      rw [hu, if_pos rfl]
      -- only the first of the two calls is made
      have hret : ∀ w', ¬ Returned 2 w w' := by
        intro w' h
        have := h.ok 0 (by decide)
        rw [Nat.add_zero, hbail] at this
        cases this
      refine (wp_persist_twice hfirst hs).mono (fun _ w' h => absurd h (hret w')) fun w' h => ?_
      obtain ⟨i, hi, hbefore, -, h⟩ := h.resolve_left (hret w')
      cases i with
      | zero => exact h.le
      | succ i =>
        have := hbefore 0 (by omega)
        rw [Nat.add_zero, hbail] at this
        cases this

namespace Small

/-- A serializer that always fails. -/
def refuse : Serializer Bytes where
  name := "refuse"
  serialize _ _ _ := none
  throws _ _ _ := false
  unserialize _ := none
  serialize_lt h := by cases h

end Small

/-- An array, with a serializer that fails on it. -/
theorem persist_not_serializesOnce : ¬ ∀ (orig : Entry) (w : World Bytes),
    SerializesOnce Small.pool Small.sp Small.php 1 orig w := by
  intro hall
  have hbail := (hall (initEntry 104 (.array 168 true) 0)
    { Small.start (Small.env none) with serializer := some Small.refuse }).not_twice rfl rfl
  have hok : ∀ i, (Small.start (Small.env none)).env.emallocOk i = true := by
    intro i
    rw [Small.start_env]
    rfl
  exact absurd ((hok _).symm.trans hbail) (by decide)

end ImmutableCache
