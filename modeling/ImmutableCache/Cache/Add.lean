import ImmutableCache.Cache.Batch
import ImmutableCache.Zend.Decimal

/-!
# Adding many keys

`immutable_cache_add` takes a key and a value, or an array of keys and values. An array is stored
element by element, with integer keys in decimal form, and the keys that were not stored are
returned. The cache ends up as after single calls for the elements (`storeArray_eq_addEach`);
`zend_symtable_add_new` turns the decimal form of an integer into the integer again.

An exception that an element throws stays pending in the loop, where a single call returns to PHP code
that can catch it. So the two are compared as long as no exception is pending when an element is
stored.
-/

namespace ImmutableCache

open Bail

section
variable {υ : Type}

/-! ## The PHP function -/

/-- What the loop of `immutable_cache_store_helper` uses of the engine, in a process with the
address space `sp`. `zend_long_to_str` of `h` puts a string at `longStr h` into the memory of the
process, which is `strSpace h` then; `refVal n p` is the value that the reference at `p` holds after
`n` calls of `serialize` and warnings, which may run user code. -/
structure Engine where
  sp : Space
  strSpace : Nat → Space
  longStr : Nat → Nat
  refVal : Nat → Nat → Zval
  longStr_eq : ∀ h, (strSpace h).shared (longStr h) = false ∧
    ∃ s, (strSpace h).req (longStr h) = some (.str s) ∧ s.val = zendLongToStr (toZendLong h)

namespace Engine

/-- `ZVAL_DEREF`. -/
def deref (E : Engine) (n : Nat) : Zval → Zval
  | .reference p => E.refVal n p
  | v => v

/-- The string for the key of an element, with the memory that it is in. -/
def hkey (E : Engine) (b : Bucket) : Space × Nat :=
  match b.key with
  | some key => (E.sp, key)
  | none => (E.strSpace b.h, E.longStr b.h)

end Engine

/-- How often user code may have run: in a serializer, or as the handler of a warning. -/
def World.userCalls (w : World υ) : Nat := w.serializations + w.warnings.length

/-- The beginning of `immutable_cache_store_helper`, with `immutable_cache_cache_serializer`: `conf`
is what `immutable_cache_find_serializer` gives for the configured name, if a name is configured. In a
request `RINIT` has done so before, with the warning for a name that is not registered. -/
def World.loadSerializer (conf : Option (Option (Serializer υ))) (w : World υ) : World υ :=
  match conf with
  | some found =>
    if w.loadedSerializer then w
    else { w with
      serializer := if w.serializer.isSome then w.serializer else found
      loadedSerializer := true }
  | none => w

variable (conf : Option (Option (Serializer υ))) (pool : Pool) (php : Serializer υ) (depth : Nat)

/-- `immutable_cache_store_helper` for a string and a value. -/
def storeString (sp : Space) (key : Nat) (val : Zval) (t : Nat) : Op υ Bool := do
  modify (World.loadSerializer conf)
  cacheStore pool sp php depth key val t

/-- An allocation in the request heap that is not always made. -/
def emallocIf (c : Bool) : Op υ Unit := if c then emalloc else pure ()

/-- Make the string for the key of an element, if it has none, and store the element's value at
some time. -/
def Engine.storeElement (E : Engine) (store : Space → Nat → Zval → Nat → Op υ Bool)
    (x : Bucket × Nat) : Op υ Bool := do
  let n := (← get).userCalls
  emallocIf x.1.key.isNone
  store (E.hkey x.1).1 (E.hkey x.1).2 (E.deref n x.1.val) x.2

/-- `zend_symtable_add_new`: an element is appended. -/
def zendSymtableAddNew {α : Type} (a : ZendArray α) (key : Bytes) (v : α) : ZendArray α :=
  a ++ [(symtableKey key, v)]

/-- The process with one more reason for a pending exception. -/
def Space.pending (sp : Space) (exception : Bool) : Space :=
  { sp with exception := sp.exception || exception }

/-- The loop of `immutable_cache_store_helper` over the elements of an array. An exception that has been
thrown since there were `n` is still pending. -/
def storeLoop (E : Engine) (n : Nat) : List (Bucket × Nat) → ZendArray Int → Op υ (ZendArray Int)
  | [], a => pure a
  | x :: rest, a => do
    let exception := decide (n < (← get).thrown)
    if ← E.storeElement (fun sp => cacheStore pool (sp.pending exception) php depth) x then
      storeLoop E n rest a
    else
      emalloc
      let key := (E.hkey x.1).1.zstr (← get).shm (E.hkey x.1).2
      storeLoop E n rest (zendSymtableAddNew a key.val (-1))

/-- `immutable_cache_store_helper` for an array; the elements come with the times at which they are
stored. -/
def storeArray (E : Engine) (elems : List (Bucket × Nat)) : Op υ (ZendArray Int) := do
  modify (World.loadSerializer conf)
  emalloc
  storeLoop pool php depth E (← get).thrown elems []

/-- A caller that stores the elements with single calls of `store`: it makes the string for an
integer key, takes the value out of a reference, and notes down the keys that are not stored. -/
def addLoop (store : Space → Nat → Zval → Nat → Op υ Bool) (E : Engine) :
    List (Bucket × Nat) → Op υ (List Bool)
  | [] => pure []
  | x :: rest => do
    let r ← E.storeElement store x
    emallocIf !r
    (r :: ·) <$> addLoop store E rest

/-- Single calls of `immutable_cache_add` for the elements. -/
def addEach (E : Engine) (elems : List (Bucket × Nat)) : Op υ (List Bool) := do
  emalloc
  addLoop (storeString conf pool php depth) E elems

end

section
variable {υ : Type} {conf : Option (Option (Serializer υ))} {pool : Pool} {php : Serializer υ}
  {depth : Nat} {E : Engine} {elems : List (Bucket × Nat)} {w w' : World υ} {sp : Space}
  {es : List (Nat × Bytes)} {live : Nat → Option Nat} {x : Bucket × Nat}

/-! ## Single calls and the loop -/

/-- The serializer is loaded once. -/
theorem loadSerializer_idem (w : World υ) :
    (w.loadSerializer conf).loadSerializer conf = w.loadSerializer conf := by
  unfold World.loadSerializer
  cases conf with
  | none => rfl
  | some found =>
    cases h : w.loadedSerializer with
    | true => simp [h]
    | false => simp

/-- The environment, the calls of serializers and the warnings stay, and nothing is thrown. -/
theorem loadSerializer_same (w : World υ) : (w.loadSerializer conf).env = w.env ∧
    (w.loadSerializer conf).callbacks = w.callbacks ∧
    (w.loadSerializer conf).warnings = w.warnings ∧ (w.loadSerializer conf).thrown = w.thrown := by
  unfold World.loadSerializer
  cases conf with
  | none => exact ⟨rfl, rfl, rfl, rfl⟩
  | some found =>
    dsimp only
    split <;> exact ⟨rfl, rfl, rfl, rfl⟩

/-- What loading depends on. -/
theorem loadSerializer_eq_self (h : w'.loadedSerializer = w.loadedSerializer)
    (hw : w.loadSerializer conf = w) : w'.loadSerializer conf = w' := by
  unfold World.loadSerializer at hw ⊢
  cases conf with
  | none => rfl
  | some found =>
    dsimp only at hw ⊢
    split at hw
    next hl => rw [if_pos (h.trans hl)]
    next hl =>
      rw [← hw] at hl
      exact absurd rfl hl

/-- What keeps everything but the memory and the locks keeps the serializer. -/
theorem Keeps.loadedSerializer {α : Type} {x : Op υ α} (h : Keeps World.rest x) :
    Keeps World.loadedSerializer x := h.of_eq (fun r => r.2.2.2.2.2) fun _ => rfl

/-- Calls of `serialize` do not load a serializer. -/
theorem keeps_serializeN (serializer : Serializer υ) (n : Nat) :
    Keeps World.loadedSerializer (serializeN serializer n) := by
  induction n with
  | zero => exact .pure ()
  | succ n ih =>
    refine Keeps.bind ?_ fun _ => ih
    exact Keeps.bind (.of_modify fun _ => rfl) fun _ => Keeps.loadedSerializer Keeps.emalloc

/-- Copying an entry does not load a serializer. -/
theorem keeps_persist (orig : Entry) :
    Keeps World.loadedSerializer (persist pool sp php depth orig) := by
  refine Keeps.get.bind fun w => (Keeps.loadedSerializer (Keeps.emallocN _)).bind fun _ =>
    (keeps_serializeN _ _).bind fun _ => Keeps.bind (.of_modify fun _ => rfl) fun _ => ?_
  refine .ite ((Keeps.loadedSerializer (Keeps.smaMalloc _)).bind fun r => ?_) (.pure none)
  cases r with
  | some p => exact Keeps.loadedSerializer (Keeps.persistInto _ p _)
  | none => exact .pure none

/-- Inserting an entry does not load a serializer. -/
theorem insert_loadedSerializer (p : Nat) (w : World υ) :
    (wlockedInsertExclusive sp p w).2.loadedSerializer = w.loadedSerializer := by
  unfold wlockedInsertExclusive
  dsimp only
  split <;> rfl

/-- Storing a value does not load a serializer. -/
theorem keeps_cacheStore (sp : Space) (key : Nat) (val : Zval) (t : Nat) :
    Keeps World.loadedSerializer (cacheStore pool sp php depth key val t) := by
  refine (keeps_persist _).bind fun r => ?_
  cases r with
  | none => exact .pure false
  | some p =>
    have hfree : Keeps World.loadedSerializer (do smaFree pool p; pure false : Op υ Bool) :=
      (Keeps.loadedSerializer (Keeps.smaFree p)).bind fun _ => .pure false
    refine Keeps.get.bind fun w => (Keeps.loadedSerializer (Keeps.cacheWlock _)).bind fun _ =>
      .ite (Keeps.bind (.ensuring ?_ (Keeps.loadedSerializer (Keeps.cacheWunlock _))) fun _ =>
        .ite (.pure true) hfree) hfree
    exact .of_modifyGet fun w => insert_loadedSerializer p w

/-- A single call in a state is the store in the state with the serializer loaded. -/
theorem storeString_eq (sp : Space) (key : Nat) (val : Zval) (t : Nat) :
    Commutes (World.loadSerializer conf) (storeString conf pool php depth sp key val t)
      (cacheStore pool sp php depth key val t) := by
  intro w
  show cacheStore pool sp php depth key val t (w.loadSerializer conf) = mapState _
    (cacheStore pool sp php depth key val t (w.loadSerializer conf))
  have hkeep : Wp (cacheStore pool sp php depth key val t) (w.loadSerializer conf) _ _ :=
    keeps_cacheStore sp key val t _
  unfold Wp at hkeep
  have hidem : (w.loadSerializer conf).loadSerializer conf = w.loadSerializer conf :=
    loadSerializer_idem w
  generalize w.loadSerializer conf = w₁ at hkeep hidem ⊢
  cases hr : cacheStore pool sp php depth key val t w₁ with
  | ok r w₂ =>
    rw [hr] at hkeep
    exact congrArg _ (loadSerializer_eq_self hkeep hidem).symm
  | error e w₂ =>
    rw [hr] at hkeep
    exact congrArg _ (loadSerializer_eq_self hkeep hidem).symm

/-- Loading the serializer and allocating request memory do not affect each other. -/
theorem commutes_emalloc :
    Commutes (World.loadSerializer conf) (emalloc : Op υ Unit) emalloc := by
  intro w
  have hemalloc : ∀ w : World υ, emalloc w = if w.env.emallocOk w.emallocs then
      .ok () { w with emallocs := w.emallocs + 1 } else
      .error () { w with emallocs := w.emallocs + 1 } := by
    intro w
    show (if w.env.emallocOk w.emallocs then _ else _ : Op υ Unit) _ = _
    split <;> rfl
  have hload : World.loadSerializer conf { w with emallocs := w.emallocs + 1 } =
      { w.loadSerializer conf with emallocs := (w.loadSerializer conf).emallocs + 1 } ∧
      (w.loadSerializer conf).emallocs = w.emallocs := by
    unfold World.loadSerializer
    cases conf with
    | none => exact ⟨rfl, rfl⟩
    | some found =>
      dsimp only
      split <;> exact ⟨rfl, rfl⟩
  have hok : (w.loadSerializer conf).env.emallocOk (w.loadSerializer conf).emallocs =
      w.env.emallocOk w.emallocs := by rw [(loadSerializer_same w).1, hload.2]
  rw [hemalloc, hemalloc, hok, ← hload.1]
  split <;> rfl

/-- The same for an allocation that is made only if `c` holds. -/
theorem commutes_emallocIf (c : Bool) :
    Commutes (World.loadSerializer conf) (emallocIf c : Op υ Unit) (emallocIf c) :=
  .ite commutes_emalloc (.pure ())

/-- One element. -/
theorem commutes_storeElement (x : Bucket × Nat) :
    Commutes (World.loadSerializer conf)
      (E.storeElement (storeString conf pool php depth) x)
      (E.storeElement (fun sp => cacheStore pool sp php depth) x) := by
  have hcount : ∀ w : World υ, (w.loadSerializer conf).userCalls = w.userCalls := by
    intro w
    rw [World.userCalls, World.serializations, (loadSerializer_same w).2.1,
      (loadSerializer_same w).2.2.1]
    rfl
  have hrest : ∀ n, Commutes (World.loadSerializer conf)
      (do emallocIf x.1.key.isNone
          storeString conf pool php depth (E.hkey x.1).1 (E.hkey x.1).2 (E.deref n x.1.val) x.2)
      (do emallocIf x.1.key.isNone
          cacheStore pool (E.hkey x.1).1 php depth (E.hkey x.1).2 (E.deref n x.1.val) x.2) :=
    fun n => (commutes_emallocIf _).bind fun _ => storeString_eq _ _ _ _
  exact Commutes.gets hcount hrest

/-- All elements. -/
theorem commutes_addLoop (elems : List (Bucket × Nat)) :
    Commutes (World.loadSerializer conf) (addLoop (storeString conf pool php depth) E elems)
      (addLoop (fun sp => cacheStore pool sp php depth) E elems) := by
  induction elems with
  | nil => exact .pure []
  | cons x rest ih =>
    exact (commutes_storeElement x).bind fun r => (commutes_emallocIf _).bind fun _ => ih.map

/-! ## The array of the keys that are not stored -/

/-- The bytes of the key of an element. -/
def Engine.bytes (E : Engine) (shm : Mem) (b : Bucket) : Bytes :=
  ((E.hkey b).1.zstr shm (E.hkey b).2).val

/-- The key of an element in the array. -/
def Engine.originalKey (E : Engine) (shm : Mem) (b : Bucket) : Key :=
  match b.key with
  | some _ => .str (E.bytes shm b)
  | none => .int b.h

/-- The key of an element in the form that PHP code uses: a string that is the decimal form of an
integer is that integer. -/
def Engine.normalKey (E : Engine) (shm : Mem) (b : Bucket) : Key :=
  match b.key with
  | some _ => symtableKey (E.bytes shm b)
  | none => .int b.h

/-- The array maps to -1 exactly the keys of the elements whose single add has failed. -/
def Reports (keyOf : Bucket → Key) (elems : List (Bucket × Nat)) (rs : List Bool)
    (a : ZendArray Int) : Prop :=
  ∀ q v, zendHashFind a q = some v ↔
    v = -1 ∧ ∃ x ∈ elems.zip rs, x.2 = false ∧ keyOf x.1.1 = q

/-- What the loop appends. -/
def failures (keyOf : Bucket → Key) (elems : List (Bucket × Nat)) (rs : List Bool) :
    ZendArray Int :=
  ((elems.zip rs).filter fun x => !x.2).map fun x => (keyOf x.1.1, -1)

/-- The array that the loop appends to reports exactly the failures. -/
theorem reports_failures (keyOf : Bucket → Key) (elems : List (Bucket × Nat)) (rs : List Bool) :
    Reports keyOf elems rs (failures keyOf elems rs) := by
  intro q v
  have hmem : ∀ y ∈ failures keyOf elems rs, y.2 = -1 ∧
      ∃ x ∈ elems.zip rs, x.2 = false ∧ keyOf x.1.1 = y.1 := by
    intro y hy
    obtain ⟨x, hx, rfl⟩ := List.mem_map.1 hy
    obtain ⟨hx, hr⟩ := List.mem_filter.1 hx
    exact ⟨rfl, x, hx, by simpa using hr, rfl⟩
  constructor
  · intro h
    exact hmem (q, v) (zendHashFind_eq_some h)
  · rintro ⟨rfl, x, hx, hr, rfl⟩
    have hin : (keyOf x.1.1, (-1 : Int)) ∈ failures keyOf elems rs :=
      List.mem_map.2 ⟨x, List.mem_filter.2 ⟨hx, by simp [hr]⟩, rfl⟩
    have hsome := zendHashFind_isSome.2 (List.mem_map_of_mem hin)
    obtain ⟨v, hv⟩ := Option.isSome_iff_exists.1 hsome
    obtain rfl : v = -1 := (hmem _ (zendHashFind_eq_some hv)).1
    exact hv

/-! ## The loop in a cache -/

section
variable {z : Zend} {w₁ : World υ} {es' : List (Nat × Bytes)} {rd rd' : Space → Mem}
  {keyOf : Bucket → Key}

/-- An element that a process can pass: its key is a string that the process can read, and its
value, out of a reference at any time, is well-formed. -/
structure Engine.Legal (E : Engine) (pool : Pool) (z : Zend) (depth : Nat) (rd : Space → Mem)
    (x : Bucket × Nat) : Prop where
  on : (E.hkey x.1).1.On pool z
  entry : ∀ n, ∃ k, WellEntry (E.hkey x.1).1 (rd (E.hkey x.1).1) depth
    (initEntry (E.hkey x.1).2 (E.deref n x.1.val) x.2) k

/-- An element stays legal in a later state. -/
theorem Engine.Legal.later (h : E.Legal pool z depth (fun sp => view sp w.shm es) x)
    (hinv : w.Inv pool z es live) (hle : w.Le es w' es') :
    E.Legal pool z depth (fun sp => view sp w'.shm es') x where
  on := h.on
  entry n := (h.entry n).imp fun k hk =>
    hk.mono (hle.view hinv _) fun p hp => by rw [view, if_neg (by simp [hp])]

/-- The bytes of the key stay the same. -/
theorem Engine.Legal.bytes (h : E.Legal pool z depth (fun sp => view sp w.shm es) x)
    (hinv : w.Inv pool z es live) (hle : w.Le es w' es') :
    E.bytes w'.shm x.1 = E.bytes w.shm x.1 := by
  obtain ⟨k, hk⟩ := h.entry 0
  have hkey : readStr (E.hkey x.1).1.zend (view (E.hkey x.1).1 w.shm es) (E.hkey x.1).2 = some k :=
    hk.key
  exact (keyHash_view ((hle.view hinv _).readStr hkey)).2.trans (keyHash_view hkey).2.symm

/-- Storing an element keeps the invariant of the cache. -/
theorem wp_storeElement (hinv : w.Inv pool z es live)
    (h : E.Legal pool z depth (fun sp => view sp w.shm es) x) :
    Wp (E.storeElement (fun sp => cacheStore pool sp php depth) x) w
      (fun _ w' => ∃ es' live', w'.Inv pool z es' live' ∧ w.Le es w' es') fun _ => True := by
  have hz := h.on.zend
  subst hz
  unfold Engine.storeElement emallocIf
  simp only [wp_bind, wp_get]
  have hharmless : Harmless (if x.1.key.isNone then emalloc else pure () : Op υ Unit) :=
    .ite .emalloc (.pure ())
  refine (hharmless w).mono (fun _ w₁ h₁ => ?_) fun _ _ => trivial
  obtain ⟨k, hk⟩ := h.entry w.userCalls
  rw [← h₁.shm] at hk
  refine (wp_cacheStore (h₁.inv hinv) h.on hk).mono (fun r w₂ h₂ => ?_) fun _ _ => trivial
  have hle : w.Le es w₁ es := h₁.le
  obtain ⟨-, c, p, hadded⟩ | ⟨-, ⟨hkept, -⟩ | ⟨⟨p, sz, hp, hkept⟩, -⟩, -⟩ := h₂
  · obtain ⟨sz, -, hinv₂⟩ := hadded.inv
    exact ⟨_, _, hinv₂, hle.trans hinv hadded.le⟩
  · exact ⟨_, _, hkept.1, hle.trans hinv hkept.2⟩
  · exact ⟨_, _, hkept.1, hle.trans hinv hkept.2⟩

/-- The result `y` of the loop for the array `a` follows the result `x` of the single stores: the
keys of the elements that are not stored are appended. -/
def Follows (keyOf : Bucket → Key) (elems : List (Bucket × Nat)) (a : ZendArray Int)
    (x : EStateM.Result Unit (World υ) (List Bool))
    (y : EStateM.Result Unit (World υ) (ZendArray Int)) : Prop :=
  (∀ w', x = .error () w' → y = .error () w') ∧
    ∀ rs w', x = .ok rs w' →
      rs.length = elems.length ∧ y = .ok (a ++ failures keyOf elems rs) w'

/-- One element more. -/
theorem Follows.cons {r : Bool} {a : ZendArray Int} {X : Op υ (List Bool)}
    {y : EStateM.Result Unit (World υ) (ZendArray Int)} (x : Bucket × Nat)
    (h : Follows keyOf elems (if r then a else a ++ [(keyOf x.1, -1)]) (X w) y) :
    Follows keyOf (x :: elems) a (((r :: ·) <$> X) w) y := by
  refine ⟨fun w' hx => h.1 w' (of_map_eq_error hx), fun rs w' hx => ?_⟩
  obtain ⟨rs', hx', rfl⟩ := of_map_eq_ok hx
  obtain ⟨hlen, hy⟩ := h.2 rs' w' hx'
  refine ⟨congrArg (· + 1) hlen, hy.trans ?_⟩
  cases r with
  | true => rfl
  | false =>
    rw [if_neg Bool.false_ne_true, List.append_assoc]
    rfl

/-- An allocation throws nothing. -/
theorem keeps_thrown : Keeps World.thrown (emalloc : Op υ Unit) := by
  intro w
  simp only [emalloc, wp_bind, wp_get, wp_set, wp_ite]
  split <;> exact rfl

/-- No exception is pending when one of the elements is stored: the single stores before it have left
the number of exceptions at `n`. -/
def Unthrown (single : List (Bucket × Nat) → Op υ (List Bool)) (elems : List (Bucket × Nat)) (n : Nat)
    (w : World υ) : Prop :=
  ∀ pre x rest, elems = pre ++ x :: rest → ∀ rs w', single pre w = .ok rs w' → w'.thrown = n

/-- After the first element the same holds of the others. -/
theorem Unthrown.tail {store : Space → Nat → Zval → Nat → Op υ Bool} {rest : List (Bucket × Nat)}
    {n : Nat} {r : Bool} {w₂ : World υ} (h : Unthrown (addLoop store E) (x :: rest) n w)
    (hr : E.storeElement store x w = .ok r w₁) (hm : emallocIf (!r) w₁ = .ok () w₂) :
    Unthrown (addLoop store E) rest n w₂ := by
  intro pre y rest' he rs w' hrun
  refine h (x :: pre) y rest' (congrArg (x :: ·) he) (r :: rs) w' ?_
  rw [addLoop, bind_eq_of_ok hr, bind_eq_of_ok hm]
  exact map_eq_ok hrun

/-- Without an exception an element is stored like a single one. -/
theorem storeLoop_cons {rest : List (Bucket × Nat)} {n : Nat} (hn : w.thrown = n)
    (a : ZendArray Int) : storeLoop pool php depth E n (x :: rest) a w = (do
      if ← E.storeElement (fun sp => cacheStore pool sp php depth) x then
        storeLoop pool php depth E n rest a
      else
        emalloc
        let key := (E.hkey x.1).1.zstr (← get).shm (E.hkey x.1).2
        storeLoop pool php depth E n rest (zendSymtableAddNew a key.val (-1)) : Op υ _) w := by
  have hno : decide (n < w.thrown) = false := decide_eq_false (by omega)
  have hpending (sp : Space) : sp.pending false = sp := by simp [Space.pending]
  have hget : (get : Op υ (World υ)) w = .ok w w := rfl
  rw [storeLoop, bind_eq_of_ok hget]
  simp only [hno, hpending]

/-- The loop does what single stores do, and appends the keys of those that fail. -/
theorem follows_storeLoop {n : Nat} (hinv : w.Inv pool z es live)
    (hthrown : Unthrown (addLoop (fun sp => cacheStore pool sp php depth) E) elems n w)
    (hlegal : ∀ x ∈ elems, E.Legal pool z depth (fun sp => view sp w.shm es) x)
    (hkey : ∀ x ∈ elems, symtableKey (E.bytes w.shm x.1) = keyOf x.1) (a : ZendArray Int) :
    Follows keyOf elems a (addLoop (fun sp => cacheStore pool sp php depth) E elems w)
      (storeLoop pool php depth E n elems a w) := by
  induction elems generalizing w es live a with
  | nil =>
    refine ⟨nofun, fun rs w' h => ?_⟩
    cases h
    exact ⟨rfl, congrArg (EStateM.Result.ok · w) (List.append_nil a).symm⟩
  | cons x rest ih =>
    have hx := hlegal x List.mem_cons_self
    rw [storeLoop_cons (hthrown [] x rest rfl [] w rfl)]
    cases hr : E.storeElement (fun sp => cacheStore pool sp php depth) x w with
    | error e w₁ =>
      rw [addLoop, bind_eq_of_error hr, bind_eq_of_error hr]
      refine ⟨fun w' h => ?_, nofun⟩
      cases h
      rfl
    | ok r w₁ =>
      obtain ⟨es₁, live₁, hinv₁, hle⟩ := Wp.of_ok (wp_storeElement hinv hx) hr
      rw [addLoop, bind_eq_of_ok hr, bind_eq_of_ok hr]
      -- the keys of the other elements are the same, and the elements are legal
      have hrest : ∀ (w₂ : World υ) a, w₁.Same w₂ → emallocIf (!r) w₁ = .ok () w₂ →
          Follows keyOf rest a
            (addLoop (fun sp => cacheStore pool sp php depth) E rest w₂)
            (storeLoop pool php depth E n rest a w₂) := by
        intro w₂ a hs hm
        have hle₂ := hle.of_same hs
        refine ih (hs.inv hinv₁) (hthrown.tail hr hm) (fun y hy => ?_) (fun y hy => ?_) a
        · exact (hlegal y (List.mem_cons_of_mem x hy)).later hinv hle₂
        · rw [(hlegal y (List.mem_cons_of_mem x hy)).bytes hinv hle₂]
          exact hkey y (List.mem_cons_of_mem x hy)
      cases r with
      | true => exact .cons x (hrest w₁ a rfl rfl)
      | false =>
        have hmalloc := Harmless.emalloc w₁
        unfold Wp at hmalloc
        cases hm : emalloc w₁ with
        | error e w₂ =>
          show Follows keyOf _ a ((emalloc >>= _ : Op υ (List Bool)) w₁)
            ((emalloc >>= _ : Op υ (ZendArray Int)) w₁)
          rw [bind_eq_of_error hm, bind_eq_of_error hm]
          refine ⟨fun w' h => ?_, nofun⟩
          cases h
          rfl
        | ok u w₂ =>
          rw [hm] at hmalloc
          have hadd : zendSymtableAddNew a (E.bytes w₂.shm x.1) (-1) =
              a ++ [(keyOf x.1, -1)] := by
            rw [zendSymtableAddNew, hx.bytes hinv (hle.of_same hmalloc),
              hkey x List.mem_cons_self]
          show Follows keyOf _ a ((emalloc >>= _ : Op υ (List Bool)) w₁)
            ((emalloc >>= _ : Op υ (ZendArray Int)) w₁)
          rw [bind_eq_of_ok hm, bind_eq_of_ok hm]
          refine .cons x ?_
          show Follows keyOf rest (a ++ [(keyOf x.1, -1)]) _
            (storeLoop pool php depth E n rest (zendSymtableAddNew a (E.bytes w₂.shm x.1) (-1)) w₂)
          rw [hadd]
          exact hrest w₂ _ hmalloc hm

/-- The key that is reported for an element is its key in the form that PHP code uses. -/
theorem symtableKey_bytes {shm : Mem} {b : Bucket} (hh : b.h < 2 ^ 64) :
    symtableKey (E.bytes shm b) = E.normalKey shm b := by
  unfold Engine.normalKey
  cases hb : b.key with
  | some key => rfl
  | none =>
    obtain ⟨hp, s, hs, hval⟩ := E.longStr_eq b.h
    have hbytes : E.bytes shm b = zendLongToStr (toZendLong b.h) := by
      rw [Engine.bytes, Engine.hkey, hb]
      dsimp only
      rw [Space.zstr, Space.deref_req hp, hs]
      exact hval
    have hnum : (toZendLong b.h % 2 ^ 64).toNat = b.h := by
      unfold toZendLong
      split <;> omega
    rw [hbytes, symtableKey, handleNumericStr_zendLongToStr (by unfold toZendLong; split <;> omega)
      (by unfold toZendLong; split <;> omega), hnum]

/-- Loading a serializer does not touch the cache. -/
theorem World.Inv.loadSerializer (h : w.Inv pool z es live) :
    (w.loadSerializer conf).Inv pool z es live ∧ (w.loadSerializer conf).shm = w.shm := by
  unfold World.loadSerializer
  cases conf with
  | none => exact ⟨h, rfl⟩
  | some found =>
    dsimp only
    split
    · exact ⟨h, rfl⟩
    · exact ⟨{ h with }, rfl⟩

/-- In every state of the cache and for every array of elements that a process can pass, if no exception
is pending when one of them is stored: adding the array leaves the cache in the state that single adds
for the elements leave it in (a bailout included). The array that it returns maps to -1 exactly the
keys of the elements whose single add fails, where a string that is the decimal form of an integer
becomes that integer. -/
theorem storeArray_eq_addEach (hinv : w.Inv pool z es live)
    (hthrown : Unthrown (addEach conf pool php depth E) elems w.thrown w)
    (hlegal : ∀ x ∈ elems, E.Legal pool z depth (fun sp => view sp w.shm es) x)
    (hh : ∀ x ∈ elems, x.1.h < 2 ^ 64) :
    (∀ w', addEach conf pool php depth E elems w = .error () w' →
      storeArray conf pool php depth E elems w = .error () (w'.loadSerializer conf)) ∧
    ∀ rs w', addEach conf pool php depth E elems w = .ok rs w' →
      rs.length = elems.length ∧ ∃ a,
        storeArray conf pool php depth E elems w = .ok a (w'.loadSerializer conf) ∧
        Reports (E.normalKey w.shm) elems rs a := by
  have hcommutes (elems : List (Bucket × Nat)) :
      (do emalloc; addLoop (fun sp => cacheStore pool sp php depth) E elems : Op υ _)
        (w.loadSerializer conf) = mapState (World.loadSerializer conf)
          (addEach conf pool php depth E elems w) :=
    (commutes_emalloc.bind fun _ => commutes_addLoop elems) w
  have hthrown₁ : Unthrown (fun pre => do
      emalloc
      addLoop (fun sp => cacheStore pool sp php depth) E pre) elems w.thrown
        (w.loadSerializer conf) := by
    intro pre x rest he rs w' hrun
    obtain ⟨w₁, hw₁, rfl⟩ := of_mapState_eq_ok ((hcommutes pre).symm.trans hrun)
    rw [(loadSerializer_same w₁).2.2.2]
    exact hthrown pre x rest he rs w₁ hw₁
  have hfollows : Follows (E.normalKey w.shm) elems []
      ((do emalloc; addLoop (fun sp => cacheStore pool sp php depth) E elems : Op υ _)
        (w.loadSerializer conf)) (storeArray conf pool php depth E elems w) := by
    obtain ⟨hinv₁, hshm⟩ : (w.loadSerializer conf).Inv pool z es live ∧ _ := hinv.loadSerializer
    show Follows _ elems [] _
      ((do emalloc; storeLoop pool php depth E (← get).thrown elems [] : Op υ _)
        (w.loadSerializer conf))
    rw [← hshm] at hlegal ⊢
    have hsame : (w.loadSerializer conf).thrown = w.thrown := (loadSerializer_same w).2.2.2
    rw [← hsame] at hthrown₁
    generalize w.loadSerializer conf = w₁ at hinv₁ hlegal hthrown₁ ⊢
    have hmalloc := Harmless.emalloc w₁
    unfold Wp at hmalloc
    cases hm : emalloc w₁ with
    | error e w₂ =>
      rw [bind_eq_of_error hm, bind_eq_of_error hm]
      refine ⟨fun w' h => ?_, nofun⟩
      cases h
      rfl
    | ok u w₂ =>
      rw [hm] at hmalloc
      have hkept : w₂.thrown = w₁.thrown := (keeps_thrown w₁).of_ok hm
      rw [bind_eq_of_ok hm, bind_eq_of_ok hm, ← hmalloc.shm]
      rw [← hmalloc.shm] at hlegal
      refine follows_storeLoop (hmalloc.inv hinv₁) (fun pre x rest he rs w' hrun => ?_) hlegal
        (fun x hx => symtableKey_bytes (hh x hx)) []
      rw [hkept]
      exact hthrown₁ pre x rest he rs w' ((bind_eq_of_ok hm).trans hrun)
  rw [hcommutes] at hfollows
  constructor
  · intro w' h
    rw [h] at hfollows
    exact hfollows.1 _ rfl
  · intro rs w' h
    rw [h] at hfollows
    obtain ⟨hlen, ha⟩ := hfollows.2 _ _ rfl
    exact ⟨hlen, _, ha, reports_failures _ _ _⟩

end

end

/-! ## Small arrays -/

/-- An integer key has at most twenty bytes in decimal form. -/
theorem length_zendLongToStr (h : Nat) : (zendLongToStr (toZendLong h)).length ≤ 20 := by
  have habs : (toZendLong h).natAbs ≤ 2 ^ 63 := by
    unfold toZendLong
    split <;> omega
  have hlen := length_printUlong habs
  unfold zendLongToStr
  split
  · rw [List.length_cons]
    omega
  · omega

namespace Small

/-- The string that the engine makes of an integer is not in shared memory. -/
theorem sharedOut : shared 104 = false := by decide

/-- The engine of a process with the address space `sp`, whose references all hold `null`. -/
def engine (sp : Space) : Engine where
  sp := sp
  strSpace h := strSpace (zendLongToStr (toZendLong h)) (length_zendLongToStr h)
  longStr _ := 104
  refVal _ _ := .null
  longStr_eq _ := ⟨sharedOut, _, rfl, rfl⟩

/-- An element with an integer key and a scalar can be passed. -/
theorem legal_scalar {h t depth : Nat} {v : Zval} (hv : v.isScalar = true) (hu : v ≠ .undef)
    {rd : Space → Mem} (hrd : ∀ sp p, sp.shared p = false → rd sp p = sp.req p) (sp : Space) :
    (engine sp).Legal pool zend depth rd (⟨h, none, v⟩, t) where
  on := space_on rfl rfl rfl
  entry n := by
    refine ⟨zendLongToStr (toZendLong h), fun p hp => hrd _ p hp, ?_, ?_⟩
    · exact readStr_eq_some.2 ⟨_, (hrd _ 104 sharedOut).trans rfl, .inl rfl, rfl⟩
    · cases v <;> trivial

/-- An element with the key `"1"` and a reference to `null` can be passed. -/
theorem legal_digit {p t depth : Nat} {rd : Space → Mem}
    (hrd : ∀ sp p, sp.shared p = false → rd sp p = sp.req p) :
    (engine digitSpace).Legal pool zend depth rd (⟨0, some 104, .reference p⟩, t) where
  on := space_on rfl rfl rfl
  entry n := by
    refine ⟨[49], fun p hp => hrd _ p hp, ?_, trivial⟩
    exact readStr_eq_some.2 ⟨_, (hrd digitSpace 104 sharedOut).trans rfl, .inl rfl, rfl⟩

/-- The elements `1 => 5`, `"1" => &null` and `-5 => 7`. -/
def elements : List (Bucket × Nat) :=
  [(⟨1, none, .long 5⟩, 0), (⟨0, some 104, .reference 300⟩, 0), (⟨2 ^ 64 - 5, none, .long 7⟩, 0)]

/-- The single adds for the elements throw nothing. -/
theorem elements_unthrown : Unthrown (addEach none pool Small.php 0 (engine digitSpace)) elements
    (start (env none)).thrown (start (env none)) := by
  intro pre x rest he rs w' hrun
  have hall : ∀ i < 3, gives (do
      let _ ← addEach none pool Small.php 0 (engine digitSpace) (elements.take i)
      pure (← get).thrown) (start (env none)) (fun n => decide (n = (start (env none)).thrown)) =
        true := by decide +kernel
  have hlen : pre.length < 3 := by
    have := congrArg List.length he
    rw [List.length_append, List.length_cons] at this
    have hthree : elements.length = 3 := rfl
    omega
  have htake : elements.take pre.length = pre := by rw [he, List.take_left]
  obtain ⟨n, w₁, hn, heq⟩ := of_gives (hall pre.length hlen)
  rw [htake, bind_eq_of_ok hrun] at hn
  cases hn
  exact of_decide_eq_true heq

end Small

/-- The second of the elements `1 => 5`, `"1" => &null` and `-5 => 7` fails, since the string of the
first key is the second key, and 1 is reported. -/
theorem storeArray_eq_addEach_small : ∃ w' a,
    addEach none Small.pool Small.php 0 (Small.engine Small.digitSpace) Small.elements
      (Small.start (Small.env none)) = .ok [true, false, true] w' ∧
    storeArray none Small.pool Small.php 0 (Small.engine Small.digitSpace) Small.elements
      (Small.start (Small.env none)) = .ok a w' ∧
    Reports ((Small.engine Small.digitSpace).normalKey (Small.start (Small.env none)).shm)
      Small.elements [true, false, true] a := by
  obtain ⟨-, hdr, sz, hinv⟩ := Small.created.inv Small.zend
  have hruns : Small.gives (addEach none Small.pool Small.php 0 (Small.engine Small.digitSpace)
      Small.elements) (Small.start (Small.env none))
      (fun rs => decide (rs = [true, false, true])) = true := by decide +kernel
  obtain ⟨rs, w', hrs, hr⟩ := Small.of_gives hruns
  obtain rfl := of_decide_eq_true hr
  have hrd (sp : Space) (p : Nat) (hp : sp.shared p = false) :
      view sp (Small.start (Small.env none)).shm [] p = sp.req p := if_neg (by simp [hp])
  have hlegal : ∀ x ∈ Small.elements,
      (Small.engine Small.digitSpace).Legal Small.pool Small.zend 0
        (fun sp => view sp (Small.start (Small.env none)).shm []) x ∧ x.1.h < 2 ^ 64 := by
    intro x hx
    simp only [Small.elements, List.mem_cons, List.not_mem_nil, or_false] at hx
    rcases hx with rfl | rfl | rfl
    · exact ⟨Small.legal_scalar rfl (by decide) hrd _, by decide⟩
    · exact ⟨Small.legal_digit hrd, by decide⟩
    · exact ⟨Small.legal_scalar rfl (by decide) hrd _, by decide⟩
  obtain ⟨-, a, ha, hreports⟩ := (storeArray_eq_addEach hinv Small.elements_unthrown
    (fun x hx => (hlegal x hx).1) fun x hx => (hlegal x hx).2).2 _ w' hrs
  exact ⟨w', a, hrs, ha, hreports⟩

namespace Small

/-- The built-in serializer in a process in which serializing the object at 300 throws. -/
def throwing : Serializer Bytes :=
  phpSerializer { phpVar with varThrows := fun _ _ v => decide (v = .object 300) }

/-- The elements `1` and `2`, which are objects. -/
def thrownElements : List (Bucket × Nat) :=
  [(⟨1, none, .object 300⟩, 0), (⟨2, none, .object 301⟩, 0)]

end Small

-- While the exception of the first element is pending, the second one fails too.
example :
    Small.gives (addEach none Small.pool Small.throwing 0 (Small.engine Small.digitSpace)
      Small.thrownElements) (Small.start (Small.env none))
      (fun rs => decide (rs = [false, true])) = true ∧
    Small.gives (storeArray none Small.pool Small.throwing 0 (Small.engine Small.digitSpace)
      Small.thrownElements) (Small.start (Small.env none))
      (fun a => decide (a = [(Key.int 1, -1), (Key.int 2, -1)])) = true := by decide +kernel

/-- The array whose only key is the string `"1"`, in the cache that has a value for it: the key is
reported as the integer 1. -/
theorem storeArray_not_original : ∃ evs rs w' a w'',
    Run (Step Small.pool Small.zend Small.php) (Small.start (Small.env none)) evs Small.digits ∧
    addEach none Small.pool Small.php 0 (Small.engine Small.digitSpace) [(⟨0, some 104, .long 1⟩, 0)]
      Small.digits = .ok rs w' ∧
    storeArray none Small.pool Small.php 0 (Small.engine Small.digitSpace)
      [(⟨0, some 104, .long 1⟩, 0)] Small.digits = .ok a w'' ∧
    ¬ Reports ((Small.engine Small.digitSpace).originalKey Small.digits.shm)
      [(⟨0, some 104, .long 1⟩, 0)] rs a := by
  obtain ⟨evs, hrun⟩ := Small.digits_run
  have hsingle : Small.gives (addEach none Small.pool Small.php 0 (Small.engine Small.digitSpace)
      [(⟨0, some 104, .long 1⟩, 0)]) Small.digits (fun rs => decide (rs = [false])) = true := by
    decide +kernel
  have harray : Small.gives (storeArray none Small.pool Small.php 0 (Small.engine Small.digitSpace)
      [(⟨0, some 104, .long 1⟩, 0)]) Small.digits
      (fun a => (zendHashFind a (.str [49])).isNone) = true := by decide +kernel
  obtain ⟨rs, w', hrs, hfalse⟩ := Small.of_gives hsingle
  obtain ⟨a, w'', ha, hnone⟩ := Small.of_gives harray
  obtain rfl := of_decide_eq_true hfalse
  refine ⟨evs, _, w', a, w'', hrun, hrs, ha, fun h => ?_⟩
  have hfound := (h (.str [49]) (-1)).2 ⟨rfl, _, List.mem_singleton_self _, rfl, rfl⟩
  rw [Option.isNone_iff_eq_none.1 hnone] at hfound
  cases hfound

end ImmutableCache
