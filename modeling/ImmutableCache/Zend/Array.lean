import ImmutableCache.Zend.Value

/-!
# PHP arrays

A PHP array as the engine's hash functions see it: a list of keys and values, in the order of
insertion. `zend_hash_update` and `zend_hash_add_new` take a string key as it is given, and the
latter does not look whether it is there already; PHP code and the `zend_symtable` functions turn a
string that is the decimal form of an integer into that integer first.
-/

namespace ImmutableCache

/-- The elements of an array. -/
abbrev ZendArray (α : Type) := List (Key × α)

/-- `ZEND_HANDLE_NUMERIC_STR`: the integer whose decimal form the string is, as a `zend_ulong`. -/
def handleNumericStr (key : Bytes) : Option Nat :=
  let neg := key.head? = some 45
  let tmp := if neg then key.tail else key
  if tmp = [] ∨ tmp.head? = some 48 ∧ 1 < key.length ∨ 19 < tmp.length then none
  else if tmp.all fun c => decide (48 ≤ c ∧ c ≤ 57) then
    let idx := tmp.foldl (fun n c => n * 10 + (c.toNat - 48)) 0
    if neg then if 2 ^ 63 < idx then none else some (2 ^ 64 - idx)
    else if 2 ^ 63 ≤ idx then none else some idx
  else none

/-- The key that the `zend_symtable` functions and PHP code use for a string. -/
def symtableKey (key : Bytes) : Key :=
  match handleNumericStr key with
  | some h => .int h
  | none => .str key

variable {α : Type}

/-- `zend_hash_find`. -/
def zendHashFind (a : ZendArray α) (key : Key) : Option α :=
  (a.find? fun x => x.1 = key).map Prod.snd

/-- `zend_symtable_find`: what PHP code reads at a string offset. -/
def zendSymtableFind (a : ZendArray α) (key : Bytes) : Option α := zendHashFind a (symtableKey key)

/-- `zend_hash_update`: the element with the key gets the value, or is appended. -/
def zendHashUpdate (a : ZendArray α) (key : Bytes) (v : α) : ZendArray α :=
  if (zendHashFind a (.str key)).isSome then
    a.map fun x => if x.1 = .str key then (x.1, v) else x
  else a ++ [(.str key, v)]

/-- `zend_hash_add_new`: an element is appended. -/
def zendHashAddNew (a : ZendArray α) (key : Bytes) (v : α) : ZendArray α := a ++ [(.str key, v)]

example : handleNumericStr [45, 49, 50] = some (2 ^ 64 - 12) := by decide

example : handleNumericStr [48, 49] = none := by decide

/-! ## Finding what was put in -/

variable {a : ZendArray α} {key k : Bytes} {v : α} {f : Bytes → Option α} {L : List Bytes}

/-- A key is found if and only if it occurs in the array. -/
theorem zendHashFind_isSome {key : Key} :
    (zendHashFind a key).isSome = true ↔ key ∈ a.map Prod.fst := by
  simp [zendHashFind, List.find?_isSome]

/-- The first of two arrays is searched first. -/
theorem zendHashFind_append {a' : ZendArray α} {key : Key} :
    zendHashFind (a ++ a') key = (zendHashFind a key).or (zendHashFind a' key) := by
  rw [zendHashFind, List.find?_append, Option.map_or]
  rfl

/-- An array with one element. -/
theorem zendHashFind_singleton {key key' : Key} :
    zendHashFind [(key, v)] key' = if key' = key then some v else none := by
  by_cases h : key' = key
  · simp [zendHashFind, h]
  · simp [zendHashFind, h, Ne.symm h]

/-- An element that is found is one of the array. -/
theorem zendHashFind_eq_some {key : Key} (h : zendHashFind a key = some v) : (key, v) ∈ a := by
  obtain ⟨x, hx, rfl⟩ := Option.map_eq_some_iff.1 h
  have hk : x.1 = key := by simpa using List.find?_some hx
  exact hk ▸ List.mem_of_find?_eq_some hx

/-- After an update the key has the new value, and the other keys have theirs. -/
theorem zendHashFind_update {key' : Key} : zendHashFind (zendHashUpdate a key v) key' =
    if key' = .str key then some v else zendHashFind a key' := by
  unfold zendHashUpdate
  split
  next hsome =>
    have hcomp : (fun x : Key × α => decide (x.1 = key')) ∘
        (fun x => if x.1 = .str key then (x.1, v) else x) = fun x => decide (x.1 = key') := by
      funext x
      dsimp only [Function.comp]
      split <;> rfl
    rw [zendHashFind, List.find?_map, hcomp, Option.map_map]
    split
    next hk =>
      subst hk
      obtain ⟨v', hv'⟩ := Option.isSome_iff_exists.1 hsome
      obtain ⟨x, hx, -⟩ := Option.map_eq_some_iff.1 hv'
      have hxk : x.1 = .str key := by simpa using List.find?_some hx
      rw [hx, Option.map_some, Function.comp, if_pos hxk]
    next hk =>
      refine Option.map_congr fun x hx => ?_
      have hxk : x.1 = key' := by simpa using List.find?_some hx
      rw [Function.comp, if_neg (hxk ▸ hk)]
  next hnone =>
    have hnone : zendHashFind a (.str key) = none := Option.not_isSome_iff_eq_none.1 hnone
    rw [zendHashFind_append, zendHashFind_singleton]
    split
    next hk => rw [hk, hnone, Option.none_or]
    next hk => rw [Option.or_none]

/-- An update puts a new key at the end and leaves the order of the old ones. -/
theorem map_fst_update : (zendHashUpdate a key v).map Prod.fst =
    if (zendHashFind a (.str key)).isSome then a.map Prod.fst
    else a.map Prod.fst ++ [.str key] := by
  unfold zendHashUpdate
  split
  · rw [List.map_map]
    refine List.map_congr_left fun x _ => ?_
    dsimp only [Function.comp]
    split <;> rfl
  · rw [List.map_append]
    rfl

/-- An update keeps the keys distinct. -/
theorem nodup_update (h : (a.map Prod.fst).Nodup) :
    ((zendHashUpdate a key v).map Prod.fst).Nodup := by
  rw [map_fst_update]
  split
  · exact h
  next hno =>
    rw [zendHashFind_isSome] at hno
    exact List.nodup_append.2 ⟨h, List.nodup_singleton _, by
      rintro x hx y hy rfl
      exact hno (List.mem_singleton.1 hy ▸ hx)⟩

/-! ## Batches -/

/-- Update an array with the keys of a list that have values. -/
def updateAll (f : Bytes → Option α) : List Bytes → ZendArray α → ZendArray α
  | [], a => a
  | k :: L, a =>
    match f k with
    | some v => updateAll f L (zendHashUpdate a k v)
    | none => updateAll f L a

/-- Append the keys of a list that satisfy a predicate, with the value `v`. -/
def addNewAll (p : Bytes → Bool) (v : α) : List Bytes → ZendArray α → ZendArray α
  | [], a => a
  | k :: L, a => addNewAll p v L (if p k then zendHashAddNew a k v else a)

/-- What PHP code reads in the array `a` for the keys of the list `L` is what `f` says, each key
occurs once, and there are no others. -/
structure Agrees (f : Bytes → Option α) (L : List Bytes) (a : ZendArray α) : Prop where
  nodup : (a.map Prod.fst).Nodup
  find : ∀ k ∈ L, zendSymtableFind a k = f k
  only : ∀ x ∈ a, ∃ k ∈ L, x.1 = symtableKey k ∧ (f k).isSome = true

/-- After the updates a key of the list has the value that `f` gives it, if any. -/
theorem find_updateAll (a : ZendArray α) (key : Key) : zendHashFind (updateAll f L a) key =
    match key with
    | .str k => if k ∈ L ∧ (f k).isSome then f k else zendHashFind a key
    | .int _ => zendHashFind a key := by
  induction L generalizing a with
  | nil => cases key <;> simp [updateAll]
  | cons k' L ih =>
    rw [updateAll]
    cases hf : f k' with
    | none =>
      dsimp only
      rw [ih]
      cases key with
      | int h => rfl
      | str k => grind
    | some v =>
      dsimp only
      rw [ih, zendHashFind_update]
      cases key with
      | int h => simp
      | str k => grind

/-- The updates make no key occur twice. -/
theorem nodup_updateAll (h : (a.map Prod.fst).Nodup) :
    ((updateAll f L a).map Prod.fst).Nodup := by
  induction L generalizing a with
  | nil => exact h
  | cons k L ih =>
    rw [updateAll]
    split
    · exact ih (nodup_update h)
    · exact ih h

/-- A string that is not the decimal form of an integer is its own key. -/
theorem symtableKey_of_none (h : handleNumericStr k = none) : symtableKey k = .str k := by
  rw [symtableKey, h]

/-- A batch of updates agrees with the single values unless a key with a value is the decimal form
of an integer. -/
theorem agrees_updateAll : Agrees f L (updateAll f L []) ↔
    ∀ k ∈ L, (f k).isSome = true → handleNumericStr k = none := by
  constructor
  · intro h k hk hf
    by_contra hne
    obtain ⟨i, hi⟩ := Option.ne_none_iff_exists'.1 hne
    have hfind := h.find k hk
    rw [zendSymtableFind, symtableKey, hi, find_updateAll] at hfind
    rw [← hfind] at hf
    cases hf
  · intro h
    refine ⟨nodup_updateAll List.nodup_nil, fun k hk => ?_, fun x hx => ?_⟩
    · cases hf : f k with
      | some v =>
        rw [zendSymtableFind, symtableKey_of_none (h k hk (by rw [hf]; rfl)), find_updateAll]
        dsimp only
        rw [if_pos ⟨hk, by rw [hf]; rfl⟩, hf]
      | none =>
        rw [zendSymtableFind, find_updateAll]
        cases hs : symtableKey k with
        | int i => rfl
        | str k' =>
          have hkk : k' = k := by
            unfold symtableKey at hs
            split at hs <;> cases hs
            rfl
          dsimp only
          rw [hkk, if_neg (by simp [hf])]
          rfl
    · have hfound : (zendHashFind (updateAll f L []) x.1).isSome = true :=
        zendHashFind_isSome.2 (List.mem_map_of_mem hx)
      rw [find_updateAll] at hfound
      obtain ⟨key, v⟩ := x
      cases key with
      | int i => cases hfound
      | str k =>
        dsimp only at hfound
        split at hfound
        next hk => exact ⟨k, hk.1, (symtableKey_of_none (h k hk.1 hk.2)).symm, hk.2⟩
        next => cases hfound

/-- The keys that satisfy the predicate are appended in the order of the list. -/
theorem addNewAll_eq (p : Bytes → Bool) (v : α) (L : List Bytes) (a : ZendArray α) :
    addNewAll p v L a = a ++ (L.filter p).map fun k => (.str k, v) := by
  induction L generalizing a with
  | nil => simp [addNewAll]
  | cons k L ih =>
    rw [addNewAll, ih]
    by_cases hp : p k = true
    · simp [hp, zendHashAddNew]
    · simp [hp]

/-- What is in the array then, if it was empty before. -/
theorem mem_addNewAll {p : Bytes → Bool} {x : Key × α} :
    x ∈ addNewAll p v L [] ↔ ∃ k, (k ∈ L ∧ p k = true) ∧ x = (.str k, v) := by
  rw [addNewAll_eq, List.nil_append, List.mem_map]
  simp only [List.mem_filter, eq_comm]

/-- A batch of additions without a check agrees with the single values unless a key with a value
is there twice, or is the decimal form of an integer. -/
theorem agrees_addNewAll (p : Bytes → Bool) (v : α) (L : List Bytes) :
    Agrees (fun k => if p k then some v else none) L (addNewAll p v L []) ↔
      (L.filter p).Nodup ∧ ∀ k ∈ L, p k = true → handleNumericStr k = none := by
  have hkeys : (addNewAll p v L []).map Prod.fst = (L.filter p).map Key.str := by
    rw [addNewAll_eq, List.nil_append, List.map_map]
    rfl
  have hnodup : ((addNewAll p v L []).map Prod.fst).Nodup ↔ (L.filter p).Nodup := by
    rw [hkeys]
    exact List.nodup_map_iff fun _ _ => Key.str.inj
  constructor
  · intro h
    refine ⟨hnodup.1 h.nodup, fun k hk hp => ?_⟩
    by_contra hne
    obtain ⟨i, hi⟩ := Option.ne_none_iff_exists'.1 hne
    have hfind := h.find k hk
    rw [zendSymtableFind, symtableKey, hi, if_pos hp] at hfind
    obtain ⟨k', -, heq⟩ := mem_addNewAll.1 (zendHashFind_eq_some hfind)
    cases heq
  · rintro ⟨hnd, h⟩
    refine ⟨hnodup.2 hnd, fun k hk => ?_, fun x hx => ?_⟩
    · by_cases hp : p k = true
      · rw [zendSymtableFind, symtableKey_of_none (h k hk hp), if_pos hp]
        have hmem : (.str k, v) ∈ addNewAll p v L [] := mem_addNewAll.2 ⟨k, ⟨hk, hp⟩, rfl⟩
        have hsome := zendHashFind_isSome.2 (List.mem_map_of_mem hmem)
        obtain ⟨v', hv'⟩ := Option.isSome_iff_exists.1 hsome
        obtain ⟨k', -, heq⟩ := mem_addNewAll.1 (zendHashFind_eq_some hv')
        rw [hv', (Prod.mk.inj heq).2]
      · rw [if_neg hp]
        by_contra hne
        obtain ⟨v', hv'⟩ := Option.ne_none_iff_exists'.1 hne
        obtain ⟨k', ⟨-, hp'⟩, heq⟩ := mem_addNewAll.1 (zendHashFind_eq_some hv')
        unfold symtableKey at heq
        split at heq <;> cases heq
        exact hp hp'
    · obtain ⟨k, ⟨hk, hp⟩, rfl⟩ := mem_addNewAll.1 hx
      exact ⟨k, hk, (symtableKey_of_none (h k hk hp)).symm, by rw [if_pos hp]; rfl⟩

end ImmutableCache
