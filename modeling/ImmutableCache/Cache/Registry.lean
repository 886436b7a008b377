import Mathlib.Logic.Basic
import Mathlib.Data.List.Basic
import Mathlib.Tactic.Common

/-!
# The registry of serializers

`immutable_cache_serializers` is a table of 16 elements, which registrations fill from the front. A
`NULL` name ends it while there is room; a full table has no end marker. `find_serializer` is
bounded by the size of the table, and `get_supported_serializer_names` by the end marker only. A
read behind the last element gives `none` here. The registry never calls a function that it holds,
so the types of the functions and of their `config` are parameters.
-/

namespace ImmutableCache

/-- `IMMUTABLE_CACHE_MAX_SERIALIZERS`. -/
def maxSerializers : Nat := 16

/-- An element of `immutable_cache_serializers`; the pointers may be `NULL`. -/
structure SerializerSlot (σ τ κ : Type) where
  name : Option String
  serialize : Option σ
  unserialize : Option τ
  config : Option κ

/-- The arguments of a call of `_immutable_cache_register_serializer`. -/
structure Registration (σ τ κ : Type) where
  name : String
  serialize : Option σ
  unserialize : Option τ
  config : Option κ

variable {σ τ κ : Type}

/-- An element of the zeroed table. -/
def SerializerSlot.empty : SerializerSlot σ τ κ := ⟨none, none, none, none⟩

/-- What a registration writes into an element. -/
def Registration.slot (r : Registration σ τ κ) : SerializerSlot σ τ κ :=
  ⟨some r.name, r.serialize, r.unserialize, r.config⟩

/-- `immutable_cache_serializers[i+1].name = NULL`, if there is such an element. -/
def clearNext : List (SerializerSlot σ τ κ) → List (SerializerSlot σ τ κ)
  | [] => []
  | s :: slots => { s with name := none } :: slots

/-- The loop of `_immutable_cache_register_serializer` over the elements from some index on. -/
def registerFrom (r : Registration σ τ κ) :
    List (SerializerSlot σ τ κ) → Bool × List (SerializerSlot σ τ κ)
  | [] => (false, [])
  | s :: slots =>
    if s.name.isNone then (true, r.slot :: clearNext slots)
    else ((registerFrom r slots).1, s :: (registerFrom r slots).2)

/-- The table `immutable_cache_serializers`. -/
structure Registry (σ τ κ : Type) where
  slots : List (SerializerSlot σ τ κ)
  length_eq : slots.length = maxSerializers

/-- A registration does not change the number of slots. -/
theorem registerFrom_length (r : Registration σ τ κ) (slots : List (SerializerSlot σ τ κ)) :
    (registerFrom r slots).2.length = slots.length := by
  induction slots with
  | nil => rfl
  | cons s slots ih =>
    rw [registerFrom]
    split
    next => cases slots <;> rfl
    next => exact congrArg (· + 1) ih

namespace Registry

/-- The table at the start. -/
def empty : Registry σ τ κ where
  slots := List.replicate maxSerializers .empty
  length_eq := List.length_replicate

/-- `_immutable_cache_register_serializer`: what it returns, the warnings, and the table after
it. -/
def register (t : Registry σ τ κ) (r : Registration σ τ κ) :
    Bool × List String × Registry σ τ κ :=
  if r.name = "default" then
    (false,
      ["_immutable_cache_register_serializer: The serializer name 'default' is reserved."], t)
  else
    ((registerFrom r t.slots).1, [],
      ⟨(registerFrom r t.slots).2, (registerFrom_length r t.slots).trans t.length_eq⟩)

/-- The loop of `immutable_cache_get_supported_serializer_names` over the elements from the index
`i` on, with what is in `names` so far. -/
def namesFrom : Nat → Option String → List (SerializerSlot σ τ κ) → Option (Option String)
  -- the read of `serializer->name` behind the table
  | _, _, [] => none
  | i, names, s :: slots =>
    match s.name with
    | none => some names
    | some name =>
      let names := if i ≠ 0 then some (names.getD "" ++ ", ") else names
      namesFrom (i + 1) (some (names.getD "" ++ name)) slots

/-- `immutable_cache_get_supported_serializer_names`. -/
def supportedNames (t : Registry σ τ κ) : Option String :=
  (namesFrom 0 none t.slots).map fun names =>
    match names with
    | none => "Broken"
    | some names => names ++ ", default"

/-- `immutable_cache_find_serializer`: the element with the name, or `NULL`, and the warnings. -/
def find (t : Registry σ τ κ) (name : String) :
    Option (Option (SerializerSlot σ τ κ) × List String) :=
  match t.slots.find? (fun s => s.name = some name) with
  | some s => some (some s, [])
  | none =>
    if name ≠ "default" then
      t.supportedNames.map fun names =>
        (none, ["Could not find immutable_cache.serializer='" ++ name ++
          "'. Supported serializers: " ++ names])
    else some (none, [])

/-- A sequence of registrations: those that return 1, in order, and the table after them. -/
def registerAll (t : Registry σ τ κ) :
    List (Registration σ τ κ) → List (Registration σ τ κ) × Registry σ τ κ
  | [] => ([], t)
  | r :: rs =>
    let step := t.register r
    let rest := step.2.2.registerAll rs
    (if step.1 then r :: rest.1 else rest.1, rest.2)

/-- The first of the registrations under a name. -/
def firstNamed (acc : List (Registration σ τ κ)) (name : String) : Option (Registration σ τ κ) :=
  acc.find? fun r => r.name = name

/-- The text that lists the registrations: their names and `default`, or `Broken` if there are
none. -/
def listing (acc : List (Registration σ τ κ)) : String :=
  if acc.isEmpty then "Broken" else ", ".intercalate (acc.map (·.name) ++ ["default"])

/-- With the registrations `acc` accepted, the table is scanned within its bounds: a name is found
as its first registration or not at all, and the list of names is that of the registrations. -/
structure Scanned (t : Registry σ τ κ) (acc : List (Registration σ τ κ)) : Prop where
  find : ∀ name, (t.find name).map Prod.fst = some ((firstNamed acc name).map Registration.slot)
  names : t.supportedNames = some (listing acc)

variable {t : Registry σ τ κ} {r : Registration σ τ κ} {rs acc : List (Registration σ τ κ)}

/-! ## What the table holds -/

/-- The table holds the registrations `acc`, and is empty behind them. -/
structure Holds (t : Registry σ τ κ) (acc : List (Registration σ τ κ)) : Prop where
  slots : t.slots = acc.map Registration.slot ++
    List.replicate (maxSerializers - acc.length) .empty
  reserved : ∀ r ∈ acc, r.name ≠ "default"

/-- No more are registered than there are slots. -/
theorem Holds.length_le (h : t.Holds acc) : acc.length ≤ maxSerializers := by
  have hlen := t.length_eq
  rw [h.slots, List.length_append, List.length_map] at hlen
  omega

/-- Nothing has been registered. -/
theorem holds_empty : (empty : Registry σ τ κ).Holds [] := ⟨rfl, nofun⟩

/-- A registration goes into the first empty element. -/
theorem registerFrom_holds (r : Registration σ τ κ) (acc : List (Registration σ τ κ)) (n : Nat) :
    registerFrom r (acc.map Registration.slot ++ List.replicate n .empty) =
      if n = 0 then (false, acc.map Registration.slot)
      else (true, (acc ++ [r]).map Registration.slot ++ List.replicate (n - 1) .empty) := by
  induction acc with
  | nil =>
    cases n with
    | zero => rfl
    | succ n =>
      show (true, r.slot :: clearNext (List.replicate n .empty)) = _
      cases n <;> rfl
  | cons a acc ih =>
    rw [List.map_cons, List.cons_append, registerFrom, if_neg (by simp [Registration.slot]), ih]
    split <;> rfl

/-- A registration is accepted if its name is not reserved and there is room. -/
theorem Holds.register (h : t.Holds acc) (r : Registration σ τ κ) :
    (r.name = "default" ∨ acc.length = maxSerializers) ∧ (t.register r).1 = false ∧
        (t.register r).2.2.Holds acc ∨
      r.name ≠ "default" ∧ acc.length < maxSerializers ∧ (t.register r).1 = true ∧
        (t.register r).2.2.Holds (acc ++ [r]) := by
  have hle := h.length_le
  unfold Registry.register
  split
  next hd => exact .inl ⟨.inl hd, rfl, h⟩
  next hd =>
    have hfrom := registerFrom_holds r acc (maxSerializers - acc.length)
    rw [← h.slots] at hfrom
    dsimp only
    split at hfrom
    next hfull =>
      refine .inl ⟨.inr (by omega), congrArg Prod.fst hfrom, ?_, h.reserved⟩
      rw [hfull, List.replicate_zero, List.append_nil]
      exact congrArg Prod.snd hfrom
    next hroom =>
      refine .inr ⟨hd, by omega, congrArg Prod.fst hfrom, ?_, ?_⟩
      · rw [List.length_append, List.length_singleton, ← Nat.sub_sub]
        exact congrArg Prod.snd hfrom
      · intro a ha
        rcases List.mem_append.1 ha with ha | ha
        · exact h.reserved a ha
        · exact List.mem_singleton.1 ha ▸ hd

/-- The table after a sequence of registrations holds those that were accepted. They are the ones
with another name than `default`, as many as there is room for. -/
theorem Holds.registerAll (h : t.Holds acc) (rs : List (Registration σ τ κ)) :
    (t.registerAll rs).2.Holds (acc ++ (t.registerAll rs).1) ∧
      (acc ++ (t.registerAll rs).1).length =
        min maxSerializers (acc.length + rs.countP fun r => r.name ≠ "default") := by
  induction rs generalizing t acc with
  | nil =>
    have hle := h.length_le
    refine ⟨?_, ?_⟩
    · rw [Registry.registerAll, List.append_nil]
      exact h
    · rw [Registry.registerAll, List.append_nil]
      show acc.length = min _ (acc.length + 0)
      omega
  | cons r rs ih =>
    rw [Registry.registerAll, List.countP_cons]
    dsimp only
    obtain ⟨hwhy, hret, h'⟩ | ⟨hd, hroom, hret, h'⟩ := h.register r
    · obtain ⟨h1, h2⟩ := ih h'
      rw [hret, if_neg Bool.false_ne_true]
      refine ⟨h1, h2.trans ?_⟩
      rcases hwhy with hd | hfull
      · simp [hd]
      · omega
    · obtain ⟨h1, h2⟩ := ih h'
      rw [hret, if_pos rfl]
      rw [List.append_assoc] at h1 h2
      refine ⟨h1, h2.trans ?_⟩
      simp only [List.length_append, List.length_singleton, hd, ne_eq, not_false_eq_true,
        decide_true, if_true]
      omega

/-! ## The scans -/

/-- The loop over the names of the registrations, behind the first element. -/
theorem namesFrom_map (acc : List (Registration σ τ κ)) (n i : Nat) (names : String) :
    namesFrom (i + 1) (some names) (acc.map Registration.slot ++ List.replicate n .empty) =
      if n = 0 then none
      else some (some (acc.foldl (fun names r => names ++ ", " ++ r.name) names)) := by
  induction acc generalizing i names with
  | nil => cases n <;> rfl
  | cons r acc ih => exact ih (i + 1) (names ++ ", " ++ r.name)

/-- Appending the names one by one is what `intercalate` does. -/
theorem intercalate_names (acc : List (Registration σ τ κ)) (names : String) :
    ", ".intercalate (names :: (acc.map (·.name) ++ ["default"])) =
      acc.foldl (fun names r => names ++ ", " ++ r.name) names ++ ", default" := by
  induction acc generalizing names with
  | nil =>
    show names ++ ", " ++ "default" = names ++ ", default"
    rw [String.append_assoc]
    rfl
  | cons r acc ih => exact ih (names ++ ", " ++ r.name)

/-- The list of names is read within the table if and only if there is room. -/
theorem Holds.supportedNames (h : t.Holds acc) : t.supportedNames =
    if acc.length = maxSerializers then none else some (listing acc) := by
  have hle := h.length_le
  rw [Registry.supportedNames, h.slots]
  cases acc with
  | nil => rfl
  | cons r acc =>
    show (namesFrom 1 (some ("" ++ r.name)) (acc.map Registration.slot ++
      List.replicate (maxSerializers - (r :: acc).length) .empty)).map _ = _
    rw [namesFrom_map, String.empty_append]
    by_cases hfull : (r :: acc).length = maxSerializers
    · rw [if_pos hfull, if_pos (by omega)]
      rfl
    · rw [if_neg hfull, if_neg (by omega)]
      exact congrArg some (intercalate_names acc r.name).symm

/-- The first element with a name is the first registration under it. -/
theorem Holds.find_slots (h : t.Holds acc) (name : String) :
    t.slots.find? (fun s => s.name = some name) = (firstNamed acc name).map Registration.slot := by
  have hempty : (List.replicate (maxSerializers - acc.length) SerializerSlot.empty :
      List (SerializerSlot σ τ κ)).find? (fun s => s.name = some name) = none := by
    refine List.find?_eq_none.2 fun s hs => ?_
    rw [List.eq_of_mem_replicate hs]
    simp [SerializerSlot.empty]
  rw [h.slots, List.find?_append, hempty, Option.or_none, List.find?_map, firstNamed]
  refine congrArg (Option.map _) (congrArg₂ List.find? (funext fun r => ?_) rfl)
  simp [Registration.slot]

/-- With room for one more the table is scanned within its bounds. -/
theorem Holds.scanned (h : t.Holds acc) (hroom : acc.length ≠ maxSerializers) : t.Scanned acc := by
  have hnames := h.supportedNames
  rw [if_neg hroom] at hnames
  refine ⟨fun name => ?_, hnames⟩
  have hfind := h.find_slots name
  unfold Registry.find
  rw [hfind, hnames]
  cases firstNamed acc name with
  | some r => rfl
  | none =>
    show Option.map _ (if name ≠ "default" then _ else _) = _
    split <;> rfl

/-- After any sequence of registrations, the readers stay within the table, find the first accepted
registration of each name and list the accepted ones in order, if and only if fewer than 16 of the
registrations have another name than `default`. -/
theorem registerAll_scanned (rs : List (Registration σ τ κ)) :
    ((empty : Registry σ τ κ).registerAll rs).2.Scanned (empty.registerAll rs).1 ↔
      (rs.countP fun r => r.name ≠ "default") < maxSerializers := by
  obtain ⟨h, hlen⟩ := Holds.registerAll holds_empty rs
  rw [List.nil_append] at h hlen
  rw [List.length_nil, Nat.zero_add] at hlen
  constructor
  · intro hs
    by_contra hfull
    have hnames := hs.names
    rw [h.supportedNames, if_pos (by omega)] at hnames
    cases hnames
  · intro hroom
    exact h.scanned (by omega)

/-- The table after 16 registrations, `php` and 15 others. -/
def full : List (Registration Unit Unit Unit) :=
  ["php", "a", "b", "c", "d", "e", "f", "g", "h", "i", "j", "k", "l", "m", "n", "o"].map
    fun name => ⟨name, some (), some (), none⟩

/-- With 16 registrations accepted, the list of names is read behind the table. -/
theorem registerAll_not_scanned :
    ((empty.registerAll full).1.length = maxSerializers ∧
      (empty.registerAll full).2.supportedNames = none) ∧
      ¬ (empty.registerAll full).2.Scanned (empty.registerAll full).1 := by
  have hnames : (empty.registerAll full).2.supportedNames = none := by decide +kernel
  refine ⟨⟨by decide +kernel, hnames⟩, fun hs => ?_⟩
  have h := hs.names
  rw [hnames] at h
  cases h

end Registry

end ImmutableCache
