import Mathlib.Tactic.Common

/-!
# Singly linked lists

`Chain next head xs`: starting from the pointer `head` and following `next`, one visits exactly the
nodes `xs` and comes to the null pointer. A node is appended by setting the null pointer at the end,
which is `head` if the list is empty.
-/

variable {α : Type*}

/-- The list that starts at `head` and is linked by `next` has the nodes `xs`. -/
def Chain (next : α → Option α) : Option α → List α → Prop
  | head, [] => head = none
  | head, x :: xs => head = some x ∧ Chain next (next x) xs

namespace Chain

variable {next next' : α → Option α} {head : Option α} {xs ys : List α} {x y : α}

@[simp] theorem nil_iff : Chain next head [] ↔ head = none := Iff.rfl

/-- The first address of a chain. -/
theorem cons_iff : Chain next head (x :: xs) ↔ head = some x ∧ Chain next (next x) xs := Iff.rfl

/-- The nodes are determined by the links. -/
theorem unique (h : Chain next head xs) (h' : Chain next head ys) : xs = ys := by
  induction xs generalizing head ys with
  | nil =>
    cases ys with
    | nil => rfl
    | cons y ys =>
      rw [nil_iff.1 h] at h'
      cases h'.1
  | cons x xs ih =>
    cases ys with
    | nil =>
      rw [nil_iff.1 h'] at h
      cases h.1
    | cons y ys =>
      obtain rfl : x = y := Option.some.inj (h.1.symm.trans h'.1)
      rw [ih h.2 h'.2]

/-- Only the links of the nodes matter. -/
theorem congr (h : Chain next head xs) (hn : ∀ z ∈ xs, next' z = next z) :
    Chain next' head xs := by
  induction xs generalizing head with
  | nil => exact h
  | cons x xs ih =>
    refine ⟨h.1, ?_⟩
    rw [hn x (by simp)]
    exact ih h.2 fun z hz => hn z (by simp [hz])

/-- Appending to a list with a last node `x`: the link of `x` is set. -/
theorem append (h : Chain next head (xs ++ [x])) (hn : ∀ z ∈ xs, next' z = next z)
    (hx : next' x = some y) (hy : next' y = none) : Chain next' head (xs ++ [x] ++ [y]) := by
  induction xs generalizing head with
  | nil => exact ⟨h.1, hx, hy⟩
  | cons z xs ih =>
    refine ⟨h.1, ?_⟩
    rw [hn z (by simp)]
    exact ih h.2 fun z' hz => hn z' (by simp [hz])

/-- The link of the last node is null. -/
theorem next_last (h : Chain next head (xs ++ [x])) : next x = none := by
  induction xs generalizing head with
  | nil => exact h.2
  | cons z xs ih => exact ih h.2

/-- The link after a part of the list leads to the rest of it. -/
theorem link (h : Chain next head (xs ++ ys)) : xs.getLast?.elim head next = ys.head? := by
  induction xs generalizing head with
  | nil =>
    cases ys with
    | nil => exact nil_iff.1 h
    | cons y ys => exact h.1
  | cons x xs ih =>
    rw [List.getLast?_cons, Option.elim_some]
    cases xs with
    | nil => exact ih h.2
    | cons z xs =>
      rw [← ih h.2, List.getLast?_cons]
      rfl

/-- After a node the list goes on. -/
theorem rest (h : Chain next head xs) (hx : x ∈ xs) : ∃ ys, Chain next (next x) ys := by
  induction xs generalizing head with
  | nil => cases hx
  | cons y xs ih =>
    rcases List.mem_cons.1 hx with rfl | hx
    · exact ⟨xs, h.2⟩
    · exact ih h.2 hx

/-- Appending to the empty list: the head is set. -/
theorem singleton (hy : next y = none) : Chain next (some y) [y] := ⟨rfl, hy⟩

end Chain
