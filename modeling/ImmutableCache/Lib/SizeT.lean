import Mathlib.Tactic

/-!
# `size_t` arithmetic

The 64-bit unsigned arithmetic of the C code, on naturals below `2 ^ 64`: every operation reduces
modulo `2 ^ 64`. The lemmas give the exact value of an operation whose result does not wrap, and
the value of the align-up formula `w * (1 + (x - 1) / w)`.
-/

namespace SizeT

/-- `a + b` in `size_t`. -/
def add (a b : Nat) : Nat := (a + b) % 2 ^ 64

/-- `a - b` in `size_t`. -/
def sub (a b : Nat) : Nat := (a + (2 ^ 64 - b)) % 2 ^ 64

/-- `a * b` in `size_t`. -/
def mul (a b : Nat) : Nat := a * b % 2 ^ 64

/-- `x` padded up to a multiple of `w`, by the formula `w * (1 + (x - 1) / w)`. -/
def alignUp (w x : Nat) : Nat := mul w (add 1 (sub x 1 / w))

/-- A sum that fits does not wrap. -/
theorem add_eq {a b : Nat} (h : a + b < 2 ^ 64) : add a b = a + b := Nat.mod_eq_of_lt h

/-- Adding up what fits does not wrap. -/
theorem foldl_add_eq {f : Nat → Nat} {is : List Nat} {a : Nat}
    (h : a + (is.map f).sum < 2 ^ 64) :
    is.foldl (fun a i => add a (f i)) a = a + (is.map f).sum := by
  induction is generalizing a with
  | nil => rfl
  | cons i is ih =>
    rw [List.map_cons, List.sum_cons] at h ⊢
    rw [List.foldl_cons, add_eq (by omega), ih (by omega), Nat.add_assoc]

/-- A difference that is not negative does not wrap. -/
theorem sub_eq {a b : Nat} (h : b ≤ a) (ha : a < 2 ^ 64) : sub a b = a - b := by
  unfold sub
  omega

/-- Aligning a positive number to eight bytes, when the result fits, is rounding up. -/
theorem alignUp_eight {x : Nat} (h0 : 0 < x) (h : x + 8 ≤ 2 ^ 64) :
    alignUp 8 x = (x + 7) / 8 * 8 := by
  have hs : sub x 1 = x - 1 := sub_eq h0 (by omega)
  unfold alignUp
  rw [hs, add_eq (by omega)]
  unfold mul
  omega

end SizeT
