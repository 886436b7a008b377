import ImmutableCache.Cache.Ops

/-!
# The stack of an iterator

`immutable_cache_stack.c`: a growing array of pointers. Its size is a `size_t`, and
`immutable_cache_stack_size` returns it as an `int`. The size in bytes of the buffer is computed in
`size_t`.
-/

namespace ImmutableCache

/-- An `immutable_cache_stack_t`: the items up to `size`, the capacity, and the bytes that the
buffer was allocated with. -/
structure Stack (α : Type) where
  data : List α
  capacity : Nat
  buffer : Nat

namespace Stack

variable {α : Type}

/-- `immutable_cache_stack_create`. -/
def create (sizeHint : Nat) : Stack α :=
  let capacity := if 0 < sizeHint then sizeHint else 10
  { data := [], capacity, buffer := 8 * capacity % 2 ^ 64 }

/-- Double the capacity of a full stack. -/
def grow (s : Stack α) : Stack α :=
  let capacity := s.capacity * 2 % 2 ^ 64
  { s with capacity, buffer := 8 * capacity % 2 ^ 64 }

/-- `immutable_cache_stack_push`. -/
def push (s : Stack α) (item : α) : Stack α :=
  let s := if s.data.length = s.capacity then s.grow else s
  { s with data := s.data ++ [item] }

/-- `immutable_cache_stack_pop`: the item on top, and the stack without it. -/
def pop (s : Stack α) : Option α × Stack α :=
  (s.data.getLast?, { s with data := s.data.dropLast })

/-- `immutable_cache_stack_get`; reading outside the items is an assertion failure. -/
def get? (s : Stack α) (n : Nat) : Option α := s.data[n]?

/-- `immutable_cache_stack_size`. -/
@[irreducible] def size (s : Stack α) : Int := toInt s.data.length

/-- Pop everything: the loop at the start of a fetch. -/
def popAll (s : Stack α) : Nat → Stack α
  | 0 => s
  | fuel + 1 => if 0 < s.size then popAll s.pop.2 fuel else s

/-- A size that an `int` can hold is the number of items. -/
theorem size_eq {s : Stack α} (h : s.data.length < 2 ^ 31) : s.size = s.data.length := by
  unfold size toInt
  rw [Int.bmod_def]
  omega

@[simp] theorem push_data (s : Stack α) (item : α) : (s.push item).data = s.data ++ [item] := by
  unfold push
  dsimp only
  split <;> rfl

/-- The loop leaves a stack alone whose size is not positive. -/
theorem popAll_of_size {s : Stack α} (h : s.size ≤ 0) (fuel : Nat) : s.popAll fuel = s := by
  cases fuel with
  | zero => rfl
  | succ fuel => rw [popAll, if_neg (not_lt.2 h)]

/-- The loop empties a stack whose size an `int` can hold. -/
theorem popAll_data {s : Stack α} {fuel : Nat} (h : s.data.length < 2 ^ 31)
    (hf : s.data.length ≤ fuel) : (s.popAll fuel).data = [] := by
  induction fuel generalizing s with
  | zero => exact List.eq_nil_of_length_eq_zero (Nat.le_zero.1 hf)
  | succ fuel ih =>
    rw [popAll]
    split
    next hpos =>
      have hlen : s.pop.2.data.length = s.data.length - 1 := List.length_dropLast
      exact ih (by omega) (by omega)
    next hpos =>
      rw [size_eq h] at hpos
      exact List.eq_nil_of_length_eq_zero (by omega)

end Stack

end ImmutableCache
