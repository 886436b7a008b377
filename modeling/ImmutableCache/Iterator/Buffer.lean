import ImmutableCache.Iterator.Chunk

/-!
# The buffer of an iterator's stack

A `RawStack` is an `immutable_cache_stack_t` with the cells of its buffer: a store outside the
buffer is lost, and `erealloc` keeps no more cells than both buffers have. As long as every push
stores inside the buffer, it behaves as the list of its items (`RawStack.Sound`), and the stack of
the iterator is that list (`RawStack.Sound.stack`). The capacity that a stack starts with is doubled
when it is full; its size in bytes is a `size_t`, and so the buffer is too small from the first
capacity of `2 ^ 61` on (`stack_safe_iff`).
-/

namespace ImmutableCache

open Bail

/-- An operation on a stack. -/
inductive StackOp (α : Type) where
  | push (item : α)
  | pop

/-- An `immutable_cache_stack_t` with the cells of its buffer. -/
structure RawStack (α : Type) where
  cells : Nat → Option α
  size : Nat
  capacity : Nat
  buffer : Nat

variable {α : Type}

namespace RawStack

/-- `immutable_cache_stack_create`. -/
def create (sizeHint : Nat) : RawStack α :=
  let capacity := if 0 < sizeHint then sizeHint else 10
  { cells := fun _ => none, size := 0, capacity, buffer := 8 * capacity % 2 ^ 64 }

/-- Double the capacity. -/
def grow (r : RawStack α) : RawStack α :=
  let capacity := r.capacity * 2 % 2 ^ 64
  let buffer := 8 * capacity % 2 ^ 64
  { r with
    capacity, buffer
    cells := fun i => if i < r.buffer / 8 ∧ i < buffer / 8 then r.cells i else none }

/-- The stack as a push finds it when it stores the item. -/
def ready (r : RawStack α) : RawStack α := if r.size = r.capacity then r.grow else r

/-- The item is stored inside the buffer. -/
def InBounds (r : RawStack α) : Prop := r.ready.size < r.ready.buffer / 8

/-- `immutable_cache_stack_push`. -/
def push (r : RawStack α) (item : α) : RawStack α :=
  let r := r.ready
  { r with
    cells := if r.size < r.buffer / 8 then Function.update r.cells r.size (some item) else r.cells
    size := SizeT.add r.size 1 }

/-- `immutable_cache_stack_pop`. -/
def pop (r : RawStack α) : Option α × RawStack α :=
  let size := SizeT.sub r.size 1
  (r.cells size, { r with size })

/-- Run beside the list `s` of the items, every push stores inside the buffer and every pop returns
the item that was pushed last of those still there. An empty stack is not popped. -/
def Safe : RawStack α → Stack α → List (StackOp α) → Prop
  | _, _, [] => True
  | r, s, .push a :: ops => r.InBounds ∧ (r.push a).Safe (s.push a) ops
  | r, s, .pop :: ops =>
    if s.data = [] then r.Safe s ops else r.pop.1 = s.pop.1 ∧ r.pop.2.Safe s.pop.2 ops

end RawStack

/-- The capacity that a stack starts with. -/
def stackCapacity (chunkSize : Nat) : Nat := if 0 < chunkSize then chunkSize else 10

/-- The number of items that a stack with the initial capacity `c` has room for: `c` doubled until
it is `2 ^ 60` at least, or what is left of a larger one modulo `2 ^ 61`. -/
def stackLimit (c : Nat) : Nat := if c < 2 ^ 61 then c * 2 ^ (60 - Nat.log2 c) else c % 2 ^ 61

/-- Run on a stack with `n` items, every push finds fewer than `limit` items. -/
def PushesFit (limit : Nat) : Nat → List (StackOp α) → Prop
  | _, [] => True
  | n, .push _ :: ops => n < limit ∧ PushesFit limit (n + 1) ops
  | n, .pop :: ops => PushesFit limit (n - 1) ops

/-! ## The limit -/

/-- The last doubling of a capacity that keeps the buffer large enough. -/
theorem stackLimit_small {c : Nat} (h0 : 0 < c) (h : c < 2 ^ 61) :
    stackLimit c = c * 2 ^ (60 - Nat.log2 c) ∧ 2 ^ 60 ≤ stackLimit c ∧ stackLimit c < 2 ^ 61 := by
  have heq : stackLimit c = c * 2 ^ (60 - Nat.log2 c) := if_pos h
  have hlog : Nat.log2 c < 61 := (Nat.log2_lt h0.ne').2 h
  have hlo : 2 ^ Nat.log2 c ≤ c := Nat.log2_self_le h0.ne'
  have hhi : c < 2 ^ (Nat.log2 c + 1) := Nat.lt_log2_self
  have hpos : 0 < 2 ^ (60 - Nat.log2 c) := Nat.two_pow_pos _
  refine ⟨heq, ?_, ?_⟩
  · calc 2 ^ 60 = 2 ^ Nat.log2 c * 2 ^ (60 - Nat.log2 c) := by
          rw [← Nat.pow_add, Nat.add_sub_cancel' (by omega)]
      _ ≤ c * 2 ^ (60 - Nat.log2 c) := Nat.mul_le_mul_right _ hlo
      _ = stackLimit c := heq.symm
  · calc stackLimit c = c * 2 ^ (60 - Nat.log2 c) := heq
      _ < 2 ^ (Nat.log2 c + 1) * 2 ^ (60 - Nat.log2 c) := Nat.mul_lt_mul_of_pos_right hhi hpos
      _ = 2 ^ 61 := by rw [← Nat.pow_add]; congr 1; omega

/-- The number of items fits into a `size_t` in bytes. -/
theorem stackLimit_lt {c : Nat} (h0 : 0 < c) : stackLimit c < 2 ^ 61 := by
  rcases lt_or_ge c (2 ^ 61) with hc | hc
  · exact (stackLimit_small h0 hc).2.2
  · rw [stackLimit, if_neg (by omega)]
    exact Nat.mod_lt _ (by decide)

/-- Below the limit, a doubled capacity can be doubled once more. -/
theorem double_le_limit {c i : Nat} (h0 : 0 < c) (h : c < 2 ^ 61)
    (hlt : c * 2 ^ i < stackLimit c) : c * 2 ^ (i + 1) ≤ stackLimit c := by
  have heq := (stackLimit_small h0 h).1
  rw [heq] at hlt ⊢
  have hi : i < 60 - Nat.log2 c := by
    by_contra hle
    have := Nat.mul_le_mul_left c (Nat.pow_le_pow_right (n := 2) (by decide) (Nat.le_of_not_lt hle))
    omega
  exact Nat.mul_le_mul_left c (Nat.pow_le_pow_right (by decide) hi)

/-! ## The invariant -/

namespace RawStack

/-- The stack holds the items of `s`, and has come from the initial capacity `c` by doublings that
keep its buffer large enough. -/
structure Sound (c : Nat) (r : RawStack α) (s : Stack α) : Prop where
  size_eq : r.size = s.data.length
  cells_eq : ∀ i < s.data.length, r.cells i = s.data[i]?
  capacity_eq : r.capacity = s.capacity
  buffer_eq : r.buffer = s.buffer
  bytes : r.buffer = 8 * r.capacity % 2 ^ 64
  length_le : s.data.length ≤ stackLimit c
  small : c < 2 ^ 61 → s.data.length ≤ r.capacity ∧ r.capacity ≤ stackLimit c ∧
    ∃ i, r.capacity = c * 2 ^ i
  large : 2 ^ 61 ≤ c → r.capacity = c

variable {c : Nat} {r : RawStack α} {s : Stack α} {a : α} {ops : List (StackOp α)}

/-- A new stack is sound. -/
theorem create_sound (chunkSize : Nat) :
    (create chunkSize : RawStack α).Sound (stackCapacity chunkSize) (.create chunkSize) := by
  have h0 : 0 < stackCapacity chunkSize := by
    unfold stackCapacity
    split <;> omega
  refine { size_eq := rfl, cells_eq := nofun, capacity_eq := rfl, buffer_eq := rfl, bytes := rfl
           length_le := Nat.zero_le _, small := fun hc => ?_, large := fun _ => rfl }
  refine ⟨Nat.zero_le _, ?_, 0, (Nat.mul_one _).symm⟩
  obtain ⟨heq, -⟩ := stackLimit_small h0 hc
  rw [heq]
  exact Nat.le_mul_of_pos_right _ (Nat.two_pow_pos _)

/-- Below the limit, a push finds room in the buffer, which it enlarges if need be. -/
theorem Sound.ready (h : r.Sound c s) (h0 : 0 < c) (hlt : s.data.length < stackLimit c) :
    r.InBounds ∧ r.ready.Sound c (if s.data.length = s.capacity then s.grow else s) ∧
      s.data.length < r.ready.capacity := by
  have hsize := h.size_eq
  have hcap := h.capacity_eq
  have hbuf := h.bytes
  rw [InBounds, RawStack.ready]
  rcases lt_or_ge c (2 ^ 61) with hc | hc
  · obtain ⟨hle, hlim, i, hi⟩ := h.small hc
    obtain ⟨-, -, hlt61⟩ := stackLimit_small h0 hc
    have hpos : 0 < r.capacity := by
      rw [hi]
      exact Nat.mul_pos h0 (Nat.two_pow_pos i)
    by_cases hfull : r.size = r.capacity
    · rw [if_pos hfull, if_pos (by omega)]
      -- the doubled capacity is still below `2 ^ 61`
      have hpow : c * 2 ^ (i + 1) = r.capacity * 2 := by rw [hi, Nat.pow_succ, Nat.mul_assoc]
      have hdouble : r.capacity * 2 ≤ stackLimit c := by
        rw [← hpow]
        exact double_le_limit h0 hc (by rw [← hi]; omega)
      have hmod : r.capacity * 2 % 2 ^ 64 = r.capacity * 2 := Nat.mod_eq_of_lt (by omega)
      have hbytes : 8 * (r.capacity * 2) % 2 ^ 64 / 8 = r.capacity * 2 := by omega
      refine ⟨?_, ?_, ?_⟩
      · simp only [grow, hmod, hbytes]
        omega
      · refine { size_eq := hsize, cells_eq := fun j hj => ?_, capacity_eq := ?_, buffer_eq := ?_
                 bytes := rfl, length_le := h.length_le, small := fun _ => ?_, large := ?_ }
        · simp only [Stack.grow] at hj ⊢
          simp only [grow, hmod, hbytes]
          rw [if_pos (by omega)]
          exact h.cells_eq j hj
        · simp only [grow, Stack.grow, hcap]
        · simp only [grow, Stack.grow, hcap]
        · simp only [grow, hmod, Stack.grow]
          exact ⟨by omega, by omega, i + 1, hpow.symm⟩
        · intro hc'
          omega
      · simp only [grow, hmod]
        omega
    · rw [if_neg hfull, if_neg (by omega)]
      exact ⟨by omega, h, by omega⟩
  · have hlim : stackLimit c = c % 2 ^ 61 := if_neg (by omega)
    have hrc := h.large hc
    rw [if_neg (by omega), if_neg (by omega)]
    exact ⟨by omega, h, by omega⟩

/-- A push stores inside the buffer exactly if the stack holds fewer items than the limit. -/
theorem Sound.inBounds_iff (h : r.Sound c s) (h0 : 0 < c) (hc63 : c < 2 ^ 63) :
    r.InBounds ↔ s.data.length < stackLimit c := by
  refine ⟨fun hin => ?_, fun hlt => (h.ready h0 hlt).1⟩
  by_contra hge
  have hsize := h.size_eq
  have hbuf := h.bytes
  have hle := h.length_le
  rw [InBounds, RawStack.ready] at hin
  rcases lt_or_ge c (2 ^ 61) with hc | hc
  · -- the capacity is the limit, and doubling it wraps
    obtain ⟨hle', hlim, -⟩ := h.small hc
    obtain ⟨-, hge60, hlt61⟩ := stackLimit_small h0 hc
    rw [if_pos (by omega)] at hin
    simp only [grow] at hin
    omega
  · have hlim : stackLimit c = c % 2 ^ 61 := if_neg (by omega)
    have hrc := h.large hc
    rw [if_neg (by omega)] at hin
    omega

/-- A push below the limit keeps the invariant. -/
theorem Sound.push (h : r.Sound c s) (h0 : 0 < c) (hlt : s.data.length < stackLimit c) :
    (r.push a).Sound c (s.push a) := by
  obtain ⟨hin, hready, hroom⟩ := h.ready h0 hlt
  have hlen61 := stackLimit_lt h0
  rw [InBounds] at hin
  set s₁ := if s.data.length = s.capacity then s.grow else s with hs₁
  have hdata : s₁.data = s.data := by
    rw [hs₁]
    split <;> rfl
  have hpush : s.push a = { s₁ with data := s.data ++ [a] } := by
    rw [Stack.push, ← hs₁, hdata]
  rw [hpush, RawStack.push, if_pos hin]
  have hsz := hready.size_eq
  rw [hdata] at hsz
  have hadd : SizeT.add r.ready.size 1 = s.data.length + 1 := by
    rw [hsz]
    exact SizeT.add_eq (by omega)
  refine { size_eq := ?_, cells_eq := fun i hi => ?_, capacity_eq := hready.capacity_eq
           buffer_eq := hready.buffer_eq, bytes := hready.bytes, length_le := ?_
           small := fun hc => ?_, large := hready.large }
  · simpa using hadd
  · simp only [List.length_append, List.length_singleton] at hi
    dsimp only
    rcases Nat.lt_succ_iff_lt_or_eq.1 hi with hi | rfl
    · rw [Function.update_of_ne (by omega), List.getElem?_append_left hi]
      have := hready.cells_eq i (by rw [hdata]; exact hi)
      rwa [hdata] at this
    · rw [hsz, Function.update_self, List.getElem?_concat_length]
  · simp only [List.length_append, List.length_singleton]
    omega
  · obtain ⟨-, hcap, hpow⟩ := hready.small hc
    simp only [List.length_append, List.length_singleton]
    exact ⟨by omega, hcap, hpow⟩

/-- A pop returns the last item and keeps the invariant. -/
theorem Sound.pop (h : r.Sound c s) (hne : s.data ≠ []) (hlen : s.data.length < 2 ^ 64) :
    r.pop.1 = s.pop.1 ∧ r.pop.2.Sound c s.pop.2 := by
  have hpos := List.length_pos_of_ne_nil hne
  have hsz := h.size_eq
  have hsub : SizeT.sub r.size 1 = s.data.length - 1 := by
    rw [hsz]
    exact SizeT.sub_eq (by omega) hlen
  have hdrop : s.data.dropLast.length = s.data.length - 1 := List.length_dropLast
  refine ⟨?_, ?_⟩
  · have hcell : r.pop.1 = r.cells (s.data.length - 1) := congrArg r.cells hsub
    rw [hcell, h.cells_eq (s.data.length - 1) (by omega)]
    exact List.getLast?_eq_getElem?.symm
  · have hpop : r.pop.2 = { r with size := s.data.length - 1 } := by rw [RawStack.pop, hsub]
    have hspop : s.pop.2 = { s with data := s.data.dropLast } := rfl
    rw [hpop, hspop]
    refine { size_eq := hdrop.symm, cells_eq := fun i hi => ?_, capacity_eq := h.capacity_eq
             buffer_eq := h.buffer_eq, bytes := h.bytes, length_le := ?_, small := fun hc => ?_
             large := h.large }
    · have hi : i < s.data.length - 1 := hdrop ▸ hi
      dsimp only
      rw [h.cells_eq i (by omega), List.getElem?_dropLast, if_pos hi]
    · have := h.length_le
      dsimp only
      omega
    · obtain ⟨hle, hcap⟩ := h.small hc
      exact ⟨by dsimp only; omega, hcap⟩

/-- A run is safe exactly if every push finds fewer items than the limit. -/
theorem Sound.safe_iff (h0 : 0 < c) (hc : c < 2 ^ 63) : ∀ {ops : List (StackOp α)} {r : RawStack α}
    {s : Stack α}, r.Sound c s → (r.Safe s ops ↔ PushesFit (stackLimit c) s.data.length ops)
  | [], _, _, _ => Iff.rfl
  | .push a :: ops, r, s, h => by
    rw [Safe, PushesFit, h.inBounds_iff h0 hc]
    refine and_congr_right fun hlt => ?_
    have ih : (r.push a).Safe (s.push a) ops ↔
      PushesFit (stackLimit c) (s.push a).data.length ops := safe_iff h0 hc (h.push h0 hlt)
    rw [ih, Stack.push_data, List.length_append, List.length_singleton]
  | .pop :: ops, r, s, h => by
    have hlen : s.data.length < 2 ^ 64 := by
      have := h.length_le
      have := stackLimit_lt h0
      omega
    rw [Safe, PushesFit]
    split
    next hnil =>
      rw [safe_iff h0 hc h, hnil]
      rfl
    next hne =>
      obtain ⟨heq, hsound⟩ := h.pop hne hlen
      have hdrop : s.pop.2.data.length = s.data.length - 1 := List.length_dropLast
      rw [safe_iff h0 hc hsound, hdrop]
      exact and_iff_right heq

end RawStack

/-! ## Fetches -/

/-- The stack after an operation. -/
def Stack.apply (s : Stack α) : StackOp α → Stack α
  | .push a => s.push a
  | .pop => s.pop.2

/-- The stack after a sequence of operations. -/
def Stack.run (s : Stack α) (ops : List (StackOp α)) : Stack α := ops.foldl Stack.apply s

/-- Operations in two parts. -/
theorem Stack.run_append (s : Stack α) (ops ops' : List (StackOp α)) :
    s.run (ops ++ ops') = (s.run ops).run ops' := List.foldl_append

/-- The loop that empties the stack pops. -/
theorem Stack.popAll_run (s : Stack α) (fuel : Nat) :
    ∃ n, s.popAll fuel = s.run (List.replicate n .pop) := by
  induction fuel generalizing s with
  | zero => exact ⟨0, rfl⟩
  | succ fuel ih =>
    rw [popAll]
    split
    · obtain ⟨n, hn⟩ := ih s.pop.2
      exact ⟨n + 1, hn⟩
    · exact ⟨0, rfl⟩

section

variable {υ : Type} {sp : Space} {php : Serializer υ} {it : Iterator υ} {w : World υ}

/-- A fetch pushes an item for each matching entry of a chain. -/
theorem wp_fetchChain_run (fuel : Nat) (head : Option Nat) :
    Wp (fetchChain sp php fuel head it) w
      (fun r _ => ∃ items : List (Item υ), r.2.stack = it.stack.run (items.map .push)) fun _ => True := by
  induction fuel generalizing head it w with
  | zero => cases head <;> exact ⟨[], rfl⟩
  | succ fuel ih =>
    cases head with
    | none => exact ⟨[], rfl⟩
    | some p =>
      simp only [fetchChain, wp_bind, wp_get]
      split
      next =>
        simp only [wp_bind]
        refine (Wp.trivial _ _).mono (fun item w₁ _ => ?_) fun _ => id
        refine (ih _).mono (fun r _ h => ?_) fun _ => id
        obtain ⟨items, h⟩ := h
        exact ⟨item :: items, h⟩
      next => exact ih _

/-- The loop over the slots only pushes items. -/
theorem wp_fetchSlots_run (fuel count : Nat) :
    Wp (fetchSlots sp php fuel count it) w
      (fun r _ => ∃ items : List (Item υ), r.2.stack = it.stack.run (items.map .push)) fun _ => True := by
  induction fuel generalizing count it w with
  | zero => exact ⟨[], rfl⟩
  | succ fuel ih =>
    simp only [fetchSlots, wp_bind, wp_get]
    split
    next =>
      simp only [wp_bind]
      refine (wp_fetchChain_run _ _).mono (fun r _ h => ?_) fun _ => id
      obtain ⟨items, h⟩ := h
      refine (ih _).mono (fun r' _ h' => ?_) fun _ => id
      obtain ⟨items', h'⟩ := h'
      refine ⟨items ++ items', ?_⟩
      rw [h', h, List.map_append, Stack.run_append]
    next => exact ⟨[], rfl⟩

/-- A fetch of the iterator pops a number of items, and then pushes others. -/
theorem wp_fetchActive_run : Wp (fetchActive sp php it) w
    (fun r _ => ∃ n, ∃ items : List (Item υ),
      r.2.stack = it.stack.run (List.replicate n .pop ++ items.map .push)) fun _ => True := by
  obtain ⟨n, hn⟩ := it.stack.popAll_run it.stack.data.length
  simp only [fetchActive, rlock, wp_bind]
  refine (Harmless.acquire _ _ w).mono (fun ok w₁ _ => ?_) fun _ _ => trivial
  split
  next =>
    simp only [wp_ensuring, wp_bind, wp_get, unlock, wp_modify]
    refine (wp_fetchSlots_run _ _).mono (fun r _ h => ?_) fun _ _ => trivial
    obtain ⟨items, h⟩ := h
    refine ⟨n, items, ?_⟩
    rw [Stack.run_append, ← hn]
    exact h
  next => exact ⟨n, [], by rw [List.map_nil, List.append_nil]; exact hn⟩

end

/-- For every chunk size of the constructor and every sequence of operations on the stack of the
iterator, every push stores inside the buffer and the pops return the items in reverse order,
exactly if every push finds fewer items than the limit of the chunk size. -/
theorem stack_safe_iff {chunkSize : Nat} (h : chunkSize < 2 ^ 63) (ops : List (StackOp α)) :
    (RawStack.create chunkSize : RawStack α).Safe (.create chunkSize) ops ↔
      PushesFit (stackLimit (stackCapacity chunkSize)) 0 ops := by
  have h0 : 0 < stackCapacity chunkSize := by
    unfold stackCapacity
    split <;> omega
  have hlt : stackCapacity chunkSize < 2 ^ 63 := by
    unfold stackCapacity
    split <;> omega
  exact RawStack.Sound.safe_iff h0 hlt (RawStack.create_sound chunkSize)

/-- Two pushes and two pops with the default chunk size. -/
theorem stack_safe_iff_default : (RawStack.create 0 : RawStack Nat).Safe (.create 0)
    [.push 1, .push 2, .pop, .pop] :=
  (stack_safe_iff (by decide) _).2 ⟨by decide +kernel, by decide +kernel, trivial⟩

/-- A buffer for `2 ^ 61 + 1` items has room for one. -/
theorem stack_not_safe : ¬ ∀ (chunkSize : Nat) (ops : List (StackOp Nat)), chunkSize < 2 ^ 63 →
    (RawStack.create chunkSize : RawStack Nat).Safe (.create chunkSize) ops := by
  intro hall
  obtain ⟨-, hin, -⟩ := hall (2 ^ 61 + 1) [.push 1, .push 2] (by decide)
  exact absurd hin (by unfold RawStack.InBounds; decide +kernel)

end ImmutableCache
