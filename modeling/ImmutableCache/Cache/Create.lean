import ImmutableCache.Cache.Memory
import ImmutableCache.Cache.Ops
import Mathlib.Order.Bounds.Basic

/-!
# The number of slots

`immutable_cache_cache_create` takes the number of slots from a table of primes: the scan of
`make_prime` stops at the first prime above the hint, or at the sentinel after the last one. The
hint is a `zend_long` and the parameter of `make_prime` an `int`, so a hint from `2 ^ 31` on reaches
the scan modulo `2 ^ 32` (`cacheCreate_nslots`).
-/

namespace ImmutableCache

open Bail

variable {υ : Type} {n : Int}

/-! ## The scan -/

/-- The loop of `make_prime` over a table that a sentinel 0 ends; `prev` is the element before. It
gives nothing if it leaves the table. -/
def scanPrimes (n : Int) : Option Nat → List Nat → Option Nat
  | _, [] => none
  | prev, k :: ks => if k = 0 then prev else if n < k then some k else scanPrimes n (some k) ks

/-- The scan ends at the first element above `n`, or with the last one before the sentinel. -/
theorem scanPrimes_append {l : List Nat} (hl : ∀ k ∈ l, k ≠ 0) (prev : Option Nat) :
    scanPrimes n prev (l ++ [0]) =
      (l.find? fun k : Nat => decide (n < (k : Int))).or (l.getLast?.or prev) := by
  induction l generalizing prev with
  | nil => rfl
  | cons k ks ih =>
    have hk : k ≠ 0 := hl k (by simp)
    have ih := ih (fun j hj => hl j (by simp [hj])) (some k)
    rw [List.cons_append, scanPrimes, if_neg hk, List.find?_cons]
    by_cases hlt : n < (k : Int)
    · simp [hlt]
    · rw [if_neg hlt, ih, decide_eq_false hlt]
      cases ks with
      | nil => rfl
      | cons j js => simp [List.getLast?_eq_some_getLast]

/-- `make_prime` stays in its table. -/
theorem scanPrimes_eq (n : Int) : scanPrimes n none (primes ++ [0]) = some (makePrime n) := by
  rw [scanPrimes_append (by decide), makePrime]
  cases primes.find? fun k : Nat => decide (n < (k : Int)) <;> rfl

/-! ## The result -/

/-- The number of slots that a hint asks for: the least number of the table above the hint, or the
largest one when none is above it. -/
def IsSlotCount (hint : Int) (k : Nat) : Prop :=
  IsLeast {k | k ∈ primes ∧ hint < (k : Int)} k ∨
    (∀ j ∈ primes, (j : Int) ≤ hint) ∧ IsGreatest {k | k ∈ primes} k

/-- The table of prime numbers is sorted. -/
theorem primes_sorted : primes.Pairwise (· < ·) := by decide

/-- The last number of the table is the greatest. -/
theorem largest_prime : IsGreatest {k | k ∈ primes} 983063 := by
  refine ⟨by decide, ?_⟩
  intro k hk
  have hall : ∀ j ∈ primes, j ≤ 983063 := by decide
  exact hall k hk

/-- The scan finds what its parameter asks for. -/
theorem makePrime_isSlotCount (n : Int) : IsSlotCount n (makePrime n) := by
  unfold makePrime
  cases hf : primes.find? fun k : Nat => decide (n < (k : Int)) with
  | none =>
    refine .inr ⟨fun j hj => ?_, largest_prime⟩
    have := List.find?_eq_none.1 hf j hj
    simpa using this
  | some k =>
    obtain ⟨hk, l₁, l₂, heq, hno⟩ := List.find?_eq_some_iff_append.1 hf
    refine .inl ⟨⟨List.mem_of_find?_eq_some hf, by simpa using hk⟩, ?_⟩
    rintro j ⟨hj, hlt⟩
    -- a smaller number of the table comes before `k`, where the scan found nothing
    have hs := primes_sorted
    rw [heq] at hj hs
    obtain ⟨-, hs, -⟩ := List.pairwise_append.1 hs
    rcases List.mem_append.1 hj with hj | hj
    · have := hno j hj
      simp [hlt] at this
    · rcases List.mem_cons.1 hj with rfl | hj
      · exact le_rfl
      · exact (List.rel_of_pairwise_cons hs hj).le

namespace IsSlotCount

variable {hint hint' : Int} {j k : Nat}

/-- A number of slots is in the table. -/
theorem mem (h : IsSlotCount hint k) : k ∈ primes := h.elim (fun h => h.1.1) fun h => h.2.1

/-- A number of slots is never 0. -/
theorem pos (h : IsSlotCount hint k) : 0 < k := by
  have hall : ∀ k ∈ primes, 0 < k := by decide
  exact hall k h.mem

/-- A larger hint asks for no fewer slots. -/
theorem mono (h : IsSlotCount hint j) (h' : IsSlotCount hint' k) (hle : hint ≤ hint') : j ≤ k := by
  have hj := h.mem
  rcases h with ⟨-, hmin⟩ | ⟨hall, hmem, -⟩
  · rcases h' with ⟨⟨hk, hlt⟩, -⟩ | ⟨-, -, hmax⟩
    · exact hmin ⟨hk, hle.trans_lt hlt⟩
    · exact hmax hj
  · rcases h' with ⟨⟨hk, hlt⟩, -⟩ | ⟨-, -, hmax⟩
    · have := hall k hk
      omega
    · exact hmax hmem

/-- A hint asks for one number of slots. -/
theorem unique (h : IsSlotCount hint j) (h' : IsSlotCount hint k) : j = k :=
  Nat.le_antisymm (h.mono h' le_rfl) (h'.mono h le_rfl)

/-- Only a hint from the last but one number of the table on asks for the largest one. -/
theorem largest_iff (h : IsSlotCount hint k) : k = 983063 ↔ 655373 ≤ hint := by
  constructor
  · rintro rfl
    by_contra hlt
    rcases h with ⟨-, hmin⟩ | ⟨hall, -⟩
    · have : 983063 ≤ 655373 := hmin ⟨by decide, by simpa using hlt⟩
      omega
    · have := hall 655373 (by decide)
      omega
  · intro hle
    have hlast : ∀ k ∈ primes, 655373 < k → k = 983063 := by decide
    rcases h with ⟨⟨hk, hlt⟩, -⟩ | ⟨-, hmax⟩
    · exact hlast k hk (by omega)
    · exact hmax.unique largest_prime

end IsSlotCount

/-- The number of slots that `immutable_cache_cache_create` computes. -/
def nslots (sizeHint : Int) : Nat := makePrime (toInt (if 0 < sizeHint then sizeHint else 2000))

/-- The number of slots for a hint is in the table and positive, and is what a positive hint asks
for. -/
def HonoursHint (sizeHint : Int) : Prop :=
  nslots sizeHint ∈ primes ∧ 0 < nslots sizeHint ∧
    (0 < sizeHint → IsSlotCount sizeHint (nslots sizeHint))

/-- The hint fits in an `int`, or is so large modulo `2 ^ 32` that it asks for the largest table. -/
def HintFits (sizeHint : Int) : Prop := sizeHint < 2 ^ 31 ∨ 655373 ≤ toInt sizeHint

/-- A number that fits into an `int` is not changed. -/
theorem toInt_eq (h : -2 ^ 31 ≤ n) (h' : n < 2 ^ 31) : toInt n = n := by
  unfold toInt
  rw [Int.bmod_def]
  omega

/-- The number of slots honours exactly the hints that fit. -/
theorem honoursHint_iff {sizeHint : Int} : HonoursHint sizeHint ↔ HintFits sizeHint := by
  have hcount : IsSlotCount (toInt (if 0 < sizeHint then sizeHint else 2000)) (nslots sizeHint) :=
    makePrime_isSlotCount _
  have hiff : HonoursHint sizeHint ↔ (0 < sizeHint → IsSlotCount sizeHint (nslots sizeHint)) :=
    ⟨fun h => h.2.2, fun h => ⟨hcount.mem, hcount.pos, h⟩⟩
  rw [hiff, HintFits]
  rcases lt_or_ge sizeHint (2 ^ 31) with hlt | hge
  · refine ⟨fun _ => .inl hlt, fun _ hpos => ?_⟩
    rw [if_pos hpos, toInt_eq (by omega) hlt] at hcount
    exact hcount
  · -- no number of the table is above the hint
    have hpos : 0 < sizeHint := by omega
    have hall : ∀ k ∈ primes, (k : Int) ≤ sizeHint := by
      intro k hk
      have := largest_prime.2 hk
      omega
    rw [if_pos hpos] at hcount
    have hlarge : IsSlotCount sizeHint (nslots sizeHint) ↔ nslots sizeHint = 983063 :=
      ⟨fun h => h.unique (.inr ⟨hall, largest_prime⟩), fun h => h ▸ .inr ⟨hall, largest_prime⟩⟩
    rw [hlarge, hcount.largest_iff]
    have : ¬ sizeHint < 2 ^ 31 := by omega
    tauto

/-- The table of a new cache has that number of slots. -/
theorem cacheCreate_slots {pool : Pool} {serializer : Option (Serializer υ)} {sizeHint : Int}
    {stime : Nat} {w : World υ} : Wp (cacheCreate pool serializer sizeHint stime) w
      (fun _ w' => w'.slots = List.replicate (nslots sizeHint) none) fun _ => True := by
  unfold cacheCreate
  rw [← nslots]
  simp only [wp_bind]
  refine wp_smaMalloc_eq.mono (fun r w₁ _ => ?_) fun _ _ => trivial
  cases r with
  | some p => exact rfl
  | none =>
    simp only [wp_bind]
    exact (Harmless.warning _ w₁).mono (fun _ _ _ => trivial) fun _ _ => trivial

/-- A hint is honoured exactly if it fits, the number of slots grows with the hints that fit, and
the slot of every hash is a slot of the new table. -/
theorem cacheCreate_nslots (sizeHint : Int) : (HonoursHint sizeHint ↔ HintFits sizeHint) ∧
    (∀ sizeHint', 0 < sizeHint → sizeHint ≤ sizeHint' → HintFits sizeHint → HintFits sizeHint' →
      nslots sizeHint ≤ nslots sizeHint') ∧
    0 < nslots sizeHint ∧
    ∀ (υ : Type) (pool : Pool) (serializer : Option (Serializer υ)) (stime : Nat) (w w' : World υ),
      cacheCreate pool serializer sizeHint stime w = .ok () w' →
      w'.slots.length = nslots sizeHint ∧ ∀ hash, w'.slotOf hash < w'.slots.length := by
  have hpos : 0 < nslots sizeHint := (makePrime_isSlotCount _).pos
  refine ⟨honoursHint_iff, ?_, hpos, ?_⟩
  · intro sizeHint' h0 hle hfits hfits'
    have h := (honoursHint_iff.2 hfits).2.2 h0
    have h' := (honoursHint_iff.2 hfits').2.2 (h0.trans_le hle)
    exact h.mono h' hle
  · intro υ pool serializer stime w w' hrun
    have hslots : w'.slots = List.replicate (nslots sizeHint) none :=
      (cacheCreate_slots.of_ok hrun :)
    have hlen : w'.slots.length = nslots sizeHint := by rw [hslots, List.length_replicate]
    refine ⟨hlen, fun hash => ?_⟩
    rw [World.slotOf, hlen]
    exact Nat.mod_lt _ hpos

/-- `2 ^ 31` reaches the scan as `-2 ^ 31`, and the smallest table is made. -/
theorem cacheCreate_not_nslots : ¬ ∀ sizeHint : Int, -2 ^ 63 ≤ sizeHint → sizeHint < 2 ^ 63 →
    HonoursHint sizeHint := by
  intro hall
  have hfits := honoursHint_iff.1 (hall (2 ^ 31) (by decide) (by decide))
  rcases hfits with hlt | hle
  · exact absurd hlt (by decide)
  · exact absurd hle (by decide)

end ImmutableCache
