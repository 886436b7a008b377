import ImmutableCache.Zend.Array

/-!
# Integer keys as strings

`zend_long_to_str` writes an integer in decimal form, and `ZEND_HANDLE_NUMERIC_STR` reads it back
(`handleNumericStr_zendLongToStr`), for every `zend_long`, `ZEND_LONG_MIN` included.
-/

namespace ImmutableCache

/-- The decimal digits of a number, as `zend_print_ulong_to_buf` writes them. -/
def printUlong (n : Nat) : Bytes := (Nat.toDigits 10 n).map fun c => UInt8.ofNat c.toNat

/-- `zend_long_to_str`. -/
def zendLongToStr (num : Int) : Bytes :=
  if num < 0 then 45 :: printUlong num.natAbs else printUlong num.natAbs

example : zendLongToStr (-12) = [45, 49, 50] := by decide

/-- The step of the loop that reads a number. -/
def readDigit (n : Nat) (c : UInt8) : Nat := n * 10 + (c.toNat - 48)

/-- A decimal digit. -/
def IsDigit (c : UInt8) : Prop := 48 ≤ c ∧ c ≤ 57

instance : DecidablePred IsDigit := fun c => inferInstanceAs (Decidable (48 ≤ c ∧ c ≤ 57))

variable {n d h : Nat}

/-- The character of a digit. -/
theorem digitChar_byte (hd : d < 10) : (UInt8.ofNat (Nat.digitChar d).toNat).toNat = 48 + d ∧
    IsDigit (UInt8.ofNat (Nat.digitChar d).toNat) := by
  have hall : ∀ d < 10, (UInt8.ofNat (Nat.digitChar d).toNat).toNat = 48 + d ∧
      IsDigit (UInt8.ofNat (Nat.digitChar d).toNat) := by decide
  exact hall d hd

/-- A number below ten is one digit. -/
theorem printUlong_of_lt (hn : n < 10) :
    printUlong n = [UInt8.ofNat (Nat.digitChar n).toNat] := by
  rw [printUlong, Nat.toDigits_of_lt_base hn]
  rfl

/-- Another one is the digits of its tenth and one more. -/
theorem printUlong_of_le (hn : 10 ≤ n) :
    printUlong n = printUlong (n / 10) ++ [UInt8.ofNat (Nat.digitChar (n % 10)).toNat] := by
  rw [printUlong, Nat.toDigits_of_base_le (by decide) hn, List.map_append]
  rfl

/-- The digits denote the number. -/
theorem foldl_printUlong (n : Nat) : (printUlong n).foldl readDigit 0 = n := by
  induction n using Nat.strong_induction_on with
  | _ n ih =>
    rcases Nat.lt_or_ge n 10 with hn | hn
    · rw [printUlong_of_lt hn, List.foldl_cons, List.foldl_nil, readDigit, (digitChar_byte hn).1]
      omega
    · have hd : n % 10 < 10 := Nat.mod_lt n (by decide)
      rw [printUlong_of_le hn, List.foldl_append, ih (n / 10) (by omega), List.foldl_cons,
        List.foldl_nil, readDigit, (digitChar_byte hd).1]
      omega

/-- Only digits are printed. -/
theorem isDigit_printUlong (n : Nat) : ∀ c ∈ printUlong n, IsDigit c := by
  induction n using Nat.strong_induction_on with
  | _ n ih =>
    intro c hc
    rcases Nat.lt_or_ge n 10 with hn | hn
    · rw [printUlong_of_lt hn] at hc
      rw [List.mem_singleton.1 hc]
      exact (digitChar_byte hn).2
    · rw [printUlong_of_le hn] at hc
      rcases List.mem_append.1 hc with hc | hc
      · exact ih (n / 10) (by omega) c hc
      · rw [List.mem_singleton.1 hc]
        exact (digitChar_byte (Nat.mod_lt n (by decide))).2

/-- And at least one. -/
theorem printUlong_ne_nil (n : Nat) : printUlong n ≠ [] := by simp [printUlong]

/-- No leading zero. -/
theorem head_printUlong (hn : 0 < n) : (printUlong n).head? ≠ some 48 := by
  induction n using Nat.strong_induction_on with
  | _ n ih =>
    rcases Nat.lt_or_ge n 10 with hlt | hge
    · rw [printUlong_of_lt hlt]
      intro heq
      have h48 : (UInt8.ofNat (Nat.digitChar n).toNat).toNat = 48 :=
        congrArg UInt8.toNat (Option.some.inj heq)
      rw [(digitChar_byte hlt).1] at h48
      omega
    · rw [printUlong_of_le hge, List.head?_append_of_ne_nil _ (printUlong_ne_nil _)]
      exact ih (n / 10) (by omega) (by omega)

/-- A number that fits into a `zend_long` has at most nineteen digits. -/
theorem length_printUlong (hn : n ≤ 2 ^ 63) : (printUlong n).length ≤ 19 := by
  rw [printUlong, List.length_map, Nat.length_toDigits_le_iff (by decide) (by decide)]
  omega

/-- Reading the digits of a number, with or without a sign in front. -/
theorem handleNumericStr_printUlong (hn : n ≤ 2 ^ 63) :
    (n < 2 ^ 63 → handleNumericStr (printUlong n) = some n) ∧
      (0 < n → handleNumericStr (45 :: printUlong n) = some (2 ^ 64 - n)) := by
  have hdigits := isDigit_printUlong n
  have hlen := length_printUlong hn
  have hfold : (printUlong n).foldl (fun n c => n * 10 + (c.toNat - 48)) 0 = n :=
    foldl_printUlong n
  have hall : ((printUlong n).all fun c => decide (48 ≤ c ∧ c ≤ 57)) = true :=
    List.all_eq_true.2 fun c hc => decide_eq_true (hdigits c hc)
  have hne := printUlong_ne_nil n
  constructor
  · intro hlt
    have hsign : (printUlong n).head? ≠ some 45 := by
      intro h
      have := hdigits 45 (List.mem_of_head? h)
      exact absurd this (by decide)
    have hzero : ¬ ((printUlong n).head? = some 48 ∧ 1 < (printUlong n).length) := by
      rintro ⟨h, h1⟩
      rcases Nat.eq_zero_or_pos n with rfl | hpos
      · rw [printUlong_of_lt (by decide)] at h1
        exact absurd h1 (by decide)
      · exact head_printUlong hpos h
    unfold handleNumericStr
    dsimp only
    rw [if_neg hsign, if_neg (by simp [hne, hzero]; omega), if_pos hall, hfold, if_neg (by omega),
      if_neg (by omega)]
  · intro hpos
    have hsign : (45 :: printUlong n).head? = some 45 := rfl
    unfold handleNumericStr
    dsimp only
    rw [if_pos hsign, List.tail_cons, if_neg (by simp [hne, head_printUlong hpos]; omega),
      if_pos hall, hfold, if_pos hsign, if_neg (by omega)]

/-- The decimal form of a `zend_long` is read back as that `zend_long`. -/
theorem handleNumericStr_zendLongToStr {num : Int} (h1 : -2 ^ 63 ≤ num) (h2 : num < 2 ^ 63) :
    handleNumericStr (zendLongToStr num) = some (num % 2 ^ 64).toNat := by
  unfold zendLongToStr
  split
  · rw [(handleNumericStr_printUlong (by omega)).2 (by omega)]
    congr 1
    omega
  · rw [(handleNumericStr_printUlong (by omega)).1 (by omega)]
    congr 1
    omega

end ImmutableCache
