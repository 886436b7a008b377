import Mathlib.Tactic

/-!
# The file mask of the segments

With a file mask, the segment loop of `immutable_cache_sma_init` maps a file for every segment, the
extra one for the locks included. The mask is one buffer: `mkstemp` overwrites the `XXXXXX` at its
end with the name of the file, and the loop writes them back, unless there is a single data
segment. Then the file for the locks is asked for with a mask that is no template any more, and the
initialisation fails (`smaInit_templates`).
-/

namespace ImmutableCache

/-- `"XXXXXX"`, the end of a template of `mkstemp`. -/
def sixX : List UInt8 := List.replicate 6 88

/-- `"/dev/zero"`. -/
def devZero : List UInt8 := [47, 100, 101, 118, 47, 122, 101, 114, 111]

/-- What the system does in the `k`-th iteration: what `mkstemp` makes of a template, and whether
`ftruncate` and `mmap` succeed. -/
structure Sys where
  mkstemp : Nat → List UInt8 → Option (List UInt8)
  mapped : Nat → Bool
  /-- Only a template ending in `XXXXXX` succeeds, and these bytes are overwritten by others. -/
  mkstemp_some : ∀ {k : Nat} {t t' : List UInt8}, mkstemp k t = some t' →
    ∃ t₀ six, t = t₀ ++ sixX ∧ six.length = 6 ∧ six ≠ sixX ∧ t' = t₀ ++ six

/-- `immutable_cache_mmap` in the `k`-th iteration: the mask it leaves, or nothing if the error is
fatal. Without a mask the segment is anonymous. -/
def mmapSegment (sys : Sys) (k : Nat) (mask : List UInt8) : Option (List UInt8) :=
  if mask = [] then if sys.mapped k then some mask else none
  else
    match sys.mkstemp k mask with
    | some mask => if sys.mapped k then some mask else none
    | none => none

/-- `memcpy(&mask[strlen(mask)-6], "XXXXXX", 6)`. -/
def restoreMask (mask : List UInt8) : List UInt8 := mask.take (mask.length - 6) ++ sixX

/-- `sma->num`. -/
def smaNum (num : Int) (mask : List UInt8) : Nat :=
  if mask = [] ∨ mask = devZero then 1 else if 0 < num then num.toNat else 1

/-- The segment loop of `immutable_cache_sma_init` over the iterations `is`: the masks that
`immutable_cache_mmap` is called with, and the mask that is left, unless an error was fatal. -/
def segmentLoop (sys : Sys) (num : Nat) :
    List Nat → List UInt8 → List (List UInt8) × Option (List UInt8)
  | [], mask => ([], some mask)
  | i :: is, mask =>
    match mmapSegment sys i mask with
    | none => ([mask], none)
    | some mask' =>
      let r := segmentLoop sys num is (if num ≠ 1 then restoreMask mask' else mask')
      (mask :: r.1, r.2)

/-- The segment loop from the start, `num + 1` iterations. -/
def smaInitSegments (sys : Sys) (num : Int) (mask : List UInt8) :
    List (List UInt8) × Option (List UInt8) :=
  segmentLoop sys (smaNum num mask) (List.range (smaNum num mask + 1)) mask

variable {sys : Sys} {k : Nat} {num : Int} {mask mask' : List UInt8} {is : List Nat}

/-- The template has six characters to replace. -/
theorem sixX_length : sixX.length = 6 := rfl

/-- A template is not empty. -/
theorem ne_nil_of_sixX (h : sixX <:+ mask) : mask ≠ [] := by
  rintro rfl
  exact absurd (List.suffix_nil.1 h) (by decide)

/-- A call that succeeds had a template, and overwrites its last six bytes. -/
theorem mmapSegment_some (hmask : mask ≠ []) (h : mmapSegment sys k mask = some mask') :
    ∃ t₀ six, mask = t₀ ++ sixX ∧ six.length = 6 ∧ six ≠ sixX ∧ mask' = t₀ ++ six := by
  rw [mmapSegment, if_neg hmask] at h
  cases hs : sys.mkstemp k mask with
  | none =>
    rw [hs] at h
    cases h
  | some t =>
    rw [hs] at h
    dsimp only at h
    split at h
    next =>
      cases h
      exact sys.mkstemp_some hs
    next => cases h

/-- Writing the `XXXXXX` back makes the mask a template again. -/
theorem restoreMask_append {t₀ six : List UInt8} (h : six.length = 6) :
    restoreMask (t₀ ++ six) = t₀ ++ sixX := by
  rw [restoreMask, List.length_append, h, Nat.add_sub_cancel, List.take_left]

/-- With the bytes written back after every call, every call gets a template. -/
theorem segmentLoop_templates {n : Nat} (hn : n ≠ 1) (hmask : sixX <:+ mask) :
    ∀ m ∈ (segmentLoop sys n is mask).1, sixX <:+ m := by
  induction is generalizing mask with
  | nil => nofun
  | cons i is ih =>
    intro m hm
    rw [segmentLoop] at hm
    cases hs : mmapSegment sys i mask with
    | none =>
      rw [hs] at hm
      rw [List.mem_singleton.1 hm]
      exact hmask
    | some mask' =>
      rw [hs] at hm
      dsimp only at hm
      obtain ⟨t₀, six, -, hlen, -, rfl⟩ := mmapSegment_some (ne_nil_of_sixX hmask) hs
      rw [if_pos hn, restoreMask_append hlen] at hm
      rcases List.mem_cons.1 hm with rfl | hm
      · exact hmask
      · exact ih (List.suffix_append t₀ sixX) m hm

/-- If the system lets every template succeed, all iterations are done. -/
theorem segmentLoop_complete {n : Nat} (hn : n ≠ 1) (hmask : sixX <:+ mask)
    (hsys : ∀ k t, sixX <:+ t → (mmapSegment sys k t).isSome) :
    (segmentLoop sys n is mask).1.length = is.length ∧ (segmentLoop sys n is mask).2.isSome := by
  induction is generalizing mask with
  | nil => exact ⟨rfl, rfl⟩
  | cons i is ih =>
    obtain ⟨mask', hs⟩ := Option.isSome_iff_exists.1 (hsys i mask hmask)
    obtain ⟨t₀, six, -, hlen, -, rfl⟩ := mmapSegment_some (ne_nil_of_sixX hmask) hs
    have ih := ih (List.suffix_append t₀ sixX)
    rw [segmentLoop, hs]
    dsimp only
    rw [if_pos hn, restoreMask_append hlen]
    exact ⟨congrArg (· + 1) ih.1, ih.2⟩

/-- With a single data segment the second call gets what `mkstemp` left. -/
theorem segmentLoop_one (hmask : sixX <:+ mask) :
    (∀ m ∈ (segmentLoop sys 1 [0, 1] mask).1, sixX <:+ m) ↔ mmapSegment sys 0 mask = none := by
  rw [segmentLoop]
  cases hs : mmapSegment sys 0 mask with
  | none => exact ⟨fun _ => rfl, fun _ m hm => List.mem_singleton.1 hm ▸ hmask⟩
  | some mask' =>
    obtain ⟨t₀, six, -, hlen, hsix, rfl⟩ := mmapSegment_some (ne_nil_of_sixX hmask) hs
    refine ⟨fun hall => ?_, nofun⟩
    have hmem : t₀ ++ six ∈ (segmentLoop sys 1 [1] (t₀ ++ six)).1 := by
      rw [segmentLoop]
      cases mmapSegment sys 1 (t₀ ++ six) <;> exact List.mem_cons_self
    have hsuffix := hall (t₀ ++ six) (List.mem_cons_of_mem _ hmem)
    -- the two ends of the mask have the same length
    obtain ⟨t₁, heq⟩ := hsuffix
    have := List.append_inj_right' heq (by rw [hlen, sixX_length])
    exact absurd this.symm hsix

/-- For every number of data segments and every mask that is a template, every call of the segment
loop gets a template exactly if there is more than one data segment, or the first call fails; with
more than one, all `num + 1` segments are made if the system lets every template succeed. -/
theorem smaInit_templates (hnum : 1 ≤ num) (hmask : sixX <:+ mask) :
    ((∀ m ∈ (smaInitSegments sys num mask).1, sixX <:+ m) ↔
      num ≠ 1 ∨ mmapSegment sys 0 mask = none) ∧
    (num ≠ 1 → (∀ k t, sixX <:+ t → (mmapSegment sys k t).isSome) →
      (smaInitSegments sys num mask).1.length = num + 1 ∧
        (smaInitSegments sys num mask).2.isSome) := by
  have hzero : mask ≠ devZero := by
    rintro rfl
    exact absurd hmask (by decide)
  have hn : smaNum num mask = num.toNat := by
    rw [smaNum, if_neg (by simp [ne_nil_of_sixX hmask, hzero]), if_pos (by omega)]
  rw [smaInitSegments, hn]
  rcases eq_or_ne num 1 with rfl | hne
  · refine ⟨?_, fun h => absurd rfl h⟩
    rw [or_iff_right (not_not_intro rfl)]
    exact segmentLoop_one hmask
  · have hne' : num.toNat ≠ 1 := by omega
    refine ⟨⟨fun _ => .inl hne, fun _ => segmentLoop_templates hne' hmask⟩, fun _ hsys => ?_⟩
    obtain ⟨hlen, hsome⟩ : (segmentLoop sys num.toNat (List.range (num.toNat + 1)) mask).1.length =
      (List.range (num.toNat + 1)).length ∧ _ := segmentLoop_complete hne' hmask hsys
    rw [List.length_range] at hlen
    exact ⟨by omega, hsome⟩

/-- A system on which every template succeeds, with `AAAAAA` as the name of the file. -/
def Sys.aaa : Sys where
  mkstemp _ t := if sixX <:+ t then some (t.take (t.length - 6) ++ List.replicate 6 65) else none
  mapped _ := true
  mkstemp_some {k t t'} h := by
    split at h
    next hsix =>
      cases h
      obtain ⟨t₀, rfl⟩ := hsix
      refine ⟨t₀, List.replicate 6 65, rfl, rfl, by decide, ?_⟩
      rw [List.length_append, sixX_length, Nat.add_sub_cancel, List.take_left]
    next => cases h

/-- Two data segments with the mask `"/aXXXXXX"`: the lock segment is the third. -/
theorem smaInit_templates_two :
    (smaInitSegments .aaa 2 ([47, 97] ++ sixX)).1 = List.replicate 3 ([47, 97] ++ sixX) ∧
      ((smaInitSegments .aaa 2 ([47, 97] ++ sixX)).1.all fun m => decide (sixX <:+ m)) = true := by
  refine ⟨by decide, List.all_eq_true.2 fun m hm => decide_eq_true ?_⟩
  exact (smaInit_templates (by decide) (by decide)).1.2 (.inl (by decide)) m hm

/-- One data segment with that mask: the segment for the locks gets `"/aAAAAAA"`. -/
theorem smaInit_not_templates : ¬ ∀ (sys : Sys) (num : Int) (mask : List UInt8), 1 ≤ num →
    sixX <:+ mask → mask ≠ devZero → ∀ m ∈ (smaInitSegments sys num mask).1, sixX <:+ m := by
  intro hall
  have h := hall .aaa 1 ([47, 97] ++ sixX) (by decide) (by decide) (by decide)
    ([47, 97] ++ List.replicate 6 65) (by decide)
  exact absurd h (by decide)

end ImmutableCache
