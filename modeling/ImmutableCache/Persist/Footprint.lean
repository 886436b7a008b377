import ImmutableCache.Persist.Copy

/-!
# How much the sizing pass counts

In direct form with memoization, the sizing pass counts every string and every table outside the
shared segments once: `Tally c c' ps` says that between `c` and `c'` it has counted exactly the
pointers `ps`, and added the bytes that their objects take up. What it counts therefore lies side
by side in the memory of the process (`Tally.sum_lt`).
-/

namespace ImmutableCache

variable {υ : Type} {sp : Space} {rd : Mem} {serializer : Serializer υ} {c c' c₁ : Ctxt}
  {n p : Nat} {ps ps' : List Nat}

/-- The sizing pass at `c` reads at least `rd` and is in direct form. -/
structure Direct (sp : Space) (rd : Mem) (c : Ctxt) : Prop where
  ext : Extends rd (sp.deref c.shm)
  ser : c.useSerialization = false

/-- Looking a pointer up counts no bytes and keeps the form. -/
theorem calcMemoize_fields (c : Ctxt) (p : Nat) : (calcMemoize c p).2.size = c.size ∧
    (calcMemoize c p).2.useSerialization = c.useSerialization := by
  unfold calcMemoize
  split
  · exact ⟨rfl, rfl⟩
  · split <;> exact ⟨rfl, rfl⟩

/-- Counting a string keeps the form. -/
theorem calcStr_useSerialization (c : Ctxt) (p : Nat) :
    (calcStr sp c p).useSerialization = c.useSerialization := by
  have hm := (calcMemoize_fields c p).2
  unfold calcStr
  split
  · rfl
  · split
    next he => rwa [he] at hm
    next he => rwa [he] at hm

namespace Direct

/-- A context that has grown reads at least as much. -/
theorem grows (h : Direct sp rd c) (hg : Grows c c') (hs : c'.useSerialization = false) :
    Direct sp rd c' := ⟨hg.shm ▸ h.ext, hs⟩

/-- Counting bytes keeps the form. -/
theorem addSize (h : Direct sp rd c) (sz : Nat) : Direct sp rd (c.addSize sz) := ⟨h.ext, h.ser⟩

/-- So does looking a pointer up. -/
theorem calcMemoize (h : Direct sp rd c) (p : Nat) : Direct sp rd (calcMemoize c p).2 :=
  h.grows (.calcMemoize c p) ((calcMemoize_fields c p).2.trans h.ser)

/-- So does counting a string. -/
theorem calcStr (h : Direct sp rd c) (p : Nat) : Direct sp rd (calcStr sp c p) :=
  h.grows (.calcStr c p) ((calcStr_useSerialization c p).trans h.ser)

/-- So does counting the key of a bucket. -/
theorem calcKey (h : Direct sp rd c) (key : Option Nat) : Direct sp rd (calcKey sp c key) := by
  cases key with
  | none => exact h
  | some p => exact h.calcStr p

end Direct

/-- The bytes of the object at `p` in the memory of the process. -/
def Space.weight (sp : Space) (p : Nat) : Nat := (sp.req p).elim 0 Obj.weight

/-- Between `c` and `c'` the sizing pass has counted the objects at `ps`, each for the first
time. -/
structure Tally (sp : Space) (c c' : Ctxt) (ps : List Nat) : Prop where
  memo : c'.memoizationNeeded = true
  own : ∀ p ∈ ps, sp.shared p = false ∧ ∃ o, sp.req p = some o
  counted : c'.alreadyCounted = ps.map pointerToHashKey ++ c.alreadyCounted
  nodup : (ps.map pointerToHashKey).Nodup
  fresh : ∀ p ∈ ps, pointerToHashKey p ∉ c.alreadyCounted
  size : c'.size = c.size + (ps.map sp.weight).sum

namespace Tally

/-- Counting nothing. -/
theorem refl (h : c.memoizationNeeded = true) : Tally sp c c [] :=
  { memo := h, own := by simp, counted := rfl, nodup := .nil, fresh := by simp, size := rfl }

/-- Counting in two steps. -/
theorem trans (h : Tally sp c c₁ ps) (h' : Tally sp c₁ c' ps') : Tally sp c c' (ps' ++ ps) := by
  refine { memo := h'.memo, own := ?_, counted := ?_, nodup := ?_, fresh := ?_, size := ?_ }
  · intro p hp
    rcases List.mem_append.1 hp with hp | hp
    · exact h'.own p hp
    · exact h.own p hp
  · rw [h'.counted, h.counted, List.map_append, List.append_assoc]
  · rw [List.map_append]
    refine h'.nodup.append h.nodup fun k hk' hk => ?_
    obtain ⟨p, hp, rfl⟩ := List.mem_map.1 hk'
    refine h'.fresh p hp ?_
    rw [h.counted]
    exact List.mem_append_left _ hk
  · intro p hp hmem
    rcases List.mem_append.1 hp with hp | hp
    · refine h'.fresh p hp ?_
      rw [h.counted]
      exact List.mem_append_right _ hmem
    · exact h.fresh p hp hmem
  · rw [h'.size, h.size, List.map_append, List.sum_append]
    omega

/-- Counting a new pointer, and then adding the bytes of its object. -/
theorem memoize (h : c.memoizationNeeded = true) (hp : sp.shared p = false) {o : Obj}
    (ho : sp.req p = some o) (hseen : (calcMemoize c p).1 = false) {sz : Nat}
    (hsz : sz = o.weight) :
    Tally sp c { (calcMemoize c p).2 with size := (calcMemoize c p).2.size + sz } [p] := by
  unfold calcMemoize at hseen ⊢
  rw [h] at hseen ⊢
  simp only [Bool.not_true, Bool.false_eq_true, if_false] at hseen ⊢
  split at hseen
  · cases hseen
  next hmem =>
    rw [if_neg hmem]
    refine { memo := rfl, own := ?_, counted := rfl, nodup := by simp, fresh := ?_, size := ?_ }
    · intro q hq
      obtain rfl := List.mem_singleton.1 hq
      exact ⟨hp, o, ho⟩
    · intro q hq
      obtain rfl := List.mem_singleton.1 hq
      exact hmem
    · simp [Space.weight, ho, hsz]

/-- A pointer that was counted before adds nothing. -/
theorem seen (h : c.memoizationNeeded = true) (hseen : (calcMemoize c p).1 = true) :
    Tally sp c (calcMemoize c p).2 [] := by
  unfold calcMemoize at hseen ⊢
  rw [h] at hseen ⊢
  simp only [Bool.not_true, Bool.false_eq_true, if_false] at hseen ⊢
  split at hseen
  next hmem =>
    rw [if_pos hmem]
    exact .refl h
  · cases hseen

/-- What was counted is in the memory of the process, each object once. -/
theorem sum_lt (h : Tally sp c c' ps) : (ps.map sp.weight).sum < 2 ^ 62 := by
  have hnd : ps.Nodup := List.Nodup.of_map _ h.nodup
  have hsub : ps.toFinset ⊆ sp.objects := by
    intro p hp
    obtain ⟨-, o, ho⟩ := h.own p (List.mem_toFinset.1 hp)
    exact sp.mem_objects ho
  calc (ps.map sp.weight).sum = ∑ p ∈ ps.toFinset, sp.weight p :=
        (List.sum_toFinset sp.weight hnd).symm
    _ ≤ ∑ p ∈ sp.objects, sp.weight p := Finset.sum_le_sum_of_subset hsub
    _ < 2 ^ 62 := sp.fits

end Tally

/-! ## The passes -/

section

variable (hreq : ∀ p, sp.shared p = false → rd p = sp.req p)

include hreq

/-- A string is counted unless it is shared or was counted before. -/
theorem Tally.calcStr (h : Direct sp rd c) (hm : c.memoizationNeeded = true) {s : Bytes}
    (hs : readStr sp.zend rd p = some s) : ∃ ps, Tally sp c (calcStr sp c p) ps := by
  unfold ImmutableCache.calcStr
  split
  · exact ⟨[], .refl hm⟩
  next hp =>
    have hp : sp.shared p = false := by simpa using hp
    obtain ⟨o, ho, -, -⟩ := readStr_eq_some.1 hs
    have hmem := (h.calcMemoize p).ext ho
    split
    next he =>
      have hseen : Tally sp c (calcMemoize c p).2 [] := .seen hm (by rw [he])
      rw [he] at hseen
      exact ⟨[], hseen⟩
    next he =>
      rw [he] at hmem
      have hnew := Tally.memoize hm hp ((hreq p hp).symm.trans ho) (by rw [he]) rfl
      rw [he] at hnew
      refine ⟨[p], ?_⟩
      rw [Ctxt.addSizeStr, Space.zstr, hmem]
      exact hnew

/-- The same for the key of a bucket. -/
theorem Tally.calcKey (h : Direct sp rd c) (hm : c.memoizationNeeded = true) {b : Bucket} {k : Key}
    (hk : readKey sp.zend rd b.h b.key = some k) : ∃ ps, Tally sp c (calcKey sp c b.key) ps := by
  cases hb : b.key with
  | none => exact ⟨[], .refl hm⟩
  | some q =>
    rw [hb] at hk
    obtain ⟨s, hs, -⟩ := Option.map_eq_some_iff.1 hk
    exact Tally.calcStr hreq h hm hs

end

end ImmutableCache
