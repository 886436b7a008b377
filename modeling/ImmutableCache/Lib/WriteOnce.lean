import ImmutableCache.Lib.Run
import Mathlib.Logic.Function.Basic

/-!
# Write-once maps

The sequential specification of a map with insert-if-absent. An operation is described by what it
was asked and what it answered. The map after a run of operations binds a key to the value of the
first insertion of that key that took place (`WriteOnce.run_eq`).
-/

/-- An operation on a write-once map, with its answer. -/
inductive WriteOnce (κ β : Type*)
  /-- An insertion of the value `v`, if there is one, and whether it took place. -/
  | insert (k : κ) (v : Option β) (done : Bool)
  /-- A lookup, and what it found. -/
  | lookup (k : κ) (found : Option β)
  /-- Neither of them. -/
  | skip

namespace WriteOnce

variable {κ β : Type*} [DecidableEq κ] {m m' : κ → Option β} {op : WriteOnce κ β}
  {ops : List (WriteOnce κ β)}

/-- What an operation answers and does to the map: a value is inserted if its key is not bound. -/
inductive Step : (κ → Option β) → WriteOnce κ β → (κ → Option β) → Prop
  | inserted {m : κ → Option β} {k : κ} {v : β} :
      m k = none → Step m (.insert k (some v) true) (Function.update m k (some v))
  | refused {m : κ → Option β} {k : κ} {v : Option β} :
      v = none ∨ m k ≠ none → Step m (.insert k v false) m
  | lookup {m : κ → Option β} {k : κ} : Step m (.lookup k (m k)) m
  | skip {m : κ → Option β} : Step m .skip m

/-- The value that the operation binds the key `k` to. -/
def binds (k : κ) : WriteOnce κ β → Option β
  | .insert k' (some v) true => if k' = k then some v else none
  | _ => none

/-- Only an insertion that succeeds binds a key. -/
theorem binds_eq_some {k : κ} {v : β} :
    op.binds k = some v ↔ op = .insert k (some v) true := by
  constructor
  · intro h
    unfold binds at h
    split at h
    · split at h
      next he =>
        cases h
        rw [he]
      next => cases h
    · cases h
  · rintro rfl
    simp [binds]

/-- A binding is made once and never changed. -/
theorem Step.eq (h : Step m op m') (k : κ) : m' k = (m k).or (op.binds k) := by
  cases h with
  | inserted hk =>
    rename_i k' v
    by_cases he : k' = k
    · subst he
      simp [binds, hk]
    · simp [binds, he, Ne.symm he]
  | refused hv => simp [binds]
  | lookup => simp [binds]
  | skip => simp [binds]

/-- A key is bound to the value of its first insertion. -/
theorem run_eq (h : Run Step m ops m') (k : κ) : m' k = (m k).or (ops.findSome? (binds k)) := by
  induction h with
  | nil => simp
  | cons h1 _ ih =>
    rw [ih, h1.eq k, List.findSome?_cons, Option.or_assoc]
    congr 1
    cases binds k _ <;> rfl

section

variable {ι : Type*} {op : ι → WriteOnce κ β} {is : List ι} {i j : ι} {k : κ} {u : Option β} {v : β}

/-- A binding is never changed. -/
theorem run_kept (h : Run (fun m i m' => Step m (op i) m') m is m') (hk : m k = some v) :
    m' k = some v := by
  induction h with
  | nil => exact hk
  | cons h1 _ ih =>
    refine ih ?_
    rw [h1.eq, hk, Option.some_or]

/-- A key is bound to what was inserted. -/
theorem run_bound (h : Run (fun m i m' => Step m (op i) m') m is m') (hm : m k = none)
    (hk : m' k = some v) : ∃ i ∈ is, op i = .insert k (some v) true := by
  induction h with
  | nil =>
    rw [hm] at hk
    cases hk
  | cons h1 hrun ih =>
    rename_i m m₁ m₂ i is
    have heq := h1.eq k
    rw [hm, Option.none_or] at heq
    cases hm₁ : m₁ k with
    | none =>
      obtain ⟨j, hj, hop⟩ := ih hm₁ hk
      exact ⟨j, List.mem_cons_of_mem _ hj, hop⟩
    | some u =>
      obtain rfl : u = v := Option.some.inj ((run_kept hrun hm₁).symm.trans hk)
      exact ⟨i, by simp, binds_eq_some.1 (heq.symm.trans hm₁)⟩

/-- A key that is bound stays bound until any operation of the run. -/
theorem run_mem (h : Run (fun m i m' => Step m (op i) m') m is m') (hk : m k = some v)
    (hi : i ∈ is) : ∃ m₁ m₂, Step m₁ (op i) m₂ ∧ m₁ k = some v := by
  induction h with
  | nil => cases hi
  | cons h1 _ ih =>
    rcases List.mem_cons.1 hi with rfl | hi
    · exact ⟨_, _, h1, hk⟩
    · refine ih ?_ hi
      rw [h1.eq, hk, Option.some_or]

/-- An operation that comes after an insertion of its key meets the value. -/
theorem run_inserted (h : Run (fun m i m' => Step m (op i) m') m is m')
    (hij : [i, j].Sublist is) (hi : op i = .insert k (some v) true) :
    ∃ m₁ m₂, Step m₁ (op j) m₂ ∧ m₁ k = some v := by
  induction h with
  | nil => cases hij
  | cons h1 hrun ih =>
    rcases List.sublist_cons_iff.1 hij with hij | ⟨js, he, hjs⟩
    · exact ih hij
    · cases he
      refine run_mem hrun ?_ (List.singleton_sublist.1 hjs)
      rw [hi] at h1
      cases h1
      exact Function.update_self _ _ _

/-- A key is inserted once. -/
theorem run_inserted_ne (h : Run (fun m i m' => Step m (op i) m') m is m')
    (hij : [i, j].Sublist is) (hi : op i = .insert k (some v) true) : op j ≠ .insert k u true := by
  intro hj
  obtain ⟨m₁, m₂, hstep, hk⟩ := run_inserted h hij hi
  rw [hj] at hstep
  cases hstep with
  | inserted hnone =>
    rw [hk] at hnone
    cases hnone

/-- A lookup after an insertion finds the value. -/
theorem run_inserted_lookup (h : Run (fun m i m' => Step m (op i) m') m is m')
    (hij : [i, j].Sublist is) (hi : op i = .insert k (some v) true) (hj : op j = .lookup k u) :
    u = some v := by
  obtain ⟨m₁, m₂, hstep, hk⟩ := run_inserted h hij hi
  rw [hj] at hstep
  cases hstep
  exact hk

end

end WriteOnce
