import Mathlib.Tactic.Common

/-!
# Runs of a labelled transition system

A step relation `step s i s'` takes a state to a state under a label. `Run step s is s'` is a
finite sequence of steps with the labels `is`. An invariant of the steps is an invariant of the
runs, and a simulation of the steps is one of the runs.
-/

variable {σ τ ι κ : Type*}

/-- A finite sequence of steps, with the list of its labels. -/
inductive Run (step : σ → ι → σ → Prop) : σ → List ι → σ → Prop
  | nil {s : σ} : Run step s [] s
  | cons {s s' s'' : σ} {i : ι} {is : List ι} :
      step s i s' → Run step s' is s'' → Run step s (i :: is) s''

namespace Run

variable {step : σ → ι → σ → Prop} {s s' s'' : σ} {is js : List ι}

/-- Two runs make one. -/
theorem append (h : Run step s is s') (h' : Run step s' js s'') : Run step s (is ++ js) s'' := by
  induction h with
  | nil => exact h'
  | cons h1 _ ih => exact .cons h1 (ih h')

/-- A property that every step with a label of the run keeps holds at the end of the run. -/
theorem invariant {Inv : σ → Prop} (h : Run step s is s')
    (hstep : ∀ {s s'} {i}, i ∈ is → Inv s → step s i s' → Inv s') (hs : Inv s) : Inv s' := by
  induction h with
  | nil => exact hs
  | cons h1 _ ih =>
    exact ih (fun hi => hstep (List.mem_cons_of_mem _ hi)) (hstep (by simp) hs h1)

/-- A run is one of every relation that has its steps. -/
theorem mono {step' : σ → ι → σ → Prop} (h : Run step s is s')
    (hstep : ∀ {s s' : σ} {i : ι}, step s i s' → step' s i s') : Run step' s is s' := by
  induction h with
  | nil => exact .nil
  | cons h1 _ ih => exact .cons (hstep h1) ih

/-- A relation that every step keeps up with a step of another system, or with none if `f` drops its
label, holds between the ends of matching runs. -/
theorem simulate_filterMap {step' : τ → κ → τ → Prop} {f : ι → Option κ} {R : σ → τ → Prop}
    (h : Run step s is s')
    (hnone : ∀ {s s'} {i} {t}, R s t → step s i s' → f i = none → R s' t)
    (hsome : ∀ {s s'} {i} {t} {k}, R s t → step s i s' → f i = some k → ∃ t', step' t k t' ∧ R s' t')
    {t : τ} (hs : R s t) : ∃ t', Run step' t (is.filterMap f) t' ∧ R s' t' := by
  induction h generalizing t with
  | nil => exact ⟨t, .nil, hs⟩
  | @cons _ _ _ i is h1 _ ih =>
    cases hi : f i with
    | none =>
      rw [List.filterMap_cons_none hi]
      exact ih (hnone hs h1 hi)
    | some k =>
      rw [List.filterMap_cons_some hi]
      obtain ⟨t₁, ht₁, hR⟩ := hsome hs h1 hi
      obtain ⟨t₂, ht₂, hR'⟩ := ih hR
      exact ⟨t₂, .cons ht₁ ht₂, hR'⟩

end Run
