import Mathlib.Order.Defs.Unbundled
import Mathlib.Tactic.Common

/-!
# Programs that may bail out

A program over a state `σ` either returns a value or bails out: it jumps out of all the code that
called it, up to the innermost `ensuring`, and keeps the state as it was at the jump. `Bail.Wp`
is the weakest precondition of a program, with one postcondition for the return and one for the
bailout.
-/

/-- A program that returns a value or bails out. -/
abbrev Bail (σ : Type) := EStateM Unit σ

namespace Bail

variable {σ α β : Type}

/-- Bail out. -/
def bailout : Bail σ α := throw ()

/-- Run `body`, then `fin` whether `body` has returned or bailed out; in the second case bail out
again. -/
def ensuring (body : Bail σ α) (fin : Bail σ Unit) : Bail σ α := fun s =>
  match body s with
  | .ok a s =>
    match fin s with
    | .ok _ s => .ok a s
    | .error e s => .error e s
  | .error e s =>
    match fin s with
    | .ok _ s => .error e s
    | .error e s => .error e s

/-- Started in `s`, the program ends in `Q` if it returns and in `E` if it bails out. -/
def Wp (x : Bail σ α) (s : σ) (Q : α → σ → Prop) (E : σ → Prop) : Prop :=
  match x s with
  | .ok a s => Q a s
  | .error _ s => E s

variable {x : Bail σ α} {s : σ} {Q Q' : α → σ → Prop} {E E' : σ → Prop}

@[simp] theorem wp_pure (a : α) : Wp (pure a) s Q E ↔ Q a s := Iff.rfl

@[simp] theorem wp_bailout : Wp (bailout : Bail σ α) s Q E ↔ E s := Iff.rfl

@[simp] theorem wp_get {Q : σ → σ → Prop} : Wp get s Q E ↔ Q s s := Iff.rfl

@[simp] theorem wp_set {Q : PUnit → σ → Prop} (s' : σ) : Wp (set s') s Q E ↔ Q ⟨⟩ s' := Iff.rfl

@[simp] theorem wp_modify {Q : PUnit → σ → Prop} (f : σ → σ) :
    Wp (modify f) s Q E ↔ Q ⟨⟩ (f s) := Iff.rfl

@[simp] theorem wp_modifyGet (f : σ → α × σ) :
    Wp (modifyGet f) s Q E ↔ Q (f s).1 (f s).2 := Iff.rfl

@[simp] theorem wp_bind {Q : β → σ → Prop} (f : α → Bail σ β) :
    Wp (x >>= f) s Q E ↔ Wp x s (fun a s => Wp (f a) s Q E) E := by
  unfold Wp
  simp only [bind, EStateM.bind]
  cases x s <;> rfl

@[simp] theorem wp_map {Q : β → σ → Prop} (f : α → β) :
    Wp (f <$> x) s Q E ↔ Wp x s (fun a s => Q (f a) s) E := by
  unfold Wp
  simp only [Functor.map, EStateM.map]
  cases x s <;> rfl

@[simp] theorem wp_ensuring (fin : Bail σ Unit) : Wp (ensuring x fin) s Q E ↔
    Wp x s (fun a s => Wp fin s (fun _ s => Q a s) E) (fun s => Wp fin s (fun _ s => E s) E) := by
  unfold Wp ensuring
  cases x s with
  | ok a s =>
    dsimp only
    cases fin s <;> rfl
  | error e s =>
    dsimp only
    cases fin s <;> rfl

/-- The condition of a choice of two programs. -/
theorem wp_ite {c : Prop} [Decidable c] {y : Bail σ α} :
    Wp (if c then x else y) s Q E ↔ if c then Wp x s Q E else Wp y s Q E := by
  split <;> rfl

/-- Weaker postconditions. -/
theorem Wp.mono (h : Wp x s Q E) (hQ : ∀ a s, Q a s → Q' a s) (hE : ∀ s, E s → E' s) :
    Wp x s Q' E' := by
  unfold Wp at h ⊢
  cases hx : x s with
  | ok a s =>
    rw [hx] at h
    exact hQ a s h
  | error e s =>
    rw [hx] at h
    exact hE s h

/-- Two specifications of one program hold together. -/
theorem Wp.and (h : Wp x s Q E) (h' : Wp x s Q' E') :
    Wp x s (fun a s => Q a s ∧ Q' a s) (fun s => E s ∧ E' s) := by
  unfold Wp at h h' ⊢
  cases hx : x s with
  | ok a s =>
    rw [hx] at h h'
    exact ⟨h, h'⟩
  | error e s =>
    rw [hx] at h h'
    exact ⟨h, h'⟩

/-- In the postconditions, the result of the program is known. -/
theorem Wp.eq (h : Wp x s Q E) :
    Wp x s (fun a s' => x s = .ok a s' ∧ Q a s') fun s' => x s = .error () s' ∧ E s' := by
  unfold Wp at h ⊢
  cases hx : x s with
  | ok a s' =>
    rw [hx] at h
    exact ⟨rfl, h⟩
  | error e s' =>
    rw [hx] at h
    exact ⟨rfl, h⟩

/-- A postcondition that always holds. -/
theorem Wp.trivial (x : Bail σ α) (s : σ) : Wp x s (fun _ _ => True) fun _ => True := by
  unfold Wp
  cases x s <;> exact True.intro

/-- A program ends in some way. -/
theorem Wp.not_false (h : Wp x s (fun _ _ => False) fun _ => False) : False := by
  unfold Wp at h
  cases hx : x s <;> rw [hx] at h <;> exact h

/-- What holds of a program holds of what it returns. -/
theorem Wp.of_ok {a : α} {s' : σ} (h : Wp x s Q E) (hx : x s = .ok a s') : Q a s' := by
  unfold Wp at h
  rwa [hx] at h

/-- A first program that returns, and then the second one. -/
theorem bind_eq_of_ok {f : α → Bail σ β} {a : α} {s' : σ} (h : x s = .ok a s') :
    (x >>= f) s = f a s' := by
  simp only [bind, EStateM.bind, h]

/-- A first program that bails out. -/
theorem bind_eq_of_error {f : α → Bail σ β} {s' : σ} (h : x s = .error () s') :
    (x >>= f) s = .error () s' := by
  simp only [bind, EStateM.bind, h]

/-- A function of the result of a program that returns. -/
theorem map_eq_ok {f : α → β} {a : α} {s' : σ} (h : x s = .ok a s') :
    (f <$> x) s = .ok (f a) s' := by
  simp only [Functor.map, EStateM.map, h]

/-- A mapped program that returns. -/
theorem of_map_eq_ok {f : α → β} {b : β} {s' : σ} (h : (f <$> x) s = .ok b s') :
    ∃ a, x s = .ok a s' ∧ f a = b := by
  simp only [Functor.map, EStateM.map] at h
  cases hx : x s with
  | ok a s₁ =>
    rw [hx] at h
    cases h
    exact ⟨a, rfl, rfl⟩
  | error e s₁ =>
    rw [hx] at h
    cases h

/-- A mapped program that bails out. -/
theorem of_map_eq_error {f : α → β} {s' : σ} (h : (f <$> x) s = .error () s') :
    x s = .error () s' := by
  simp only [Functor.map, EStateM.map] at h
  cases hx : x s with
  | ok a s₁ =>
    rw [hx] at h
    cases h
  | error e s₁ =>
    rw [hx] at h
    cases h
    rfl

/-- The state in which a program ends, whether it returns or bails out. -/
def final (x : Bail σ α) (s : σ) : σ :=
  match x s with
  | .ok _ s' => s'
  | .error _ s' => s'

/-- A condition that does not look at the result is one on the final state. -/
theorem wp_final {P : σ → Prop} : Wp x s (fun _ => P) P ↔ P (final x s) := by
  unfold Wp final
  cases x s <;> exact Iff.rfl

/-- The program without its value. -/
def forget (x : Bail σ α) : Bail σ Unit := (fun _ => ()) <$> x

/-- A program that returns, without its result. -/
theorem forget_ok {a : α} {s' : σ} (h : x s = .ok a s') : forget x s = .ok () s' := map_eq_ok h

/-- A program that bails out, without its result. -/
theorem forget_error {s' : σ} (h : x s = .error () s') : forget x s = .error () s' := by
  simp only [forget, Functor.map, EStateM.map, h]

/-- Two programs do the same to the state if they do so in two steps. -/
theorem forget_bind {f : α → Bail σ β} {y y' : Bail σ Unit} (hx : forget x s = y s)
    (hf : ∀ a s', x s = .ok a s' → forget (f a) s' = y' s') :
    forget (x >>= f) s = (y >>= fun _ => y') s := by
  cases h : x s with
  | ok a s' =>
    rw [forget_ok h] at hx
    rw [bind_eq_of_ok hx.symm, ← hf a s' h]
    unfold forget
    simp only [Functor.map, EStateM.map, bind_eq_of_ok h]
  | error e s' =>
    rw [forget_error h] at hx
    rw [bind_eq_of_error hx.symm, forget_error (bind_eq_of_error h)]

/-- Programs that agree in a state agree without their results. -/
theorem forget_congr {y : Bail σ α} (h : x s = y s) : forget x s = forget y s := by
  simp only [forget, Functor.map, EStateM.map, h]

/-- A function of the result does not matter when the result is forgotten. -/
theorem forget_bind_pure (g : α → β) : forget (x >>= fun a => pure (g a)) = forget x := by
  funext s
  cases h : x s with
  | ok a s' =>
    have hbind : (x >>= fun a => Pure.pure (g a)) s = .ok (g a) s' := bind_eq_of_ok h
    rw [forget_ok h, forget_ok hbind]
  | error e s' => rw [forget_error h, forget_error (bind_eq_of_error h)]

/-- A condition that does not look at the result holds of a program if it does without the result.
-/
theorem wp_forget {P E : σ → Prop} : Wp x s (fun _ => P) E ↔ Wp (forget x) s (fun _ => P) E := by
  rw [forget, wp_map]

/-! ## What a program does at most -/

/-- The program leads from each state to one that is related to it, whether it returns or bails
out. -/
def Within (R : σ → σ → Prop) (x : Bail σ α) : Prop := ∀ s, Wp x s (fun _ => R s) (R s)

namespace Within

variable {R : σ → σ → Prop}

/-- A function of the result. -/
theorem map {f : α → β} (hx : Within R x) : Within R (f <$> x) := by
  intro s
  rw [wp_map]
  exact hx s

/-- A choice of two programs. -/
theorem ite {c : Prop} [Decidable c] {y : Bail σ α} (hx : Within R x) (hy : Within R y) :
    Within R (if c then x else y) := by
  split
  · exact hx
  · exact hy

variable [IsPreorder σ R]

/-- A program that only gives a value, for a reflexive relation. -/
theorem pure (a : α) : Within R (pure a : Bail σ α) := fun s => refl_of R s

/-- To bail out, for a reflexive relation. -/
theorem bailout : Within R (bailout : Bail σ α) := fun s => refl_of R s

/-- To read the state, for a reflexive relation. -/
theorem get : Within R (MonadState.get : Bail σ σ) := fun s => refl_of R s

/-- Two programs in a row, for a transitive relation. -/
theorem bind {f : α → Bail σ β} (hx : Within R x) (hf : ∀ a, Within R (f a)) :
    Within R (x >>= f) := by
  intro s
  rw [wp_bind]
  refine (hx s).mono (fun a s₁ h => ?_) fun _ => id
  exact (hf a s₁).mono (fun _ _ => trans_of R h) fun _ => trans_of R h

/-- A `finally` clause runs in both cases. -/
theorem ensuring {fin : Bail σ Unit} (hx : Within R x) (hfin : Within R fin) :
    Within R (ensuring x fin) := by
  intro s
  rw [wp_ensuring]
  exact (hx s).mono (fun _ s₁ h => (hfin s₁).mono (fun _ _ => trans_of R h) fun _ => trans_of R h)
    fun s₁ h => (hfin s₁).mono (fun _ _ => trans_of R h) fun _ => trans_of R h

end Within

/-! ## What a program leaves alone -/

/-- The program leaves what `f` tells about the state as it is, whether it returns or bails out. -/
def Keeps {τ : Type} (f : σ → τ) (x : Bail σ α) : Prop :=
  ∀ s, Wp x s (fun _ s' => f s' = f s) fun s' => f s' = f s

instance {τ : Type} {f : σ → τ} : IsPreorder σ (fun s s' => f s' = f s) where
  refl _ := rfl
  trans _ _ _ h h' := h'.trans h

namespace Keeps

variable {τ : Type} {f : σ → τ}

/-- A program that keeps `f` is one within a relation. -/
theorem within (hx : Keeps f x) : Within (fun s s' => f s' = f s) x := hx

/-- A program that only gives a value keeps everything. -/
theorem pure (a : α) : Keeps f (pure a : Bail σ α) := fun _ => rfl

/-- To bail out keeps everything. -/
theorem bailout : Keeps f (bailout : Bail σ α) := fun _ => rfl

/-- To read the state keeps everything. -/
theorem get : Keeps f (MonadState.get : Bail σ σ) := fun _ => rfl

/-- An update that keeps `f`. -/
theorem of_modify {g : σ → σ} (h : ∀ s, f (g s) = f s) : Keeps f (modify g : Bail σ PUnit) := h

/-- Two programs in a row. -/
theorem bind {g : α → Bail σ β} (hx : Keeps f x) (hg : ∀ a, Keeps f (g a)) :
    Keeps f (x >>= g) := hx.within.bind hg

/-- A function of the result. -/
theorem map {g : α → β} (hx : Keeps f x) : Keeps f (g <$> x) := hx.within.map

/-- An update with a result that keeps `f`. -/
theorem of_modifyGet {g : σ → α × σ} (h : ∀ s, f (g s).2 = f s) :
    Keeps f (modifyGet g : Bail σ α) := h

/-- A program with a `finally` clause. -/
theorem ensuring {fin : Bail σ Unit} (hx : Keeps f x) (hfin : Keeps f fin) :
    Keeps f (ensuring x fin) := hx.within.ensuring hfin

/-- Less is told about the state. -/
theorem of_eq {τ' : Type} {f' : σ → τ'} (g : τ → τ') (hg : ∀ s, f' s = g (f s)) (hx : Keeps f x) :
    Keeps f' x := by
  intro s
  refine (hx s).mono (fun _ s' h => ?_) fun s' h => ?_ <;> rw [hg, hg, h]

/-- A choice of two programs. -/
theorem ite {c : Prop} [Decidable c] {y : Bail σ α} (hx : Keeps f x) (hy : Keeps f y) :
    Keeps f (if c then x else y) := hx.within.ite hy

end Keeps

/-! ## Programs on changed states -/

/-- The result with its state changed by `g`. -/
def mapState (g : σ → σ) : EStateM.Result Unit σ α → EStateM.Result Unit σ α
  | .ok a s => .ok a (g s)
  | .error e s => .error e (g s)

/-- A changed result comes from a result. -/
theorem of_mapState_eq_ok {g : σ → σ} {r : EStateM.Result Unit σ α} {a : α} {s : σ}
    (h : mapState g r = .ok a s) : ∃ s', r = .ok a s' ∧ g s' = s := by
  cases r with
  | ok a' s' =>
    cases h
    exact ⟨s', rfl, rfl⟩
  | error e s' => cases h

/-- In the changed state, `y` does what `x` does in the state before the change. -/
def Commutes (g : σ → σ) (x y : Bail σ α) : Prop := ∀ s, y (g s) = mapState g (x s)

namespace Commutes

variable {g : σ → σ} {y : Bail σ α}

/-- A program that only gives a value commutes with every map of the states. -/
theorem pure (a : α) : Commutes g (pure a) (pure a) := fun _ => rfl

/-- Two programs in a row. -/
theorem bind {f f' : α → Bail σ β} (hx : Commutes g x y) (hf : ∀ a, Commutes g (f a) (f' a)) :
    Commutes g (x >>= f) (y >>= f') := by
  intro s
  have hs := hx s
  cases h : x s with
  | ok a s' =>
    rw [h] at hs
    rw [bind_eq_of_ok h, bind_eq_of_ok hs]
    exact hf a s'
  | error e s' =>
    rw [h] at hs
    rw [bind_eq_of_error h, bind_eq_of_error hs]
    rfl

/-- A function of the result. -/
theorem map {f : α → β} (hx : Commutes g x y) : Commutes g (f <$> x) (f <$> y) := by
  rw [map_eq_pure_bind, map_eq_pure_bind]
  exact hx.bind fun a => pure (f a)

/-- Both programs may read what the change leaves alone. -/
theorem gets {τ : Type} {f : σ → τ} {k k' : τ → Bail σ α} (hf : ∀ s, f (g s) = f s)
    (hk : ∀ t, Commutes g (k t) (k' t)) :
    Commutes g (do k (f (← get))) (do k' (f (← get))) := by
  intro s
  show k' (f (g s)) (g s) = mapState g (k (f s) s)
  rw [hf s]
  exact hk (f s) s

/-- A choice of two programs. -/
theorem ite {c : Prop} [Decidable c] {x' y' : Bail σ α} (hx : Commutes g x y)
    (hx' : Commutes g x' y') : Commutes g (if c then x else x') (if c then y else y') := by
  split
  · exact hx
  · exact hx'

end Commutes

end Bail
