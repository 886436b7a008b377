import ImmutableCache.Lib.Run
import Mathlib.Algebra.BigOperators.Group.Finset.Piecewise
import Mathlib.Data.Fintype.Basic
import Mathlib.Data.List.Basic
import Mathlib.Logic.Function.Basic
import Mathlib.Logic.Relation

/-!
# Processes and locks

A program of a process acquires locks, each of which may be refused, releases them, and acts on a
state that the processes share. It ends, or it bails out. In a system of any number of processes each
executes one program after the other, and their steps interleave in any way; what a process holds
when it bails out stays with it. Two processes never hold a lock in conflicting modes
(`Excludes.step`), and processes that acquire locks in the order of a rank never wait in a circle
(`Disciplined.acyclic`), unless one of them has bailed out with a lock (`System.Strands`).
-/

namespace Procs

/-- How a lock is held. -/
inductive Mode where
  | shared
  | exclusive
  deriving DecidableEq, Repr

/-- What a process does with the locks `ℓ`, and to the shared state by the actions `α`. A number is
chosen where the program depends on data. -/
inductive Prog (ℓ α : Type) where
  | done
  | bail
  | acquire (l : ℓ) (m : Mode) (granted refused : Prog ℓ α)
  | release (l : ℓ) (next : Prog ℓ α)
  | act (a : α) (next : Prog ℓ α)
  | choose (p : Nat → Prog ℓ α)

/-- One of two programs. -/
def Prog.either {ℓ α : Type} (p q : Prog ℓ α) : Prog ℓ α := .choose fun n => if n = 0 then p else q

/-- A process: what is left of its program, and the locks that it holds. -/
structure Proc (ℓ α : Type) where
  prog : Prog ℓ α
  held : List (ℓ × Mode)

/-- The state of a system of the processes `ι`. -/
structure System (ι ℓ α σ : Type) where
  shared : σ
  procs : ι → Proc ℓ α

/-- The steps of a process: it gets the lock that it has come to, or it is refused; it releases a
lock; it acts; it chooses a number; or it begins the next program. -/
inductive Move where
  | grant
  | refuse
  | release
  | act
  | choose (n : Nat)
  | next
  deriving DecidableEq, Repr

variable {ι ℓ α σ : Type}

namespace System

/-- A lock that can be acquired: it is not held in a conflicting mode, by any process. -/
def Free (s : System ι ℓ α σ) (l : ℓ) (m : Mode) : Prop :=
  ∀ j m', (l, m') ∈ (s.procs j).held → m = .shared ∧ m' = .shared

/-- The process has come to the acquisition of a lock. -/
def Waits (s : System ι ℓ α σ) (i : ι) (l : ℓ) (m : Mode) : Prop :=
  ∃ granted refused, (s.procs i).prog = .acquire l m granted refused

/-- The process `i` waits for a lock that `j` holds. -/
def WaitsFor (s : System ι ℓ α σ) (i j : ι) : Prop :=
  ∃ l m m', s.Waits i l m ∧ (l, m') ∈ (s.procs j).held ∧ ¬ (m = .shared ∧ m' = .shared)

end System

variable [DecidableEq ℓ]

/-! ## Lock order -/

/-- The program acquires each lock while it holds only locks of lower rank, and ends without locks.
Nothing is said about what it holds when it chooses to bail out. -/
def Prog.Ordered (rank : ℓ → Nat) : List (ℓ × Mode) → Prog ℓ α → Prop
  | held, .done => held = []
  | held, .bail => held = []
  | held, .acquire l m granted refused => (∀ k ∈ held, rank k.1 < rank l) ∧
      granted.Ordered rank ((l, m) :: held) ∧ refused.Ordered rank held
  | held, .release l next => next.Ordered rank (held.eraseP (·.1 = l))
  | held, .act _ next => next.Ordered rank held
  | held, .choose p => ∀ n, p n = .bail ∨ (p n).Ordered rank held

/-- A choice keeps to the order if both programs do or bail out. -/
theorem Prog.ordered_either {rank : ℓ → Nat} {held : List (ℓ × Mode)} {p q : Prog ℓ α}
    (hp : p = .bail ∨ p.Ordered rank held) (hq : q = .bail ∨ q.Ordered rank held) :
    (Prog.either p q).Ordered rank held := by
  intro n
  dsimp only
  split
  · exact hp
  · exact hq

/-- What is left of each process's program keeps to the order. -/
def Disciplined (rank : ℓ → Nat) (s : System ι ℓ α σ) : Prop := ∀ i,
  (s.procs i).prog.Ordered rank (s.procs i).held

section

variable {rank : ℓ → Nat} {s : System ι ℓ α σ} {i j : ι}

/-- A process that waits for a lock holds only locks of lower rank. -/
theorem Disciplined.lt (h : Disciplined rank s) {l k : ℓ} {m n : Mode} (hw : s.Waits i l m)
    (hk : (k, n) ∈ (s.procs i).held) : rank k < rank l := by
  obtain ⟨granted, refused, hprog⟩ := hw
  have hi := h i
  rw [hprog] at hi
  exact hi.1 _ hk

/-- Along a chain of waiting processes the ranks grow. -/
theorem Disciplined.chain (h : Disciplined rank s) (hij : Relation.TransGen s.WaitsFor i j) :
    ∃ l m, s.Waits i l m ∧ ∃ k ∈ (s.procs j).held, rank l ≤ rank k.1 := by
  induction hij with
  | single hw =>
    obtain ⟨l, m, m', hw, hheld, -⟩ := hw
    exact ⟨l, m, hw, (l, m'), hheld, Nat.le_refl _⟩
  | tail _ hw ih =>
    obtain ⟨l, m, hwait, k, hk, hle⟩ := ih
    obtain ⟨l', m', n', hw', hheld, -⟩ := hw
    exact ⟨l, m, hwait, (l', n'), hheld, Nat.le_trans hle (Nat.le_of_lt (h.lt hw' hk))⟩

/-- No processes wait for each other in a circle. -/
theorem Disciplined.acyclic (h : Disciplined rank s) : ¬ Relation.TransGen s.WaitsFor i i := by
  intro hii
  obtain ⟨l, m, hw, k, hk, hle⟩ := h.chain hii
  exact absurd hle (Nat.not_le_of_lt (h.lt hw hk))

end

/-! ## Pairing -/

/-- The program releases only locks that it has acquired, or that are in `held`, when no lock is
refused. -/
def Prog.Paired : Set ℓ → Prog ℓ α → Prop
  | _, .done | _, .bail => True
  | held, .acquire l _ granted _ => granted.Paired (insert l held)
  | held, .release l next => l ∈ held ∧ next.Paired (held \ {l})
  | held, .act _ next => next.Paired held
  | held, .choose p => ∀ n, (p n).Paired held

omit [DecidableEq ℓ] in
/-- A program that pairs its locks does so with more locks held. -/
theorem Prog.Paired.mono {p : Prog ℓ α} {held held' : Set ℓ} (h : p.Paired held)
    (hle : held ⊆ held') : p.Paired held' := by
  induction p generalizing held held' with
  | done | bail => trivial
  | acquire l m granted refused ih _ => exact ih h (Set.insert_subset_insert hle)
  | release l next ih => exact ⟨hle h.1, ih h.2 (Set.sdiff_subset_sdiff_left hle)⟩
  | act a next ih => exact ih h hle
  | choose p ih => exact fun n => ih n (h n) hle

/-! ## Steps -/

variable [DecidableEq ι]

namespace System

/-- The process `i` goes on as `p`. -/
def set (s : System ι ℓ α σ) (i : ι) (p : Proc ℓ α) : System ι ℓ α σ :=
  { s with procs := Function.update s.procs i p }

omit [DecidableEq ℓ]

@[simp] theorem set_procs_self (s : System ι ℓ α σ) (i : ι) (p : Proc ℓ α) :
    (s.set i p).procs i = p := by
  rw [set]
  exact Function.update_self _ _ _

@[simp] theorem set_procs_of_ne (s : System ι ℓ α σ) {i j : ι} (h : j ≠ i) (p : Proc ℓ α) :
    (s.set i p).procs j = s.procs j := by
  rw [set]
  exact Function.update_of_ne h _ _

/-- What holds of the new process, and held of all the others, holds of all. -/
theorem forall_set {P : ι → Proc ℓ α → Prop} {s : System ι ℓ α σ} {i : ι} {p : Proc ℓ α}
    (hi : P i p) (h : ∀ j, j ≠ i → P j (s.procs j)) (j : ι) : P j ((s.set i p).procs j) := by
  rcases eq_or_ne j i with rfl | hne
  · rwa [set_procs_self]
  · rw [set_procs_of_ne s hne]
    exact h j hne

/-- The sum over the processes of what one of them contributes. -/
theorem sum_set [Fintype ι] (f : Proc ℓ α → Nat) (s : System ι ℓ α σ) (i : ι) (p : Proc ℓ α) :
    ∑ j, f ((s.set i p).procs j) + f (s.procs i) = ∑ j, f (s.procs j) + f p := by
  have hset : (fun j => f ((s.set i p).procs j)) =
      Function.update (fun j => f (s.procs j)) i (f p) := by
    funext j
    exact Function.apply_update (fun _ => f) s.procs i p j
  rw [hset, Finset.sum_update_of_mem (Finset.mem_univ i),
    ← Finset.add_sum_erase Finset.univ (fun j => f (s.procs j)) (Finset.mem_univ i),
    Finset.erase_eq]
  omega

end System

/-- A step of the process `i`. An action changes the shared state by `apply`, and the next program is
one of `ops`. -/
inductive Step (apply : ι → α → σ → σ) (ops : Prog ℓ α → Prop) :
    System ι ℓ α σ → ι × Move → System ι ℓ α σ → Prop
  | grant {s : System ι ℓ α σ} {i : ι} {l : ℓ} {m : Mode} {granted refused : Prog ℓ α} :
      (s.procs i).prog = .acquire l m granted refused → s.Free l m →
      Step apply ops s (i, .grant) (s.set i ⟨granted, (l, m) :: (s.procs i).held⟩)
  | refuse {s : System ι ℓ α σ} {i : ι} {l : ℓ} {m : Mode} {granted refused : Prog ℓ α} :
      (s.procs i).prog = .acquire l m granted refused →
      Step apply ops s (i, .refuse) (s.set i ⟨refused, (s.procs i).held⟩)
  | release {s : System ι ℓ α σ} {i : ι} {l : ℓ} {next : Prog ℓ α} :
      (s.procs i).prog = .release l next →
      Step apply ops s (i, .release) (s.set i ⟨next, (s.procs i).held.eraseP (·.1 = l)⟩)
  | act {s : System ι ℓ α σ} {i : ι} {a : α} {next : Prog ℓ α} :
      (s.procs i).prog = .act a next →
      Step apply ops s (i, .act)
        ({ s with shared := apply i a s.shared }.set i ⟨next, (s.procs i).held⟩)
  | choose {s : System ι ℓ α σ} {i : ι} {p : Nat → Prog ℓ α} (n : Nat) :
      (s.procs i).prog = .choose p →
      Step apply ops s (i, .choose n) (s.set i ⟨p n, (s.procs i).held⟩)
  | next {s : System ι ℓ α σ} {i : ι} {p : Prog ℓ α} :
      (s.procs i).prog = .done ∨ (s.procs i).prog = .bail → ops p →
      Step apply ops s (i, .next) (s.set i ⟨p, (s.procs i).held⟩)

variable {apply : ι → α → σ → σ} {ops : Prog ℓ α → Prop} {s s' : System ι ℓ α σ} {i j : ι}
  {move : Move}

/-! ## One process -/

/-- A process alone gets from one point of a program to another, with the number of the next attempt
to acquire a lock and the locks held, when the attempts succeed as `ok` tells. -/
inductive Prog.Leads (ok : Nat → Bool) :
    Nat → List ℓ → Prog ℓ α → Nat → List ℓ → Prog ℓ α → Prop
  | refl {t : Nat} {held : List ℓ} {p : Prog ℓ α} : Leads ok t held p t held p
  | grant {t t' : Nat} {held held' : List ℓ} {l : ℓ} {m : Mode} {granted refused p : Prog ℓ α} :
      ok t = true → Leads ok (t + 1) (l :: held) granted t' held' p →
      Leads ok t held (.acquire l m granted refused) t' held' p
  | refuse {t t' : Nat} {held held' : List ℓ} {l : ℓ} {m : Mode} {granted refused p : Prog ℓ α} :
      ok t = false → Leads ok (t + 1) held refused t' held' p →
      Leads ok t held (.acquire l m granted refused) t' held' p
  | release {t t' : Nat} {held held' : List ℓ} {l : ℓ} {next p : Prog ℓ α} :
      Leads ok t (held.erase l) next t' held' p → Leads ok t held (.release l next) t' held' p
  | act {t t' : Nat} {held held' : List ℓ} {a : α} {next p : Prog ℓ α} :
      Leads ok t held next t' held' p → Leads ok t held (.act a next) t' held' p
  | choose {t t' : Nat} {held held' : List ℓ} {p : Nat → Prog ℓ α} {q : Prog ℓ α} (n : Nat) :
      Leads ok t held (p n) t' held' q → Leads ok t held (.choose p) t' held' q

omit [DecidableEq ι] in
/-- Two stretches of a program make one. -/
theorem Prog.Leads.trans {ok : Nat → Bool} {t t₁ t' : Nat} {held held₁ held' : List ℓ}
    {p p₁ p' : Prog ℓ α} (h : Leads ok t held p t₁ held₁ p₁)
    (h' : Leads ok t₁ held₁ p₁ t' held' p') : Leads ok t held p t' held' p' := by
  induction h with
  | refl => exact h'
  | grant hok _ ih => exact .grant hok (ih h')
  | refuse hok _ ih => exact .refuse hok (ih h')
  | release _ ih => exact .release (ih h')
  | act _ ih => exact .act (ih h')
  | choose n _ ih => exact .choose n (ih h')

/-! ## Mutual exclusion -/

/-- No two processes hold a lock in conflicting modes. -/
def Excludes (s : System ι ℓ α σ) : Prop := ∀ i j l m m', i ≠ j → (l, m) ∈ (s.procs i).held →
  (l, m') ∈ (s.procs j).held → m = .shared ∧ m' = .shared

omit [DecidableEq ℓ] in
/-- A process that holds no more than before. -/
theorem Excludes.set (h : Excludes s) {p : Proc ℓ α} (hp : p.held ⊆ (s.procs i).held) :
    Excludes (s.set i p) := by
  have hle (j : ι) : ((s.set i p).procs j).held ⊆ (s.procs j).held := by
    rcases eq_or_ne j i with rfl | hne
    · rwa [System.set_procs_self]
    · rw [System.set_procs_of_ne s hne]
      exact List.Subset.refl _
  intro j k l m m' hne hj hk
  exact h j k l m m' hne (hle j hj) (hle k hk)

/-- A lock is granted only if it excludes nobody. -/
theorem Excludes.step (h : Excludes s) (hstep : Step apply ops s (i, move) s') : Excludes s' := by
  cases hstep with
  | @grant _ l m granted refused hprog hfree =>
    have hnew {j : ι} {k : ℓ} {n n' : Mode} (hne : j ≠ i) (hi : (k, n) ∈ (l, m) :: (s.procs i).held)
        (hj : (k, n') ∈ (s.procs j).held) : n = .shared ∧ n' = .shared := by
      rcases List.mem_cons.1 hi with heq | hi
      · cases heq
        exact hfree j n' hj
      · exact h i j k n n' hne.symm hi hj
    intro j k l' n n' hne hj hk
    rcases eq_or_ne j i with rfl | hji
    · rw [System.set_procs_self] at hj
      rw [System.set_procs_of_ne s hne.symm] at hk
      exact hnew hne.symm hj hk
    · rw [System.set_procs_of_ne s hji] at hj
      rcases eq_or_ne k i with rfl | hki
      · rw [System.set_procs_self] at hk
        exact (hnew hji hk hj).symm
      · rw [System.set_procs_of_ne s hki] at hk
        exact h j k l' n n' hne hj hk
  | refuse => exact h.set (List.Subset.refl _)
  | release => exact h.set List.eraseP_subset
  | @act _ a _ _ =>
    have h' : Excludes { s with shared := apply i a s.shared } := h
    exact h'.set (List.Subset.refl _)
  | choose => exact h.set (List.Subset.refl _)
  | next => exact h.set (List.Subset.refl _)

/-! ## Keeping to the order -/

/-- The process chooses to bail out, and holds a lock. -/
def System.Strands (s : System ι ℓ α σ) (i : ι) (move : Move) : Prop :=
  ∃ p n, (s.procs i).prog = .choose p ∧ move = .choose n ∧ p n = .bail ∧ (s.procs i).held ≠ []

omit [DecidableEq ι] [DecidableEq ℓ] in
/-- Only a choice bails out. -/
theorem not_strands_of_ne (h : ∀ n, move ≠ .choose n) : ¬ s.Strands i move := by
  rintro ⟨p, n, -, hmove, -⟩
  exact h n hmove

omit [DecidableEq ι] [DecidableEq ℓ] in
/-- A process without locks may bail out. -/
theorem not_strands_of_nil (h : (s.procs i).held = []) : ¬ s.Strands i move := by
  rintro ⟨p, n, -, -, -, hheld⟩
  exact hheld h

omit [DecidableEq ι] [DecidableEq ℓ] in
/-- A choice may be to go on. -/
theorem not_strands_of_choose {p : Nat → Prog ℓ α} {n : Nat}
    (h : (s.procs i).prog = .choose p) (hp : p n ≠ .bail) : ¬ s.Strands i (.choose n) := by
  rintro ⟨p', n', hprog, hmove, hbail, -⟩
  cases hmove
  rw [h] at hprog
  cases hprog
  exact hp hbail

variable {rank : ℓ → Nat}

/-- The processes keep to the order if the one that has changed does. -/
theorem Disciplined.set (h : Disciplined rank s) {p : Proc ℓ α}
    (hp : p.prog.Ordered rank p.held) : Disciplined rank (s.set i p) :=
  System.forall_set (P := fun _ p => p.prog.Ordered rank p.held) hp fun j _ => h j

/-- A step keeps to the order unless a process bails out with a lock. -/
theorem Disciplined.step (h : Disciplined rank s) (hops : ∀ p, ops p → p.Ordered rank [])
    (hstep : Step apply ops s (i, move) s') (hstrands : ¬ s.Strands i move) :
    Disciplined rank s' := by
  have hi := h i
  cases hstep with
  | grant hprog =>
    rw [hprog] at hi
    exact h.set hi.2.1
  | refuse hprog =>
    rw [hprog] at hi
    exact h.set hi.2.2
  | release hprog =>
    rw [hprog] at hi
    exact h.set hi
  | @act _ a _ hprog =>
    rw [hprog] at hi
    have h' : Disciplined rank { s with shared := apply i a s.shared } := h
    exact h'.set hi
  | @choose _ p n hprog =>
    rw [hprog] at hi
    rcases hi n with hbail | hn
    · refine h.set ?_
      rw [hbail]
      by_contra hheld
      exact hstrands ⟨p, n, hprog, rfl, hbail, hheld⟩
    · exact h.set hn
  | next hprog hp =>
    have hheld : (s.procs i).held = [] := by
      rcases hprog with hend | hend <;> rw [hend] at hi <;> exact hi
    refine h.set ?_
    rw [hheld]
    exact hops _ hp

end Procs
