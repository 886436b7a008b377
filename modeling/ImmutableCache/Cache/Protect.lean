import ImmutableCache.Cache.Sections

/-!
# Write protection

With `immutable_cache.protect_memory` the shared segments are read-only for a process, except inside
a write section. The mode of the pages belongs to the process, and its threads do not count their
sections. Those under the global lock exclude each other, but the copy in `immutable_cache_persist`
holds no lock: a thread that ends a section write-protects the pages under another thread that
copies (`run_writable`).
-/

namespace ImmutableCache

open Procs

/-! ## Sections -/

/-- The program, inside a write section or not, writes only inside one, and ends outside. Nothing is
said about where it chooses to bail out. -/
def Sections.Bracketed : Bool → Sections → Prop
  | inside, .done => inside = false
  | inside, .bail => inside = false
  | inside, .acquire _ _ granted refused =>
    Bracketed inside granted ∧ Bracketed inside refused
  | inside, .release _ next => Bracketed inside next
  | inside, .act .unprotect next => inside = false ∧ Bracketed true next
  | inside, .act .protect next => inside = true ∧ Bracketed false next
  | inside, .act .write next => inside = true ∧ Bracketed inside next
  | inside, .choose p => ∀ n, p n = .bail ∨ Bracketed inside (p n)

namespace Sections.Bracketed

variable {inside : Bool} {p q : Sections} {l : Lock}

/-- Two alternatives that are bracketed. -/
theorem either (hp : Bracketed inside p) (hq : Bracketed inside q) :
    Bracketed inside (.either p q) := by
  intro n
  dsimp only
  split
  · exact .inr hp
  · exact .inr hq

/-- A choice of bracketed programs. -/
theorem choose {p : Nat → Sections} (h : ∀ n, Bracketed inside (p n)) :
    Bracketed inside (.choose p) := fun n => .inr (h n)

/-- An allocation in the request heap, at which a thread may bail out. -/
theorem emallocs (h : Bracketed inside p) : Bracketed inside (emallocs p) := by
  intro n
  dsimp only
  split
  · exact .inl rfl
  · exact .inr h

/-- A lock that is acquired inside a section, or outside. -/
theorem wlock (hp : Bracketed inside p) (hq : Bracketed inside q) :
    Bracketed inside (wlock l p q) := ⟨hp, emallocs hq⟩

/-- `SMA_LOCK` begins a section when it has got the lock. -/
theorem smaLock (hp : Bracketed true p) (hq : Bracketed false q) :
    Bracketed false (smaLock p q) := wlock ⟨rfl, hp⟩ hq

/-- `SMA_UNLOCK` ends the section. -/
theorem smaUnlock (h : Bracketed false p) : Bracketed true (smaUnlock p) := ⟨rfl, h⟩

/-- Writes inside a section. -/
theorem writes (n : Nat) (h : Bracketed true p) : Bracketed true (writes n p) := by
  induction n with
  | zero => exact h
  | succ n ih => exact ⟨rfl, ih⟩

/-- The writes of the copy, between which it allocates in the request heap. -/
theorem copyWrites (n : Nat) (h : Bracketed true p) : Bracketed true (copyWrites n p) := by
  induction n with
  | zero => exact h
  | succ n ih => exact emallocs ⟨rfl, ih⟩

/-- An attempt to allocate in a segment ends its section in both cases. -/
theorem smaTry (hp : Bracketed false p) (hq : Bracketed false q) : Bracketed true (smaTry p q) :=
  either (choose fun n => writes n (smaUnlock hp)) (smaUnlock hq)

/-- The loop over the other segments has a section for each. -/
theorem smaMallocLoop (hp : Bracketed false p) (hq : Bracketed false q) (n : Nat) :
    Bracketed false (smaMallocLoop p q n) := by
  induction n with
  | zero => exact hq
  | succ n ih => exact either ih (smaLock (smaTry hp ih) hq)

/-- `immutable_cache_sma_malloc` is bracketed. -/
theorem smaMalloc (num : Nat) (hp : Bracketed false p) (hq : Bracketed false q) :
    Bracketed false (smaMalloc num p q) := smaLock (smaTry hp (smaMallocLoop hp hq num)) hq

/-- So is `immutable_cache_sma_free`. -/
theorem smaFree (h : Bracketed false p) : Bracketed false (smaFree p) :=
  emallocs (smaLock (choose fun n => writes n (smaUnlock h)) h)

/-- The copy is a section of its own. -/
theorem persist (num : Nat) (hp : Bracketed false p) (hq : Bracketed false q) :
    Bracketed false (persist num p q) := by
  have hcopy : Bracketed false (.act .unprotect (.choose fun n =>
      Sections.copyWrites n (Sections.emallocs (.act .protect p)))) :=
    ⟨rfl, choose fun n => copyWrites n (emallocs ⟨rfl, hp⟩)⟩
  exact emallocs (either hq (smaMalloc num hcopy hq))

/-- `immutable_cache_cache_wlock` goes on inside a section, or has ended it. -/
theorem cacheWlock (hash : Nat) (hp : Bracketed true p) (hq : Bracketed false q) :
    Bracketed false (cacheWlock hash p q) := smaLock (wlock hp (smaUnlock hq)) hq

/-- `immutable_cache_cache_wunlock` ends the section. -/
theorem cacheWunlock (hash : Nat) (h : Bracketed false p) :
    Bracketed true (cacheWunlock hash p) := smaUnlock h

/-- `immutable_cache_cache_store` is bracketed. -/
theorem cacheStore (num : Nat) : Bracketed false (cacheStore num) := by
  have hdone : Bracketed false .done := rfl
  refine persist num (choose fun hash => ?_) hdone
  exact cacheWlock hash (either (cacheWunlock hash (smaFree hdone))
    (writes 5 (cacheWunlock hash hdone))) (smaFree hdone)

end Sections.Bracketed

/-! ## The pages -/

variable {ι : Type} [DecidableEq ι] {num : Nat}

/-- The mode of the pages of the shared segments, and the threads that are inside a write section:
they have made the pages writable, and not write-protected them again. -/
structure Pages (ι : Type) where
  writable : Bool
  inside : ι → Bool

/-- `immutable_cache_sma_protect_memory`, by the thread `i`. A write leaves the mode as it is. -/
def Access.apply (i : ι) : Access → Pages ι → Pages ι
  | .unprotect, s => ⟨true, Function.update s.inside i true⟩
  | .protect, s => ⟨false, Function.update s.inside i false⟩
  | .write, s => s

/-- The threads `ι` of a process with its pages. -/
abbrev PageSystem (ι : Type) := System ι Lock Access (Pages ι)

/-- A step of a thread that stores. -/
def PageStep (num : Nat) : PageSystem ι → ι × Move → PageSystem ι → Prop :=
  Procs.Step Access.apply fun p => p = Sections.cacheStore num

namespace PageSystem

/-- No thread has begun, and the pages are read-only. -/
def start : PageSystem ι where
  shared := ⟨false, fun _ => false⟩
  procs := fun _ => ⟨.done, []⟩

/-- The thread holds the global lock. -/
def HoldsGlobal (s : PageSystem ι) (i : ι) : Prop := (.global, .exclusive) ∈ (s.procs i).held

/-- The thread write-protects the pages while another one is inside a section, and one of the two
sections is not under the global lock. -/
def Overlaps (s : PageSystem ι) (i : ι) (move : Move) : Prop :=
  move = .act ∧ (∃ next, (s.procs i).prog = .act .protect next) ∧
    ∃ j, j ≠ i ∧ s.shared.inside j = true ∧ ¬ (s.HoldsGlobal i ∧ s.HoldsGlobal j)

/-- The thread chooses to bail out inside a section. -/
def Escapes (s : PageSystem ι) (i : ι) (move : Move) : Prop :=
  ∃ p n, (s.procs i).prog = .choose p ∧ move = .choose n ∧ p n = .bail ∧ s.shared.inside i = true

section

variable {s : PageSystem ι} {i : ι} {move : Move}

omit [DecidableEq ι]

/-- Only a change of the mode overlaps. -/
theorem not_overlaps_of_ne (h : move ≠ .act) : ¬ s.Overlaps i move := fun hoverlaps => h hoverlaps.1

/-- Making the pages writable does not. -/
theorem not_overlaps_of_unprotect {next : Sections}
    (h : (s.procs i).prog = .act .unprotect next) : ¬ s.Overlaps i .act := by
  rintro ⟨-, ⟨next', hprog⟩, -⟩
  rw [h] at hprog
  cases hprog

/-- Outside of the sections a thread may bail out. -/
theorem not_escapes_of_outside (h : s.shared.inside i = false) : ¬ s.Escapes i move := by
  rintro ⟨p, n, -, -, -, hinside⟩
  rw [h] at hinside
  cases hinside

/-- A choice may be to go on. -/
theorem not_escapes_of_choose {p : Nat → Sections} {n : Nat} (h : (s.procs i).prog = .choose p)
    (hp : p n ≠ .bail) : ¬ s.Escapes i (.choose n) := by
  rintro ⟨p', n', hprog, hmove, hbail, -⟩
  cases hmove
  rw [h] at hprog
  cases hprog
  exact hp hbail

end

/-- What is left of each thread's program is in a section as the pages tell, and they are writable
while a thread is inside one. -/
structure Guarded (s : PageSystem ι) : Prop where
  excludes : Excludes s
  bracketed : ∀ i, Sections.Bracketed (s.shared.inside i) (s.procs i).prog
  writable : s.shared.writable = true ↔ ∃ i, s.shared.inside i = true

namespace Guarded

variable {s : PageSystem ι} {i : ι} {p : Sections} {held : List (Lock × Mode)} {b : Bool}

omit [DecidableEq ι] in
/-- In the beginning no thread is inside a section, and the pages are read-only. -/
theorem start : Guarded (start : PageSystem ι) where
  excludes _ _ _ _ _ _ h _ := absurd h List.not_mem_nil
  bracketed _ := rfl
  writable := ⟨fun h => absurd h Bool.false_ne_true, fun ⟨_, h⟩ => absurd h Bool.false_ne_true⟩

/-- A step that leaves the pages as they are. -/
theorem set (h : Guarded s) (hexcludes : Excludes (s.set i ⟨p, held⟩))
    (hp : Sections.Bracketed (s.shared.inside i) p) : Guarded (s.set i ⟨p, held⟩) where
  excludes := hexcludes
  bracketed := System.forall_set (P := fun j r => Sections.Bracketed (s.shared.inside j) r.prog) hp
    fun j _ => h.bracketed j
  writable := h.writable

/-- A thread enters a section, or leaves it. -/
theorem update (h : Guarded s) {pages : Pages ι} (hp : Sections.Bracketed b p)
    (hinside : pages.inside = Function.update s.shared.inside i b)
    (hmode : pages.writable = true ↔ ∃ j, pages.inside j = true) :
    Guarded ({ s with shared := pages }.set i ⟨p, (s.procs i).held⟩) where
  excludes := by
    have h' : Excludes { s with shared := pages } := h.excludes
    exact h'.set (List.Subset.refl _)
  bracketed j := by
    show Sections.Bracketed (pages.inside j) _
    rw [hinside]
    rcases eq_or_ne j i with rfl | hne
    · rw [Function.update_self, System.set_procs_self]
      exact hp
    · rw [Function.update_of_ne hne, System.set_procs_of_ne _ hne]
      exact h.bracketed j
  writable := hmode

omit [DecidableEq ι] in
/-- Two sections under the global lock do not overlap. -/
theorem not_both (h : Guarded s) {j : ι} (hne : i ≠ j) :
    ¬ (s.HoldsGlobal i ∧ s.HoldsGlobal j) := by
  rintro ⟨hi, hj⟩
  cases (h.excludes i j _ _ _ hne hi hj).1

/-- Entering a section, leaving it, and a write inside. -/
theorem act (h : Guarded s) {a : Access} {next : Sections} (hprog : (s.procs i).prog = .act a next)
    (hoverlaps : ¬ s.Overlaps i .act) :
    Guarded ({ s with shared := a.apply i s.shared }.set i ⟨next, (s.procs i).held⟩) := by
  have hi := h.bracketed i
  rw [hprog] at hi
  cases a with
  | write => exact h.set (h.excludes.set (List.Subset.refl _)) hi.2
  | unprotect => exact h.update hi.2 rfl (iff_of_true rfl ⟨i, Function.update_self _ _ _⟩)
  | protect =>
    -- no other thread is inside a section
    have hnone : ¬ ∃ j, Function.update s.shared.inside i false j = true := by
      rintro ⟨j, hj⟩
      rcases eq_or_ne j i with rfl | hne
      · rw [Function.update_self] at hj
        cases hj
      · rw [Function.update_of_ne hne] at hj
        exact hoverlaps ⟨rfl, ⟨next, hprog⟩, j, hne, hj, h.not_both hne.symm⟩
    exact h.update hi.2 rfl (iff_of_false Bool.false_ne_true hnone)

/-- A step that neither overlaps nor escapes keeps the pages guarded. -/
theorem step {s' : PageSystem ι} {e : ι × Move} (hstep : PageStep num s e s')
    (hoverlaps : ¬ s.Overlaps e.1 e.2) (hescapes : ¬ s.Escapes e.1 e.2) (h : Guarded s) :
    Guarded s' := by
  obtain ⟨i, move⟩ := e
  have hexcludes : Excludes s' := h.excludes.step hstep
  have hi := h.bracketed i
  cases hstep with
  | grant hprog =>
    rw [hprog] at hi
    exact h.set hexcludes hi.1
  | refuse hprog =>
    rw [hprog] at hi
    exact h.set hexcludes hi.2
  | release hprog =>
    rw [hprog] at hi
    exact h.set hexcludes hi
  | act hprog => exact h.act hprog hoverlaps
  | @choose _ p n hprog =>
    rw [hprog] at hi
    refine h.set hexcludes ?_
    rcases hi n with hbail | hn
    · rw [hbail]
      exact eq_false_of_ne_true fun hinside => hescapes ⟨p, n, hprog, rfl, hbail, hinside⟩
    · exact hn
  | next hprog hp =>
    have hinside : s.shared.inside i = false := by
      rcases hprog with hend | hend <;> rw [hend] at hi <;> exact hi
    refine h.set hexcludes ?_
    rw [hp, hinside]
    exact .cacheStore num

end Guarded

end PageSystem

open PageSystem

/-- The threads of a process store in any number, and their steps interleave in any way. If no thread
bails out inside a write section, and none write-protects the pages while another one is inside a
section and one of the two sections is not under the global lock, then a thread that comes to a
write into a segment finds it writable, and while no thread is inside a section it is read-only. -/
theorem run_writable {ι : Type} [DecidableEq ι] {num : Nat} {events : List (ι × Move)}
    {s : PageSystem ι}
    (hrun : Run (fun s e s' => PageStep num s e s' ∧ ¬ s.Overlaps e.1 e.2 ∧ ¬ s.Escapes e.1 e.2)
      .start events s) :
    (∀ i next, (s.procs i).prog = .act .write next → s.shared.writable = true) ∧
      ((∀ i, s.shared.inside i = false) → s.shared.writable = false) := by
  have h : Guarded s :=
    hrun.invariant (fun _ hs hstep => hs.step hstep.1 hstep.2.1 hstep.2.2) Guarded.start
  constructor
  · intro i next hprog
    have hi := h.bracketed i
    rw [hprog] at hi
    exact h.writable.2 ⟨i, hi.1⟩
  · intro hnone
    refine eq_false_of_ne_true fun hwritable => ?_
    obtain ⟨i, hi⟩ := h.writable.1 hwritable
    rw [hnone i] at hi
    cases hi

/-- One thread copies while another one allocates, and both come to a write. -/
theorem run_writable_small : ∃ (s : PageSystem Bool) (next next' : Sections),
    Run (fun s e s' => PageStep 1 s e s' ∧ ¬ s.Overlaps e.1 e.2 ∧ ¬ s.Escapes e.1 e.2) .start
      [(true, .next), (true, .choose 1), (false, .next), (true, .choose 1), (true, .grant),
        (true, .act), (false, .choose 1), (true, .choose 0), (true, .choose 0), (true, .act),
        (true, .release), (false, .choose 1), (false, .grant), (true, .act), (false, .act),
        (true, .choose 1), (false, .choose 0), (true, .choose 1), (false, .choose 1)] s ∧
      (s.procs false).prog = .act .write next ∧ (s.procs true).prog = .act .write next' ∧
      s.shared.writable = true := by
  obtain ⟨s, next, next', hrun, hprog, hprog'⟩ : ∃ (s : PageSystem Bool) (next next' : Sections),
      Run (fun s e s' => PageStep 1 s e s' ∧ ¬ s.Overlaps e.1 e.2 ∧ ¬ s.Escapes e.1 e.2) .start
        [(true, .next), (true, .choose 1), (false, .next), (true, .choose 1), (true, .grant),
          (true, .act), (false, .choose 1), (true, .choose 0), (true, .choose 0), (true, .act),
          (true, .release), (false, .choose 1), (false, .grant), (true, .act), (false, .act),
          (true, .choose 1), (false, .choose 0), (true, .choose 1), (false, .choose 1)] s ∧
      (s.procs false).prog = .act .write next ∧ (s.procs true).prog = .act .write next' := by
    refine ⟨_, _, _, .cons ⟨.next (.inl rfl) rfl, not_overlaps_of_ne nofun, not_escapes_of_outside rfl⟩
      (.cons ⟨.choose 1 rfl, not_overlaps_of_ne nofun, not_escapes_of_outside rfl⟩
      (.cons ⟨.next (.inl rfl) rfl, not_overlaps_of_ne nofun, not_escapes_of_outside rfl⟩
      (.cons ⟨.choose 1 rfl, not_overlaps_of_ne nofun, not_escapes_of_outside rfl⟩
      (.cons ⟨.grant rfl ?_, not_overlaps_of_ne nofun, not_escapes_of_outside rfl⟩
      (.cons ⟨.act rfl, not_overlaps_of_unprotect rfl, not_escapes_of_outside rfl⟩
      (.cons ⟨.choose 1 rfl, not_overlaps_of_ne nofun, not_escapes_of_outside rfl⟩
      (.cons ⟨.choose 0 rfl, not_overlaps_of_ne nofun, not_escapes_of_choose rfl nofun⟩
      (.cons ⟨.choose 0 rfl, not_overlaps_of_ne nofun, not_escapes_of_choose rfl nofun⟩
      (.cons ⟨.act rfl, ?_, nofun⟩
      (.cons ⟨.release rfl, not_overlaps_of_ne nofun, not_escapes_of_outside rfl⟩
      (.cons ⟨.choose 1 rfl, not_overlaps_of_ne nofun, not_escapes_of_outside rfl⟩
      (.cons ⟨.grant rfl ?_, not_overlaps_of_ne nofun, not_escapes_of_outside rfl⟩
      (.cons ⟨.act rfl, not_overlaps_of_unprotect rfl, not_escapes_of_outside rfl⟩
      (.cons ⟨.act rfl, not_overlaps_of_unprotect rfl, not_escapes_of_outside rfl⟩
      (.cons ⟨.choose 1 rfl, not_overlaps_of_ne nofun, not_escapes_of_choose rfl nofun⟩
      (.cons ⟨.choose 0 rfl, not_overlaps_of_ne nofun, not_escapes_of_choose rfl nofun⟩
      (.cons ⟨.choose 1 rfl, not_overlaps_of_ne nofun, not_escapes_of_choose rfl nofun⟩
      (.cons ⟨.choose 1 rfl, not_overlaps_of_ne nofun, not_escapes_of_choose rfl nofun⟩ .nil)))))))))))))))))), rfl, rfl⟩
    · intro j m h
      cases j <;> cases h
    · -- the thread that write-protects the pages is the only one inside a section
      rintro ⟨-, -, j, hne, hinside, -⟩
      cases j with
      | false => cases hinside
      | true => exact hne rfl
    · intro j m h
      cases j <;> cases h
  have hwritable := (run_writable hrun).1
  exact ⟨s, next, next', hrun, hprog, hprog', hwritable false next hprog⟩

/-- One thread copies, and has come to a write, when another one unlocks: it has not found room in a
segment. -/
theorem run_not_writable : ∃ (s : PageSystem Bool) (next : Sections),
    Run (PageStep 1) .start
      [(false, .next), (false, .choose 1), (false, .choose 1), (false, .grant), (false, .act),
        (false, .choose 0), (false, .choose 0), (false, .act), (false, .release), (false, .act),
        (false, .choose 1), (false, .choose 1),
        (true, .next), (true, .choose 1), (true, .choose 1), (true, .grant), (true, .act),
        (true, .choose 1), (true, .act)] s ∧
      (s.procs false).prog = .act .write next ∧ s.shared.writable = false := by
  refine ⟨_, _, .cons (.next (.inl rfl) rfl) (.cons (.choose 1 rfl) (.cons (.choose 1 rfl)
    (.cons (.grant rfl ?_) (.cons (.act rfl) (.cons (.choose 0 rfl) (.cons (.choose 0 rfl)
    (.cons (.act rfl) (.cons (.release rfl) (.cons (.act rfl) (.cons (.choose 1 rfl)
    (.cons (.choose 1 rfl) (.cons (.next (.inl rfl) rfl) (.cons (.choose 1 rfl)
    (.cons (.choose 1 rfl) (.cons (.grant rfl ?_) (.cons (.act rfl) (.cons (.choose 1 rfl)
    (.cons (.act rfl) .nil)))))))))))))))))), rfl, rfl⟩
  · intro j m h
    cases j <;> cases h
  · intro j m h
    cases j <;> cases h

end ImmutableCache
