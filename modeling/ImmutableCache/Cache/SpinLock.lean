import ImmutableCache.Cache.Deadlock

/-!
# Spin locks

A build with spin locks has no locks of the system: a lock is a word in the shared memory, which
`immutable_cache_lock_try` exchanges for 1 until it was 0. The processes that execute operations with
these locks do what the processes of `LockStep` do, whose locks are given, and fail in between
(`run_spins`). A lock is held by one process at most, be it for a lookup: a spin lock knows no modes.

Nothing keeps a process from releasing a lock that another one holds. That none does so is because
every operation releases only locks that it has acquired (`Call.paired`).
-/

namespace ImmutableCache

open Procs

/-! ## The lock -/

/-- `immutable_cache_lock_try`: `failed`, and the state of the lock after it. -/
def lockTry (state : Nat) : Nat × Nat := (state, 1)

/-- `immutable_cache_lock_release`: what it returns, and the state of the lock after it. -/
def lockRelease (state : Nat) : Bool × Nat := (state == 0, 0)

/-! ## Releasing what has been acquired -/

namespace Sections

/-- The program releases only locks that it has acquired, or that are in `held`. -/
def Paired (held : Set Lock) (p : Sections) : Prop := Prog.Paired held p

namespace Paired

variable {held held' : Set Lock} {p q : Sections} {l : Lock}

/-- More locks may be held. -/
theorem mono (h : Paired held p) (hle : held ⊆ held') : Paired held' p := Prog.Paired.mono h hle

/-- What does without any locks. -/
theorem of_empty (h : Paired ∅ p) : Paired held p := h.mono (Set.empty_subset _)

/-- A program that has ended releases nothing. -/
theorem done : Paired held .done := trivial

/-- A choice of paired programs. -/
theorem choose {p : Nat → Sections} (h : ∀ n, Paired held (p n)) : Paired held (.choose p) := h

/-- Two alternatives that are paired. -/
theorem either (hp : Paired held p) (hq : Paired held q) : Paired held (.either p q) := by
  intro n
  dsimp only
  split
  · exact hp
  · exact hq

/-- An allocation in the request heap before a paired program. -/
theorem emallocs (h : Paired held p) : Paired held (emallocs p) := either trivial h

/-- The release of a lock that is held. -/
theorem release (hl : l ∈ held) (h : Paired ∅ p) : Paired held (.release l p) := ⟨hl, h.of_empty⟩

/-- A lock that is acquired for reading is held after it. -/
theorem rlock (h : Paired {l} p) : Paired held (rlock l p q) :=
  h.mono (Set.singleton_subset_iff.2 (Set.mem_insert _ _))

/-- `SMA_LOCK` acquires the global lock. -/
theorem smaLock (h : Paired {.global} p) : Paired held (smaLock p q) :=
  h.mono (Set.singleton_subset_iff.2 (Set.mem_insert _ _))

/-- `SMA_UNLOCK` releases the global lock, which is held. -/
theorem smaUnlock (hl : .global ∈ held) (h : Paired ∅ p) : Paired held (smaUnlock p) := release hl h

/-- Writes before a paired program. -/
theorem writes (n : Nat) (h : Paired held p) : Paired held (writes n p) := by
  induction n with
  | zero => exact h
  | succ n ih => exact ih

/-- The writes of the copy, between which it allocates in the request heap. -/
theorem copyWrites (n : Nat) (h : Paired held p) : Paired held (copyWrites n p) := by
  induction n with
  | zero => exact h
  | succ n ih => exact emallocs ih

/-- An attempt to allocate in a segment releases the global lock in both cases. -/
theorem smaTry (hp : Paired ∅ p) (hq : Paired ∅ q) : Paired {.global} (smaTry p q) :=
  either (choose fun n => writes n (smaUnlock rfl hp)) (smaUnlock rfl hq)

/-- The loop over the other segments. -/
theorem smaMallocLoop (hp : Paired ∅ p) (hq : Paired ∅ q) (n : Nat) :
    Paired ∅ (smaMallocLoop p q n) := by
  induction n with
  | zero => exact hq
  | succ n ih => exact either ih (smaLock (smaTry hp ih))

/-- `immutable_cache_sma_malloc` releases only what it has acquired. -/
theorem smaMalloc (num : Nat) (hp : Paired ∅ p) (hq : Paired ∅ q) : Paired ∅ (smaMalloc num p q) :=
  smaLock (smaTry hp (smaMallocLoop hp hq num))

/-- So does `immutable_cache_sma_free`. -/
theorem smaFree (h : Paired ∅ p) : Paired ∅ (smaFree p) :=
  emallocs (smaLock (choose fun n => writes n (smaUnlock rfl h)))

/-- So does `immutable_cache_persist`. -/
theorem persist (num : Nat) (hp : Paired ∅ p) (hq : Paired ∅ q) : Paired ∅ (persist num p q) := by
  have hcopy : Paired ∅ (.act .unprotect (.choose fun n =>
      Sections.copyWrites n (Sections.emallocs (.act .protect p)))) :=
    choose fun n => copyWrites n (emallocs hp)
  exact emallocs (either hq (smaMalloc num hcopy hq))

/-- The two locks are different, so that one is held when the other has been released. -/
theorem cacheWunlock (hash : Nat) (h : Paired ∅ p) :
    Paired {fineGrainedLock hash, .global} (cacheWunlock hash p) := by
  refine ⟨Set.mem_insert _ _, smaUnlock ?_ h⟩
  simp [fineGrainedLock]

/-- `immutable_cache_cache_wlock` goes on with both locks, or has released the first one. -/
theorem cacheWlock (hash : Nat) (h : Paired {fineGrainedLock hash, .global} p) :
    Paired ∅ (cacheWlock hash p q) :=
  smaLock h

/-- `immutable_cache_cache_store` releases only what it has acquired. -/
theorem cacheStore (num : Nat) : Paired ∅ (cacheStore num) := by
  refine persist num (choose fun hash => cacheWlock hash (either ?_ (writes 5 ?_))) done
  · exact cacheWunlock hash (smaFree done)
  · exact cacheWunlock hash done

/-- A `finally` clause releases the lock once in both cases. -/
theorem tryFinally (h : Paired ∅ p) : Paired {l} (tryFinally l p) :=
  either (release rfl trivial) (release rfl h)

/-- `immutable_cache_cache_find` releases only what it has acquired. -/
theorem cacheFind (hp : Paired ∅ p) (hq : Paired ∅ q) : Paired ∅ (cacheFind p q) :=
  choose fun _ => rlock (either (release rfl hp) (release rfl hq))

/-- So does the loop of `immutable_cache_sma_info`. -/
theorem smaInfoSegments (n : Nat) : Paired ∅ (smaInfoSegments n) := by
  induction n with
  | zero => exact done
  | succ n ih => exact smaLock (emallocs (smaUnlock rfl ih))

end Paired

end Sections

/-- Every operation releases only locks that it has acquired. -/
theorem Call.paired {υ : Type} (num : Nat) (c : Call υ) : Sections.Paired ∅ (c.sections num) := by
  cases c with
  | store _ _ _ => exact .cacheStore num
  | fetch _ _ => exact .cacheFind (.emallocs .done) .done
  | find _ _ | exist _ => exact .cacheFind .done .done
  | stat _ => exact .choose fun _ => .rlock (.tryFinally .done)
  | info _ | iteratorFetch _ | iteratorTotals _ => exact .rlock (.tryFinally .done)
  | smaInfo _ => exact .emallocs (.either .done (.smaInfoSegments num))

/-! ## Any number of processes -/

section

variable {ι υ : Type} {num : Nat}

/-- The states of the locks, and what is left of the programs of the processes `ι`. -/
structure SpinSystem (ι : Type) where
  state : Lock → Nat
  procs : ι → Sections

/-- `immutable_cache_lock_create` for each lock. No process has begun an operation. -/
def SpinSystem.start : SpinSystem ι := ⟨fun _ => 0, fun _ => .done⟩

/-- The locks that a process holds, in any mode. -/
def locksOf (p : Proc Lock Access) : List Lock := p.held.map Prod.fst

variable [DecidableEq ι]

/-- A step of a process that executes operations in any order. For a lock of either mode it goes
through the loop of `immutable_cache_lock_get`: an attempt that fails is a step without a move. No
lock is refused. -/
inductive SpinStep (υ : Type) (num : Nat) : SpinSystem ι → ι × Option Move → SpinSystem ι → Prop
  | got {s : SpinSystem ι} {i : ι} {l : Lock} {m : Mode} {granted refused : Sections} :
      s.procs i = .acquire l m granted refused → (lockTry (s.state l)).1 = 0 →
      SpinStep υ num s (i, some .grant)
        ⟨Function.update s.state l (lockTry (s.state l)).2, Function.update s.procs i granted⟩
  | failed {s : SpinSystem ι} {i : ι} {l : Lock} {m : Mode} {granted refused : Sections} :
      s.procs i = .acquire l m granted refused → (lockTry (s.state l)).1 ≠ 0 →
      SpinStep υ num s (i, none)
        { s with state := Function.update s.state l (lockTry (s.state l)).2 }
  | release {s : SpinSystem ι} {i : ι} {l : Lock} {next : Sections} :
      s.procs i = .release l next →
      SpinStep υ num s (i, some .release)
        ⟨Function.update s.state l (lockRelease (s.state l)).2, Function.update s.procs i next⟩
  | act {s : SpinSystem ι} {i : ι} {a : Access} {next : Sections} :
      s.procs i = .act a next →
      SpinStep υ num s (i, some .act) { s with procs := Function.update s.procs i next }
  | choose {s : SpinSystem ι} {i : ι} {p : Nat → Sections} (n : Nat) :
      s.procs i = .choose p →
      SpinStep υ num s (i, some (.choose n)) { s with procs := Function.update s.procs i (p n) }
  | next {s : SpinSystem ι} {i : ι} {c : Call υ} :
      s.procs i = .done ∨ s.procs i = .bail →
      SpinStep υ num s (i, some .next)
        { s with procs := Function.update s.procs i (c.sections num) }

/-- The processes of both systems are at the same points of their programs, the state of a lock tells
whether it is held, and no two processes hold it. -/
structure SpinSystem.Implements (s : SpinSystem ι) (t : LockSystem ι) : Prop where
  prog : ∀ i, (t.procs i).prog = s.procs i
  paired : ∀ i, Sections.Paired {l | l ∈ locksOf (t.procs i)} (s.procs i)
  nodup : ∀ i, (locksOf (t.procs i)).Nodup
  alone : ∀ i j l, l ∈ locksOf (t.procs i) → l ∈ locksOf (t.procs j) → i = j
  state : ∀ l, s.state l = 1 ∧ (∃ i, l ∈ locksOf (t.procs i)) ∨
    s.state l = 0 ∧ ∀ i, l ∉ locksOf (t.procs i)

namespace SpinSystem.Implements

variable {s : SpinSystem ι} {t : LockSystem ι} {i : ι} {p : Sections} {l : Lock} {m : Mode}

omit [DecidableEq ι] in
/-- In the beginning all lock words are 0, and no lock is held. -/
theorem start : Implements SpinSystem.start (LockSystem.start : LockSystem ι) where
  prog _ := rfl
  paired _ := .done
  nodup _ := List.nodup_nil
  alone i j l hl := by cases hl
  state l := .inr ⟨rfl, fun i hl => by cases hl⟩

/-- A process goes on with the locks in `held`, which no other one has. -/
theorem set {held : List (Lock × Mode)} {state : Lock → Nat} (h : s.Implements t)
    (hp : Sections.Paired {l | l ∈ locksOf ⟨p, held⟩} p) (hnodup : (locksOf ⟨p, held⟩).Nodup)
    (halone : ∀ j l, j ≠ i → l ∈ locksOf ⟨p, held⟩ → l ∉ locksOf (t.procs j))
    (hstate : ∀ l,
      state l = 1 ∧ (l ∈ locksOf ⟨p, held⟩ ∨ ∃ j, j ≠ i ∧ l ∈ locksOf (t.procs j)) ∨
      state l = 0 ∧ l ∉ locksOf ⟨p, held⟩ ∧ ∀ j, j ≠ i → l ∉ locksOf (t.procs j)) :
    Implements ⟨state, Function.update s.procs i p⟩ (t.set i ⟨p, held⟩) where
  prog := by
    refine System.forall_set (P := fun (j : ι) q => q.prog = Function.update s.procs i p j) ?_
      fun j hj => ?_
    · rw [Function.update_self]
    · rw [Function.update_of_ne hj, h.prog j]
  paired := by
    refine System.forall_set (P := fun j q => Sections.Paired {l | l ∈ locksOf q}
      (Function.update s.procs i p j)) ?_ fun j hj => ?_
    · rw [Function.update_self]
      exact hp
    · rw [Function.update_of_ne hj]
      exact h.paired j
  nodup := System.forall_set (P := fun _ q => (locksOf q).Nodup) hnodup fun j _ => h.nodup j
  alone j k l hj hk := by
    by_cases hji : j = i
    · by_cases hki : k = i
      · rw [hji, hki]
      · rw [hji, System.set_procs_self] at hj
        rw [System.set_procs_of_ne t hki] at hk
        exact absurd hk (halone k l hki hj)
    · rw [System.set_procs_of_ne t hji] at hj
      by_cases hki : k = i
      · rw [hki, System.set_procs_self] at hk
        exact absurd hj (halone j l hji hk)
      · rw [System.set_procs_of_ne t hki] at hk
        exact h.alone j k l hj hk
  state l := by
    obtain ⟨h1, hl | ⟨j, hj, hl⟩⟩ | ⟨h0, hl, hothers⟩ := hstate l
    · refine .inl ⟨h1, i, ?_⟩
      rwa [System.set_procs_self]
    · refine .inl ⟨h1, j, ?_⟩
      rwa [System.set_procs_of_ne t hj]
    · exact .inr ⟨h0, System.forall_set (P := fun _ q => l ∉ locksOf q) hl hothers⟩

/-- The locks stay as they are. -/
theorem goOn (h : s.Implements t) (hp : Sections.Paired {l | l ∈ locksOf (t.procs i)} p) :
    Implements ⟨s.state, Function.update s.procs i p⟩ (t.set i ⟨p, (t.procs i).held⟩) := by
  refine h.set hp (h.nodup i) (fun j l hj hl hl' => hj (h.alone j i l hl' hl)) fun l => ?_
  obtain ⟨h1, j, hl⟩ | ⟨h0, hl⟩ := h.state l
  · by_cases hj : j = i
    · exact .inl ⟨h1, .inl (hj ▸ hl)⟩
    · exact .inl ⟨h1, .inr ⟨j, hj, hl⟩⟩
  · exact .inr ⟨h0, hl i, fun j _ => hl j⟩

/-- An attempt succeeds while no process holds the lock. -/
theorem got {granted refused : Sections} (h : s.Implements t)
    (hprog : s.procs i = .acquire l m granted refused) (hfree : (lockTry (s.state l)).1 = 0) :
    (t.Free l m) ∧ Implements
      ⟨Function.update s.state l (lockTry (s.state l)).2, Function.update s.procs i granted⟩
      (t.set i ⟨granted, (l, m) :: (t.procs i).held⟩) := by
  have hno (j : ι) : l ∉ locksOf (t.procs j) := by
    obtain ⟨h1, -⟩ | ⟨-, hno⟩ := h.state l
    · rw [lockTry, h1] at hfree
      cases hfree
    · exact hno j
  have hpaired := h.paired i
  rw [hprog] at hpaired
  refine ⟨fun j m' hj => absurd (List.mem_map_of_mem hj) (hno j), h.set ?_ ?_ ?_ fun k => ?_⟩
  · refine Sections.Paired.mono hpaired fun k hk => ?_
    exact List.mem_cons.2 hk
  · exact List.nodup_cons.2 ⟨hno i, h.nodup i⟩
  · intro j k hj hk hk'
    rcases List.mem_cons.1 hk with rfl | hk
    · exact hno j hk'
    · exact hj (h.alone j i k hk' hk)
  · by_cases hk : k = l
    · subst hk
      exact .inl ⟨Function.update_self _ _ _, .inl List.mem_cons_self⟩
    · rw [Function.update_of_ne hk]
      obtain ⟨h1, j, hj⟩ | ⟨h0, hnone⟩ := h.state k
      · by_cases hji : j = i
        · exact .inl ⟨h1, .inl (List.mem_cons_of_mem _ (hji ▸ hj))⟩
        · exact .inl ⟨h1, .inr ⟨j, hji, hj⟩⟩
      · refine .inr ⟨h0, fun hmem => ?_, fun j _ => hnone j⟩
        exact (List.mem_cons.1 hmem).elim hk (hnone i)

omit [DecidableEq ι] in
/-- An attempt that fails changes nothing. -/
theorem failed (h : s.Implements t) (hheld : (lockTry (s.state l)).1 ≠ 0) :
    Function.update s.state l (lockTry (s.state l)).2 = s.state := by
  obtain ⟨h1, -⟩ | ⟨h0, -⟩ := h.state l
  · rw [Function.update_eq_self_iff, lockTry, h1]
  · exact absurd h0 hheld

/-- A process releases a lock that it holds. -/
theorem release {next : Sections} (h : s.Implements t) (hprog : s.procs i = .release l next) :
    Implements ⟨Function.update s.state l (lockRelease (s.state l)).2, Function.update s.procs i next⟩
      (t.set i ⟨next, (t.procs i).held.eraseP (·.1 = l)⟩) := by
  have hpaired := h.paired i
  rw [hprog] at hpaired
  obtain ⟨hl, hnext⟩ := hpaired
  have hlocks : locksOf ⟨next, (t.procs i).held.eraseP (·.1 = l)⟩ = (locksOf (t.procs i)).erase l := by
    rw [locksOf, locksOf, List.erase_eq_eraseP, List.eraseP_map]
    refine congrArg (fun f => ((t.procs i).held.eraseP f).map Prod.fst) (funext fun x => ?_)
    exact decide_eq_decide.2 eq_comm
  have hmem {k : Lock} : k ∈ (locksOf (t.procs i)).erase l ↔ k ≠ l ∧ k ∈ locksOf (t.procs i) :=
    (h.nodup i).mem_erase_iff
  refine h.set ?_ ?_ ?_ fun k => ?_
  · rw [hlocks]
    refine Sections.Paired.mono hnext fun k hk => ?_
    exact hmem.2 ⟨hk.2, hk.1⟩
  · rw [hlocks]
    exact (h.nodup i).erase l
  · intro j k hj hk hk'
    rw [hlocks] at hk
    exact hj (h.alone j i k hk' (hmem.1 hk).2)
  · rw [hlocks, hmem]
    by_cases hk : k = l
    · subst hk
      refine .inr ⟨Function.update_self _ _ _, fun hno => hno.1 rfl, fun j hj hj' => ?_⟩
      exact hj (h.alone j i k hj' hl)
    · rw [Function.update_of_ne hk]
      obtain ⟨h1, j, hj⟩ | ⟨h0, hnone⟩ := h.state k
      · by_cases hji : j = i
        · exact .inl ⟨h1, .inl ⟨hk, hji ▸ hj⟩⟩
        · exact .inl ⟨h1, .inr ⟨j, hji, hj⟩⟩
      · exact .inr ⟨h0, fun hmem => hnone i hmem.2, fun j _ => hnone j⟩

/-- A step without a move changes nothing. -/
theorem spin {e : ι × Option Move} {s' : SpinSystem ι} (h : s.Implements t)
    (hstep : SpinStep υ num s e s') (he : e.2 = none) : s'.Implements t := by
  cases hstep with
  | failed hprog hheld =>
    rw [h.failed hheld]
    exact h
  | _ => cases he

/-- The move of a step is one of the process with the given locks. -/
theorem step {e : ι × Option Move} {s' : SpinSystem ι} {move : Move} (h : s.Implements t)
    (hstep : SpinStep υ num s e s') (he : e.2 = some move) :
    ∃ t', LockStep υ num t (e.1, move) t' ∧ s'.Implements t' := by
  have hpaired := h.paired e.1
  cases hstep with
  | got hprog hfree =>
    cases he
    obtain ⟨hgrant, h'⟩ := h.got hprog hfree
    exact ⟨_, .grant ((h.prog _).trans hprog) hgrant, h'⟩
  | failed hprog hheld => cases he
  | release hprog =>
    cases he
    exact ⟨_, .release ((h.prog _).trans hprog), h.release hprog⟩
  | act hprog =>
    cases he
    rw [hprog] at hpaired
    exact ⟨_, .act ((h.prog _).trans hprog), h.goOn hpaired⟩
  | choose n hprog =>
    cases he
    rw [hprog] at hpaired
    exact ⟨_, .choose n ((h.prog _).trans hprog), h.goOn (hpaired n)⟩
  | @next _ c hprog =>
    cases he
    rw [← h.prog] at hprog
    exact ⟨_, .next hprog ⟨c, rfl⟩, h.goOn (c.paired num).of_empty⟩

end SpinSystem.Implements

/-- In any interleaving of operations with spin locks, the processes are where they are after the same
moves with locks that are given, in which the attempts that fail are left out. The state of a lock is 1
or 0, as some process holds the lock or none does, and no two processes hold it. -/
theorem run_spins {events : List (ι × Option Move)} {s : SpinSystem ι}
    (hrun : Run (SpinStep υ num) .start events s) :
    ∃ t : LockSystem ι,
      Run (LockStep υ num) .start (events.filterMap fun e => e.2.map (Prod.mk e.1)) t ∧
      (∀ i, (t.procs i).prog = s.procs i) ∧
      (∀ l, s.state l = 1 ∧ (∃ i, l ∈ locksOf (t.procs i)) ∨
        s.state l = 0 ∧ ∀ i, l ∉ locksOf (t.procs i)) ∧
      ∀ i j l, l ∈ locksOf (t.procs i) → l ∈ locksOf (t.procs j) → i = j := by
  have hstep {s s' : SpinSystem ι} {e : ι × Option Move} {t : LockSystem ι} {k : ι × Move}
      (h : s.Implements t) (hstep : SpinStep υ num s e s') (hk : e.2.map (Prod.mk e.1) = some k) :
      ∃ t', LockStep υ num t k t' ∧ s'.Implements t' := by
    obtain ⟨move, hmove, rfl⟩ := Option.map_eq_some_iff.1 hk
    exact h.step hstep hmove
  obtain ⟨t, ht, h⟩ := hrun.simulate_filterMap (R := SpinSystem.Implements)
    (fun h hstep hno => h.spin hstep (Option.map_eq_none_iff.1 hno)) hstep .start
  exact ⟨t, ht, h.prog, h.state, h.alone⟩

end

/-- A lookup has its lock, and one of another process, for the same key, fails to get it. -/
theorem run_spins_find : ∃ s : SpinSystem Bool,
    Run (SpinStep Bytes 1) .start [(false, some .next), (false, some (.choose 3)),
      (false, some .grant), (true, some .next), (true, some (.choose 3)), (true, none)] s ∧
    s.state (.fine 3) = 1 ∧ ∃ t : LockSystem Bool,
      Run (LockStep Bytes 1) .start [(false, .next), (false, .choose 3), (false, .grant),
        (true, .next), (true, .choose 3)] t ∧
      (∀ i, (t.procs i).prog = s.procs i) ∧
      (∀ l, s.state l = 1 ∧ (∃ i, l ∈ locksOf (t.procs i)) ∨
        s.state l = 0 ∧ ∀ i, l ∉ locksOf (t.procs i)) ∧
      ∀ i j l, l ∈ locksOf (t.procs i) → l ∈ locksOf (t.procs j) → i = j := by
  obtain ⟨s, hrun, hstate⟩ : ∃ s : SpinSystem Bool,
      Run (SpinStep Bytes 1) .start [(false, some .next), (false, some (.choose 3)),
        (false, some .grant), (true, some .next), (true, some (.choose 3)), (true, none)] s ∧
      s.state (.fine 3) = 1 := by
    refine ⟨_, .cons (.next (c := .find 0 0) (.inl rfl)) (.cons (.choose 3 rfl) (.cons (.got rfl rfl)
      (.cons (.next (c := .find 0 0) (.inl rfl)) (.cons (.choose 3 rfl) (.cons (.failed rfl ?_) .nil))))),
      rfl⟩
    exact Nat.one_ne_zero
  exact ⟨s, hrun, hstate, run_spins hrun⟩

end ImmutableCache
