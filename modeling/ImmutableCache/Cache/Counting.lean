import ImmutableCache.Cache.Counters

/-!
# Counting lookups

Any number of processes look up, and their steps interleave. That a plain `++` is made under an
exclusive lock is enough for an entry, whose lookups all hold one lock, but not for the header, which
lookups under other locks count in at the same time (`run_counted`).
-/

namespace ImmutableCache

open Procs

variable {ι υ : Type} [DecidableEq ι]

/-! ## Any number of processes -/

/-- The processes `ι` with what they share. -/
abbrev LookupSystem (ι υ : Type) := System ι Lock Tick (Lookups ι υ)

/-- The fine-grained lock of the entry at `p`, by the hash in its key string. -/
def World.lockOf (w : World υ) (p : Nat) : Lock :=
  match w.shm (entryAt w.shm p).key with
  | some (.str s) => fineGrainedLock s.h
  | _ => .global

/-- A step of a process that executes `immutable_cache_cache_find`, or the lookup of
`immutable_cache_cache_fetch`, for any keys, in a cache whose table is that of `w₀`. It gets the
locks that it asks for. -/
def LookupStep (recursive : Bool) (pool : Pool) (z : Zend) (w₀ : World υ) (s : LookupSystem ι υ)
    (e : ι × Move) (s' : LookupSystem ι υ) : Prop :=
  e.2 ≠ .refuse ∧ Procs.Step Tick.apply (fun p => ∃ (r : Request υ) (key t : Nat),
    r.Legal pool z w₀ ∧ (r.call = .find key t ∨ r.call = .fetch key t) ∧
      p = Lookup.cacheFind recursive w₀ r.sp key t) s e s'

namespace LookupSystem

/-- No process has begun a lookup. -/
def start (w₀ : World υ) : LookupSystem ι υ where
  shared := ⟨w₀, fun _ => none, []⟩
  procs := fun _ => ⟨.done, []⟩

/-- The process loads a counter of the header that another one has loaded and not stored yet. -/
def Races (s : LookupSystem ι υ) (i : ι) (move : Move) : Prop :=
  move = .act ∧ ∃ c next, (s.procs i).prog = .act (.load c) next ∧ (∀ p, c ≠ .entry p) ∧
    ∃ j n, j ≠ i ∧ s.shared.loaded j = some (c, n)

/-- Every lookup has finished. -/
def Finished (s : LookupSystem ι υ) : Prop := ∀ i, (s.procs i).prog = .done

variable [Fintype ι]

/-- What is left of the lookups is sound, a value that has been loaded is still that of its counter,
and the counters will be right when the lookups have made the rest of their steps. -/
structure Counting (recursive : Bool) (w₀ : World υ) (E : Nat → Prop) (s : LookupSystem ι υ) :
    Prop where
  excludes : Excludes s
  sound : ∀ i, Lookup.Sound recursive w₀.lockOf E ((s.shared.loaded i).map Prod.fst)
    (s.procs i).held (s.procs i).prog
  value : ∀ i c n, s.shared.loaded i = some (c, n) → n = s.shared.world.counter c
  alone : ∀ i j c n m, s.shared.loaded i = some (c, n) → s.shared.loaded j = some (c, m) → i = j
  count : ∀ c, s.shared.world.counter c + ∑ i, Lookup.amount (Tick.adds c) (s.procs i).prog =
    w₀.counter c + (s.shared.results.map c.of).sum +
      ∑ i, Lookup.amount (Tick.counts c) (s.procs i).prog
  results : ∀ p, some p ∈ s.shared.results → E p

namespace Counting

variable {recursive : Bool} {pool : Pool} {z : Zend} {w₀ : World υ} {E : Nat → Prop}
  {s s' : LookupSystem ι υ} {i j : ι} {a : Tick} {next : Lookup} {c : Counter} {n : Nat}

omit [DecidableEq ι] in
/-- In the beginning no lookup has begun, and the counters are those of `w₀`. -/
theorem start : Counting recursive w₀ E (start w₀ : LookupSystem ι υ) where
  excludes _ _ _ _ _ _ h _ := absurd h List.not_mem_nil
  sound _ := ⟨rfl, rfl⟩
  value _ _ _ h := by cases h
  alone _ _ _ _ _ h _ := by cases h
  count _ := rfl
  results _ h := absurd h List.not_mem_nil

/-- A step that does not change what is shared. -/
theorem set (h : Counting recursive w₀ E s) {p : Proc Lock Tick} (hexcludes : Excludes (s.set i p))
    (hsound : Lookup.Sound recursive w₀.lockOf E ((s.shared.loaded i).map Prod.fst) p.held p.prog)
    (hamount : ∀ c, Lookup.amount (Tick.adds c) p.prog +
        Lookup.amount (Tick.counts c) (s.procs i).prog =
      Lookup.amount (Tick.counts c) p.prog + Lookup.amount (Tick.adds c) (s.procs i).prog) :
    Counting recursive w₀ E (s.set i p) where
  excludes := hexcludes
  sound := System.forall_set (P := fun j p => Lookup.Sound recursive w₀.lockOf E
    ((s.shared.loaded j).map Prod.fst) p.held p.prog) hsound fun j _ => h.sound j
  value := h.value
  alone := h.alone
  count c := by
    have hadds := System.sum_set (fun p => Lookup.amount (Tick.adds c) p.prog) s i p
    have hcounts := System.sum_set (fun p => Lookup.amount (Tick.counts c) p.prog) s i p
    have hcount := h.count c
    have hc := hamount c
    show s.shared.world.counter c + _ = w₀.counter c + (s.shared.results.map c.of).sum + _
    omega
  results := h.results

/-! ### The steps of a lookup -/

omit [Fintype ι] in
/-- A step of a lookup loads nothing for another process. -/
theorem loaded_of_ne (hne : j ≠ i) : (a.apply i s.shared).loaded j = s.shared.loaded j := by
  cases a with
  | load c => exact Function.update_of_ne hne _ _
  | store c => exact Function.update_of_ne hne _ _
  | inc _ | touch _ _ | returned _ => rfl

omit [DecidableEq ι] in
/-- The program of the process that makes the step. -/
theorem sound_act (h : Counting recursive w₀ E s) (hprog : (s.procs i).prog = .act a next) :
    Lookup.Sound recursive w₀.lockOf E ((s.shared.loaded i).map Prod.fst) (s.procs i).held
      (.act a next) := by
  rw [← hprog]
  exact h.sound i

omit [DecidableEq ι] in
/-- A counter that another process has loaded does not change. -/
theorem adds_eq_zero (h : Counting recursive w₀ E s) (hprog : (s.procs i).prog = .act a next)
    (hne : j ≠ i) (hj : s.shared.loaded j = some (c, n)) : a.adds c = 0 := by
  have hi := h.sound_act hprog
  have hguards := h.sound j
  rw [hj] at hguards
  have hrecursive := hguards.guards.1
  cases a with
  | inc c' =>
    rw [hi.2.1] at hrecursive
    cases hrecursive
  | store c' =>
    obtain ⟨⟨c'', m⟩, hm, rfl⟩ := Option.map_eq_some_iff.1 hi.1
    refine if_neg fun hc => ?_
    subst hc
    exact hne (h.alone j i _ _ _ hj hm)
  | load _ | touch _ _ | returned _ => rfl

/-- A step changes a counter by what it adds, also when it stores a value loaded before. -/
theorem counter_apply (h : Counting recursive w₀ E s) (hprog : (s.procs i).prog = .act a next)
    (c : Counter) :
    (a.apply i s.shared).world.counter c = s.shared.world.counter c + a.adds c := by
  have hi := h.sound_act hprog
  cases a with
  | inc c' =>
    simp only [Tick.apply, World.counter_setCounter, Tick.adds]
    split
    next hc => rw [hc]
    next hc => rfl
  | store c' =>
    obtain ⟨⟨c'', m⟩, hm, rfl⟩ := Option.map_eq_some_iff.1 hi.1
    simp only [Tick.apply, World.counter_setCounter, Tick.adds, hm, Option.elim_some]
    split
    next hc => rw [hc, h.value i _ _ hm]
    next hc => rfl
  | touch p t => exact World.counter_touch _ _ _ _
  | load _ | returned _ => rfl

omit [Fintype ι] in
/-- A step that returns adds its result to those that are counted. -/
theorem sum_results (c : Counter) :
    ((a.apply i s.shared).results.map c.of).sum =
      (s.shared.results.map c.of).sum + a.counts c := by
  cases a with
  | returned entry =>
    show c.of entry + _ = _
    rw [Nat.add_comm]
    rfl
  | inc _ | load _ | store _ | touch _ _ => rfl

omit [DecidableEq ι] in
/-- Two processes have not loaded the same counter. -/
theorem not_loaded (h : Counting recursive w₀ E s) (hraces : recursive = true → ¬ s.Races i .act)
    (hprog : (s.procs i).prog = .act (.load c) next) (hne : j ≠ i) :
    s.shared.loaded j ≠ some (c, n) := by
  intro hj
  have hi := h.sound_act hprog
  have hguards := h.sound j
  rw [hj] at hguards
  refine hraces hi.2.1 ⟨rfl, c, next, hprog, fun p hp => ?_, j, n, hne, hj⟩
  -- both hold the lock of the entry
  have hlocks := h.excludes i j _ _ _ hne.symm (hi.2.2.1 p hp) (hguards.guards.2 p hp)
  cases hlocks.1

/-- The next step of a lookup keeps the account if it does not race with another one. -/
theorem act (h : Counting recursive w₀ E s) (hraces : recursive = true → ¬ s.Races i .act)
    (hprog : (s.procs i).prog = .act a next) :
    Counting recursive w₀ E
      ({ s with shared := a.apply i s.shared }.set i ⟨next, (s.procs i).held⟩) := by
  have hi := h.sound_act hprog
  have hexcludes : Excludes { s with shared := a.apply i s.shared } := h.excludes
  -- what the process itself has loaded after the step
  have hself : Lookup.Sound recursive w₀.lockOf E
      (((a.apply i s.shared).loaded i).map Prod.fst) (s.procs i).held next ∧
      ∀ c n, (a.apply i s.shared).loaded i = some (c, n) →
        a = .load c ∧ n = s.shared.world.counter c := by
    have hnone (hloaded : (s.shared.loaded i).map Prod.fst = none) (c : Counter) (n : Nat) :
        s.shared.loaded i ≠ some (c, n) := by
      intro hi
      rw [hi] at hloaded
      cases hloaded
    cases a with
    | inc c' => exact ⟨hi.1 ▸ hi.2.2, fun c n hc => absurd hc (hnone hi.1 c n)⟩
    | touch p t => exact ⟨hi.1 ▸ hi.2, fun c n hc => absurd hc (hnone hi.1 c n)⟩
    | returned entry => exact ⟨hi.1 ▸ hi.2.2, fun c n hc => absurd hc (hnone hi.1 c n)⟩
    | load c' =>
      simp only [Tick.apply, Function.update_self]
      refine ⟨hi.2.2.2, fun c n hc => ?_⟩
      cases hc
      exact ⟨rfl, rfl⟩
    | store c' =>
      simp only [Tick.apply, Function.update_self]
      refine ⟨hi.2.2.2, fun c n hc => ?_⟩
      cases hc
  refine { excludes := hexcludes.set (List.Subset.refl _), sound := ?_, value := ?_, alone := ?_
           count := ?_, results := ?_ }
  · refine System.forall_set (P := fun j p => Lookup.Sound recursive w₀.lockOf E
      (((a.apply i s.shared).loaded j).map Prod.fst) p.held p.prog) hself.1 fun j hne => ?_
    rw [loaded_of_ne hne]
    exact h.sound j
  · intro j c n hj
    show n = (a.apply i s.shared).world.counter c
    rw [h.counter_apply hprog]
    rcases eq_or_ne j i with rfl | hne
    · obtain ⟨rfl, rfl⟩ := hself.2 c n hj
      rfl
    · have hj : s.shared.loaded j = some (c, n) := (loaded_of_ne hne).symm.trans hj
      rw [h.adds_eq_zero hprog hne hj]
      exact h.value j c n hj
  · have hother {j k : ι} {c : Counter} {n m : Nat} (hne : k ≠ j)
        (hj : (a.apply i s.shared).loaded j = some (c, n))
        (hk : (a.apply i s.shared).loaded k = some (c, m)) (hki : k ≠ i) : False := by
      have hk' : s.shared.loaded k = some (c, m) := (loaded_of_ne hki).symm.trans hk
      rcases eq_or_ne j i with rfl | hji
      · have hload := (hself.2 c n hj).1
        rw [hload] at hprog
        exact h.not_loaded hraces hprog hki hk'
      · exact hne (h.alone k j c m n hk' ((loaded_of_ne hji).symm.trans hj))
    intro j k c n m hj hk
    by_contra hne
    rcases eq_or_ne k i with rfl | hki
    · exact hother hne hk hj hne
    · exact hother (Ne.symm hne) hj hk hki
  · intro c
    have hadds := System.sum_set (fun p => Lookup.amount (Tick.adds c) p.prog)
      { s with shared := a.apply i s.shared } i ⟨next, (s.procs i).held⟩
    have hcounts := System.sum_set (fun p => Lookup.amount (Tick.counts c) p.prog)
      { s with shared := a.apply i s.shared } i ⟨next, (s.procs i).held⟩
    have hcount := h.count c
    simp only [hprog, Lookup.amount] at hadds hcounts
    show (a.apply i s.shared).world.counter c + _ =
      w₀.counter c + ((a.apply i s.shared).results.map c.of).sum + _
    rw [h.counter_apply hprog, sum_results]
    omega
  · intro p hp
    cases a with
    | returned entry =>
      rcases List.mem_cons.1 hp with hp | hp
      · exact hi.2.1 p hp.symm
      · exact h.results p hp
    | inc _ | load _ | store _ | touch _ _ => exact h.results p hp

/-- Every step of the system keeps the account as long as no two lookups race. -/
theorem step {e : ι × Move} (hlegal : ∀ (r : Request υ) (key t : Nat), r.Legal pool z w₀ →
      (r.call = .find key t ∨ r.call = .fetch key t) →
        Lookup.Sound recursive w₀.lockOf E none [] (Lookup.cacheFind recursive w₀ r.sp key t))
    (hprotect : w₀.env.protectMemory = false) (hstep : LookupStep recursive pool z w₀ s e s')
    (hraces : recursive = true → ¬ s.Races e.1 e.2) (h : Counting recursive w₀ E s) :
    Counting recursive w₀ E s' := by
  obtain ⟨i, move⟩ := e
  obtain ⟨hmove, hstep⟩ := hstep
  have hexcludes : Excludes s' := h.excludes.step hstep
  have hi := h.sound i
  cases hstep with
  | refuse hprog => exact absurd rfl hmove
  | act hprog => exact h.act hraces hprog
  | grant hprog =>
    rw [hprog] at hi
    refine h.set hexcludes (hi.1 ▸ hi.2) fun c => ?_
    rw [hprog]
    exact Nat.add_comm _ _
  | release hprog =>
    rw [hprog] at hi
    refine h.set hexcludes (hi.1 ▸ hi.2) fun c => ?_
    rw [hprog]
    exact Nat.add_comm _ _
  | choose n hprog =>
    rw [hprog] at hi
    exact hi.elim
  | next hprog hp =>
    rcases hprog with hprog | hprog
    · rw [hprog] at hi
      obtain ⟨r, key, t, hr, hcall, rfl⟩ := hp
      refine h.set hexcludes ?_ fun c => ?_
      · rw [hi.1, hi.2]
        exact hlegal r key t hr hcall
      · rw [Lookup.amount_cacheFind hprotect, hprog]
        rfl
    · rw [hprog] at hi
      exact hi.elim

end Counting

end LookupSystem

/-! ## The totals -/

/-- The hits among the results. -/
theorem sum_nhits (rs : List (Option Nat)) :
    (rs.map Counter.nhits.of).sum = rs.countP (·.isSome) := by
  induction rs with
  | nil => rfl
  | cons r rs ih =>
    rw [List.map_cons, List.sum_cons, ih, List.countP_cons]
    cases r <;> simp [Counter.of, Nat.add_comm]

/-- The misses among the results. -/
theorem sum_nmisses (rs : List (Option Nat)) :
    (rs.map Counter.nmisses.of).sum = rs.countP (·.isNone) := by
  induction rs with
  | nil => rfl
  | cons r rs ih =>
    rw [List.map_cons, List.sum_cons, ih, List.countP_cons]
    cases r <;> simp [Counter.of, Nat.add_comm]

/-- The hits are those of the entries. -/
theorem sum_entries {ps : List Nat} (hps : ps.Nodup) {rs : List (Option Nat)}
    (h : ∀ p, some p ∈ rs → p ∈ ps) :
    (ps.map fun p => (rs.map (Counter.entry p).of).sum).sum = (rs.map Counter.nhits.of).sum := by
  induction rs with
  | nil => simp
  | cons r rs ih =>
    have hrs := ih fun p hp => h p (List.mem_cons_of_mem _ hp)
    cases r with
    | none => simpa [Counter.of] using hrs
    | some p =>
      have hsucc := sum_map_succ (f := fun p => (rs.map (Counter.entry p).of).sum)
        (g := fun q => ((some p :: rs).map (Counter.entry q).of).sum) hps (h p (by simp))
        (by simp [Counter.of, Nat.add_comm]) fun q _ hne => by simp [Counter.of, hne]
      rw [hsucc, hrs]
      simp [Counter.of, Nat.add_comm]

/-- What a lookup finds is an entry of the table, and the lock of its key is that of the entry. -/
theorem World.Inv.lockOf {υ : Type} {pool : Pool} {z : Zend} {w : World υ} {es : List (Nat × Bytes)}
    {live : Nat → Option Nat} {r : Request υ} {key t p : Nat} (h : w.Inv pool z es live)
    (hr : r.Legal pool z w) (hcall : r.call = .find key t ∨ r.call = .fetch key t)
    (hp : rlockedFindNostat r.sp key w = some p) :
    p ∈ w.entries.map Prod.fst ∧ w.lockOf p = fineGrainedLock (keyHash r.sp w.shm key) := by
  obtain ⟨hon, hcase⟩ := hr
  have hkey : ∃ k, readStr r.sp.zend (w.view r.sp) key = some k := by
    rcases hcall with hcall | hcall <;>
    · rw [hcall] at hcase
      obtain ⟨k, hk⟩ := hcase
      rw [Request.key, hcall] at hk
      exact ⟨k, hk⟩
  obtain ⟨k, hk⟩ := hkey
  have hz := hon.zend
  subst hz
  rw [h.view_eq] at hk
  have hbound : bound es k = some p := (h.findEntry hon hk).symm.trans hp
  have hmem := (bound_eq_some h.table.keys).1 hbound
  refine ⟨List.mem_map_of_mem ((h.mem_entries _).2 hmem), ?_⟩
  obtain ⟨e, he, -, o, ho, -, hh, hval⟩ := h.table.entry _ hmem
  rw [World.lockOf, entryAt_eq he, ho, (keyHash_view hk).1]
  dsimp only
  rw [hh, hval]

/-! ## Lookups that find nothing -/

section

variable {υ : Type} {pool : Pool} {z : Zend} {w₀ : World υ} {r r' : Request υ} {key key' t t' : Nat}
  {recursive : Bool}

/-- The steps of a lookup that finds nothing. -/
theorem cacheFind_miss (hprotect : w₀.env.protectMemory = false)
    (hmiss : rlockedFindNostat r.sp key w₀ = none) :
    Lookup.cacheFind recursive w₀ r.sp key t =
      .acquire (fineGrainedLock (keyHash r.sp w₀.shm key)) (if recursive then .exclusive else .shared)
        (Lookup.acts (atomicIncRlocked recursive .nmisses)
          (.release (fineGrainedLock (keyHash r.sp w₀.shm key)) (.act (.returned none) .done)))
        (.act (.returned none) .done) := by
  rw [Lookup.cacheFind, hmiss, hprotect]
  rfl

/-- The steps of a lookup that finds an entry, with recursive mutexes. -/
theorem cacheFind_hit {p : Nat} (hprotect : w₀.env.protectMemory = false)
    (hfind : rlockedFindNostat r.sp key w₀ = some p) :
    Lookup.cacheFind true w₀ r.sp key t =
      .acquire (fineGrainedLock (keyHash r.sp w₀.shm key)) .exclusive
        (.act (.load .nhits) (.act (.store .nhits) (.act (.load (.entry p)) (.act (.store (.entry p))
          (.act (.touch p t) (.release (fineGrainedLock (keyHash r.sp w₀.shm key))
            (.act (.returned (some p)) .done)))))))
        (.act (.returned none) .done) := by
  rw [Lookup.cacheFind, hfind, hprotect]
  rfl

/-- Only the load of a counter of the header races, when another process has loaded that counter. -/
theorem not_races_act {s : LookupSystem Bool υ} {i : Bool} {a : Tick} {next : Lookup}
    (hprog : (s.procs i).prog = .act a next)
    (h : ∀ c, a = .load c → (∃ p, c = .entry p) ∨ ∀ n, s.shared.loaded (!i) ≠ some (c, n)) :
    ¬ s.Races i .act := by
  rintro ⟨-, c, next', hload, hheader, j, n, hne, hloaded⟩
  rw [hprog] at hload
  obtain ⟨p, rfl⟩ | hc := h c (Prog.act.inj hload).1
  · exact hheader p rfl
  · obtain rfl : j = !i := Bool.eq_not_of_ne hne
    exact hc n hloaded

/-- With recursive mutexes, a process that finds an entry and one that finds none, under different
locks, count in between one another's steps and do not race. -/
theorem counted_both {p : Nat} (hprotect : w₀.env.protectMemory = false) (hr : r.Legal pool z w₀)
    (hr' : r'.Legal pool z w₀) (hcall : r.call = .find key t) (hcall' : r'.call = .find key' t')
    (hfind : rlockedFindNostat r.sp key w₀ = some p)
    (hmiss : rlockedFindNostat r'.sp key' w₀ = none)
    (hlocks : fineGrainedLock (keyHash r.sp w₀.shm key) ≠
      fineGrainedLock (keyHash r'.sp w₀.shm key')) :
    ∃ (events : List (Bool × Move)) (s : LookupSystem Bool υ),
      Run (fun s e s' => LookupStep true pool z w₀ s e s' ∧
        (true = true → ¬ s.Races e.1 e.2)) (.start w₀) events s ∧ s.Finished ∧
        s.shared.results = [some p, none] := by
  have hother {s : LookupSystem Bool υ} {i : Bool} {move : Move} (hmove : move ≠ .act) :
      true = true → ¬ s.Races i move := fun _ hraces => hmove hraces.1
  have hact {s : LookupSystem Bool υ} {i : Bool} {a : Tick} {next : Lookup}
      (hprog : (s.procs i).prog = .act a next) (ha : ∀ c, a ≠ .load c) :
      true = true → ¬ s.Races i .act := fun _ => not_races_act hprog fun c h => absurd h (ha c)
  refine ⟨[(false, .next), (true, .next), (false, .grant), (true, .grant), (false, .act),
    (true, .act), (false, .act), (true, .act), (true, .release), (false, .act), (false, .act),
    (true, .act), (false, .act), (false, .release), (false, .act)], _,
    .cons ⟨⟨by decide, .next (.inl rfl) ⟨r, key, t, hr, .inl hcall,
      (cacheFind_hit hprotect hfind).symm⟩⟩, hother (by decide)⟩
    (.cons ⟨⟨by decide, .next (.inl rfl) ⟨r', key', t', hr', .inl hcall',
      (cacheFind_miss hprotect hmiss).symm⟩⟩, hother (by decide)⟩
    (.cons ⟨⟨by decide, .grant rfl ?_⟩, hother (by decide)⟩
    (.cons ⟨⟨by decide, .grant rfl ?_⟩, hother (by decide)⟩
    (.cons ⟨⟨by decide, .act rfl⟩, fun _ => not_races_act rfl ?_⟩
    (.cons ⟨⟨by decide, .act rfl⟩, fun _ => not_races_act rfl ?_⟩
    (.cons ⟨⟨by decide, .act rfl⟩, hact rfl nofun⟩ (.cons ⟨⟨by decide, .act rfl⟩, hact rfl nofun⟩
    (.cons ⟨⟨by decide, .release rfl⟩, hother (by decide)⟩
    (.cons ⟨⟨by decide, .act rfl⟩, fun _ => not_races_act rfl ?_⟩
    (.cons ⟨⟨by decide, .act rfl⟩, hact rfl nofun⟩ (.cons ⟨⟨by decide, .act rfl⟩, hact rfl nofun⟩
    (.cons ⟨⟨by decide, .act rfl⟩, hact rfl nofun⟩
    (.cons ⟨⟨by decide, .release rfl⟩, hother (by decide)⟩
    (.cons ⟨⟨by decide, .act rfl⟩, hact rfl nofun⟩ .nil)))))))))))))), ?_, rfl⟩
  · intro j m h
    cases j <;> cases h
  · intro j m h
    cases j with
    | false =>
      obtain ⟨hl, -⟩ := Prod.mk.inj (List.mem_singleton.1 h)
      exact absurd hl.symm hlocks
    | true => cases h
  · -- the other process has not loaded yet
    exact fun _ _ => .inr nofun
  · -- the other process has loaded the counter of the hits
    rintro c hc
    cases hc
    exact .inr nofun
  · exact fun c hc => .inl ⟨p, (Tick.load.inj hc).symm⟩
  · intro i
    cases i <;> rfl

/-- With recursive mutexes, two processes that miss under different locks may count one miss. -/
theorem lost_miss (hprotect : w₀.env.protectMemory = false) (hr : r.Legal pool z w₀)
    (hr' : r'.Legal pool z w₀) (hcall : r.call = .find key t) (hcall' : r'.call = .find key' t')
    (hmiss : rlockedFindNostat r.sp key w₀ = none)
    (hmiss' : rlockedFindNostat r'.sp key' w₀ = none)
    (hlocks : fineGrainedLock (keyHash r.sp w₀.shm key) ≠
      fineGrainedLock (keyHash r'.sp w₀.shm key')) :
    ∃ (events : List (Bool × Move)) (s : LookupSystem Bool υ),
      Run (LookupStep true pool z w₀) (.start w₀) events s ∧ s.Finished ∧
        s.shared.results = [none, none] ∧
        s.shared.world.header.nmisses = w₀.header.nmisses + 1 := by
  refine ⟨[(false, .next), (true, .next), (false, .grant), (true, .grant), (false, .act),
    (true, .act), (false, .act), (true, .act), (false, .release), (true, .release), (false, .act),
    (true, .act)], _, .cons ⟨by decide, .next (.inl rfl) ⟨r, key, t, hr, .inl hcall,
      (cacheFind_miss hprotect hmiss).symm⟩⟩
    (.cons ⟨by decide, .next (.inl rfl) ⟨r', key', t', hr', .inl hcall',
      (cacheFind_miss hprotect hmiss').symm⟩⟩
    (.cons ⟨by decide, .grant rfl ?_⟩ (.cons ⟨by decide, .grant rfl ?_⟩
    (.cons ⟨by decide, .act rfl⟩ (.cons ⟨by decide, .act rfl⟩ (.cons ⟨by decide, .act rfl⟩
    (.cons ⟨by decide, .act rfl⟩ (.cons ⟨by decide, .release rfl⟩ (.cons ⟨by decide, .release rfl⟩
    (.cons ⟨by decide, .act rfl⟩ (.cons ⟨by decide, .act rfl⟩ .nil))))))))))), ?_, rfl, rfl⟩
  · intro j m h
    cases j <;> cases h
  · intro j m h
    cases j with
    | false =>
      obtain ⟨hl, -⟩ := Prod.mk.inj (List.mem_singleton.1 h)
      exact absurd hl.symm hlocks
    | true => cases h
  · intro i
    cases i <;> rfl

/-- A lookup of any key that the space can hold is legal. -/
theorem Small.find_legal {w : World Bytes} (key : Nat)
    (h : ∃ k, (⟨Small.sp, 0, .find key 0⟩ : Request Bytes).key w = some k) :
    (⟨Small.sp, 0, .find key 0⟩ : Request Bytes).Legal Small.pool Small.zend w := ⟨Small.on, h⟩

end

/-! ## Any keys in any order -/

/-- In a reachable state of the cache, with `protect_memory` off, the processes look up any keys, and
their steps interleave in any way. With recursive mutexes, let no process load a counter of the
header that another one has loaded and not stored yet. When all lookups have finished, the header has
counted each of them, as a hit or a miss, and its hits are those of the entries. -/
theorem run_counted {ι υ : Type} [DecidableEq ι] [Fintype ι] {pool : Pool} {z : Zend}
    {php : Serializer υ} {w w₀ : World υ} {evs : List (Event υ)} {recursive : Bool}
    {events : List (ι × Move)} {s : LookupSystem ι υ} (hc : Created pool w)
    (hw : Run (Step pool z php) w evs w₀) (hprotect : w₀.env.protectMemory = false)
    (hrun : Run (fun s e s' => LookupStep recursive pool z w₀ s e s' ∧
      (recursive = true → ¬ s.Races e.1 e.2)) (.start w₀) events s) (hfinished : s.Finished) :
    s.shared.world.header.nhits =
        w₀.header.nhits + s.shared.results.countP (·.isSome) ∧
      s.shared.world.header.nmisses =
        w₀.header.nmisses + s.shared.results.countP (·.isNone) ∧
      s.shared.world.header.nhits =
        (w₀.entries.map fun x => (entryAt s.shared.world.shm x.1).nhits).sum := by
  obtain ⟨es, live, hinv⟩ := run_inv hc hw
  have hlegal (r : Request υ) (key t : Nat) (hr : r.Legal pool z w₀)
      (hcall : r.call = .find key t ∨ r.call = .fetch key t) :
      Lookup.Sound recursive w₀.lockOf (· ∈ w₀.entries.map Prod.fst) none []
        (Lookup.cacheFind recursive w₀ r.sp key t) :=
    .cacheFind (fun p hp => (hinv.lockOf hr hcall hp).1) fun p hp => (hinv.lockOf hr hcall hp).2
  have h : s.Counting recursive w₀ (· ∈ w₀.entries.map Prod.fst) :=
    hrun.invariant (fun _ hs hstep => hs.step hlegal hprotect hstep.1 hstep.2) .start
  have hzero (f : Tick → Nat) : ∑ i, Lookup.amount f (s.procs i).prog = 0 :=
    Finset.sum_eq_zero fun i _ => by rw [hfinished i]; rfl
  have hcount (c : Counter) :
      s.shared.world.counter c = w₀.counter c + (s.shared.results.map c.of).sum := by
    have hc := h.count c
    rwa [hzero, hzero] at hc
  have hhits := hcount .nhits
  have hnodup : (w₀.entries.map Prod.fst).Nodup :=
    (hinv.perm_entries.map _).nodup_iff.2 hinv.table.nodup
  refine ⟨by rw [← sum_nhits]; exact hhits, by rw [← sum_nmisses]; exact hcount .nmisses, ?_⟩
  have hentries := sum_entries hnodup h.results
  calc s.shared.world.header.nhits
      = w₀.header.nhits + (s.shared.results.map Counter.nhits.of).sum := hhits
    _ = (w₀.entries.map fun x => (entryAt w₀.shm x.1).nhits).sum +
          (w₀.entries.map fun x => (s.shared.results.map (Counter.entry x.1).of).sum).sum := by
        rw [hinv.consistent.nhits, ← hentries, List.map_map]
        rfl
    _ = (w₀.entries.map fun x => (entryAt s.shared.world.shm x.1).nhits).sum := by
        rw [← List.sum_map_add]
        exact congrArg _ (List.map_congr_left fun x _ => (hcount (.entry x.1)).symm)

/-- In the small cache with an array, with recursive mutexes, one process looks up its key and
another one a key that is not bound, and their steps interleave. -/
theorem run_counted_small : ∃ (s : LookupSystem Bool Bytes) (p : Nat),
    s.Finished ∧ s.shared.results = [some p, none] ∧
      s.shared.world.header.nhits = Small.used.header.nhits + 1 ∧
      s.shared.world.header.nmisses = Small.used.header.nmisses + 1 ∧
      s.shared.world.header.nhits =
        (Small.used.entries.map fun x => (entryAt s.shared.world.shm x.1).nhits).sum := by
  have hprotect : Small.used.env.protectMemory = false := by decide +kernel
  obtain ⟨p, hfind⟩ := Option.isSome_iff_exists.1
    (by decide +kernel : (rlockedFindNostat Small.sp 104 Small.used).isSome = true)
  obtain ⟨events, s, hrun, hfinished, hresults⟩ :=
    counted_both hprotect (Small.find_legal 104 ⟨[97], by decide +kernel⟩)
      (Small.find_legal 136 ⟨[98], by decide +kernel⟩) rfl rfl hfind (by decide +kernel)
      (by decide +kernel)
  have hcounted := run_counted Small.created Small.run hprotect hrun hfinished
  rw [hresults] at hcounted
  exact ⟨s, p, hfinished, hresults, hcounted⟩

/-- Two lookups in the small cache, of keys with different locks. -/
theorem run_not_counted : ∃ (events : List (Bool × Move)) (s : LookupSystem Bool Bytes),
    Run (LookupStep true Small.pool Small.zend (Small.start (Small.env none)))
      (.start (Small.start (Small.env none))) events s ∧ s.Finished ∧
      s.shared.results = [none, none] ∧
      s.shared.world.header.nmisses = (Small.start (Small.env none)).header.nmisses + 1 := by
  have hprotect : (Small.start (Small.env none)).env.protectMemory = false := by
    rw [Small.start_env]
    rfl
  exact lost_miss hprotect (Small.find_legal 104 ⟨[97], by decide +kernel⟩)
    (Small.find_legal 136 ⟨[98], by decide +kernel⟩) rfl rfl (by decide +kernel)
    (by decide +kernel) (by decide +kernel)

end ImmutableCache
