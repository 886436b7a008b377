import ImmutableCache.Cache.Statistics
import ImmutableCache.Lib.Procs

/-!
# Lookups step by step

A lookup counts itself while it holds the fine-grained lock of its key: in the header, and a hit also
in the entry. With recursive mutexes a lock is exclusive, and `ATOMIC_INC_RLOCKED` is a plain `++`,
which loads and then stores. `Lookup.Sound` says so of what is left of a lookup.
-/

namespace ImmutableCache

open Procs

/-! ## Counters -/

/-- A counter that a lookup increments. -/
inductive Counter where
  | nhits
  | nmisses
  | entry (p : Nat)
  deriving DecidableEq, Repr

namespace World

variable {υ : Type}

def counter (w : World υ) : Counter → Nat
  | .nhits => w.header.nhits
  | .nmisses => w.header.nmisses
  | .entry p => (entryAt w.shm p).nhits

def setCounter (w : World υ) : Counter → Nat → World υ
  | .nhits, n => { w with header := { w.header with nhits := n } }
  | .nmisses, n => { w with header := { w.header with nmisses := n } }
  | .entry p, n => { w with shm := writeEntry w.shm p { entryAt w.shm p with nhits := n } }

/-- `entry->atime = t`. -/
def touch (w : World υ) (p t : Nat) : World υ :=
  { w with shm := writeEntry w.shm p { entryAt w.shm p with atime := t } }

/-- A counter has the value that it is set to, and the others keep theirs. -/
theorem counter_setCounter (w : World υ) (c c' : Counter) (n : Nat) :
    (w.setCounter c n).counter c' = if c' = c then n else w.counter c' := by
  cases c with
  | nhits => cases c' <;> rfl
  | nmisses => cases c' <;> rfl
  | entry p =>
    cases c' with
    | nhits => rfl
    | nmisses => rfl
    | entry q =>
      rcases eq_or_ne q p with rfl | hne
      · rw [if_pos rfl, counter, setCounter, entryAt_writeEntry_self]
      · rw [if_neg fun h => hne (Counter.entry.inj h), counter, setCounter,
          entryAt_writeEntry_of_ne _ hne, counter]

/-- A hit. -/
theorem touch_setCounter (w : World υ) (p t : Nat) :
    (((w.setCounter .nhits (w.counter .nhits + 1)).setCounter (.entry p)
      ((w.setCounter .nhits (w.counter .nhits + 1)).counter (.entry p) + 1)).touch p t) =
      w.hit p t := by
  have hwrite (e e' : Entry) : writeEntry (writeEntry w.shm p e) p e' = writeEntry w.shm p e' :=
    Function.update_idem _ _ _
  simp only [touch, setCounter, counter, hit, entryAt_writeEntry_self, hwrite]

/-- An access time is not a counter. -/
theorem counter_touch (w : World υ) (p t : Nat) (c : Counter) :
    (w.touch p t).counter c = w.counter c := by
  cases c with
  | nhits => rfl
  | nmisses => rfl
  | entry q =>
    rcases eq_or_ne q p with rfl | hne
    · rw [counter, touch, entryAt_writeEntry_self, counter]
    · rw [counter, touch, entryAt_writeEntry_of_ne _ hne, counter]

end World

/-- A step of a lookup that holds its lock, and its return with the entry that it has found. -/
inductive Tick where
  /-- `ATOMIC_INC`. -/
  | inc (c : Counter)
  /-- The load of a plain `++`. -/
  | load (c : Counter)
  /-- The store of a plain `++`. -/
  | store (c : Counter)
  | touch (p t : Nat)
  | returned (entry : Option Nat)
  deriving DecidableEq, Repr

/-- What the processes `ι` share, with the value that each has loaded and not stored yet, and the
results of the lookups that have returned. -/
structure Lookups (ι υ : Type) where
  world : World υ
  loaded : ι → Option (Counter × Nat)
  results : List (Option Nat)

variable {ι υ : Type} [DecidableEq ι]

/-- The step of the process `i`. -/
def Tick.apply (i : ι) : Tick → Lookups ι υ → Lookups ι υ
  | .inc c, s => { s with world := s.world.setCounter c (s.world.counter c + 1) }
  | .load c, s =>
    { s with loaded := Function.update s.loaded i (some (c, s.world.counter c)) }
  | .store c, s => { s with
      world := s.world.setCounter c ((s.loaded i).elim 0 (·.2) + 1)
      loaded := Function.update s.loaded i none }
  | .touch p t, s => { s with world := s.world.touch p t }
  | .returned entry, s => { s with results := entry :: s.results }

/-- `ATOMIC_INC_RLOCKED`; with `IMMUTABLE_CACHE_LOCK_RECURSIVE` it is a plain `++`. -/
def atomicIncRlocked (recursive : Bool) (c : Counter) : List Tick :=
  if recursive then [.load c, .store c] else [.inc c]

/-- What `immutable_cache_cache_rlocked_find` does when it has walked along the chain. -/
def rlockedFindTicks (recursive protectMemory : Bool) (t : Nat) : Option Nat → List Tick
  | some p =>
    if protectMemory then []
    else atomicIncRlocked recursive .nhits ++ atomicIncRlocked recursive (.entry p) ++ [.touch p t]
  | none => if protectMemory then [] else atomicIncRlocked recursive .nmisses

/-- A lookup. -/
abbrev Lookup := Prog Lock Tick

namespace Lookup

/-- One step after the other. -/
def acts (as : List Tick) (k : Lookup) : Lookup := as.foldr .act k

/-- `immutable_cache_cache_find` of the key at `key`, at time `t`, in a cache whose table is that of
`w`: the walk reads nothing that lookups change. -/
def cacheFind (recursive : Bool) (w : World υ) (sp : Space) (key t : Nat) : Lookup :=
  let lock := fineGrainedLock (keyHash sp w.shm key)
  let entry := rlockedFindNostat sp key w
  .acquire lock (if recursive then .exclusive else .shared)
    (acts (rlockedFindTicks recursive w.env.protectMemory t entry)
      (.release lock (.act (.returned entry) .done)))
    (.act (.returned none) .done)

end Lookup

/-- The steps of an increment, one after the other. -/
theorem foldl_atomicIncRlocked (recursive : Bool) (c : Counter) (i : ι) (s : Lookups ι υ)
    (hloaded : s.loaded i = none) :
    (atomicIncRlocked recursive c).foldl (fun s a => a.apply i s) s =
      { s with world := s.world.setCounter c (s.world.counter c + 1) } := by
  cases recursive with
  | false => rfl
  | true =>
    have hnone : Function.update s.loaded i none = s.loaded := by
      rw [← hloaded, Function.update_eq_self]
    simp only [atomicIncRlocked, if_true, List.foldl_cons, List.foldl_nil, Tick.apply,
      Function.update_self, Function.update_idem, hnone, Option.elim_some]

/-- A process that does the steps alone does what `immutable_cache_cache_rlocked_find` does. -/
theorem foldl_rlockedFindTicks (recursive : Bool) (sp : Space) (key t : Nat) (i : ι)
    (s : Lookups ι υ) (hloaded : s.loaded i = none) :
    (rlockedFindTicks recursive s.world.env.protectMemory t
      (rlockedFindNostat sp key s.world)).foldl (fun s a => a.apply i s) s =
    { s with world := (rlockedFind sp key t s.world).2 } := by
  unfold rlockedFind rlockedFindNostat
  dsimp only
  split
  next p hp =>
    rw [hp, rlockedFindTicks]
    split
    · rfl
    · rw [List.foldl_append, List.foldl_append, foldl_atomicIncRlocked recursive _ i s hloaded,
        foldl_atomicIncRlocked recursive _ i _ (by exact hloaded)]
      have hhit := s.world.touch_setCounter p t
      exact congrArg (fun w => ({ s with world := w } : Lookups ι υ)) hhit
  next hp =>
    rw [hp, rlockedFindTicks]
    split
    · rfl
    · exact foldl_atomicIncRlocked recursive _ i s hloaded

/-! ## What is left of a lookup -/

/-- How often an outcome counts in a counter. -/
def Counter.of (c : Counter) : Option Nat → Nat
  | some p => if c = .nhits ∨ c = .entry p then 1 else 0
  | none => if c = .nmisses then 1 else 0

/-- By how much a step increments a counter. -/
def Tick.adds (c : Counter) : Tick → Nat
  | .inc c' | .store c' => if c = c' then 1 else 0
  | _ => 0

/-- How often a counter is to count the lookup that returns. -/
def Tick.counts (c : Counter) : Tick → Nat
  | .returned entry => c.of entry
  | _ => 0

namespace Lookup

/-- The sum over the steps of a lookup that gets its lock. -/
def amount (f : Tick → Nat) : Lookup → Nat
  | .act a next => f a + amount f next
  | .acquire _ _ granted _ => amount f granted
  | .release _ next => amount f next
  | _ => 0

/-- The lock of a counter is held: an entry is counted in under its own lock. -/
def Guards (lockOf : Nat → Lock) (held : List (Lock × Mode)) (c : Counter) : Prop :=
  ∀ p, c = .entry p → (lockOf p, .exclusive) ∈ held

/-- What is left of a lookup that holds the locks `held` and has loaded the counter `loaded`: with a
plain `++` a load is followed by the store, and the entries that it counts in are in `E`. -/
def Sound (recursive : Bool) (lockOf : Nat → Lock) (E : Nat → Prop) :
    Option Counter → List (Lock × Mode) → Lookup → Prop
  | loaded, held, .done => loaded = none ∧ held = []
  | _, _, .bail => False
  | loaded, held, .acquire l m granted _ => loaded = none ∧
      Sound recursive lockOf E none ((l, m) :: held) granted
  | loaded, held, .release l next => loaded = none ∧
      Sound recursive lockOf E none (held.eraseP (·.1 = l)) next
  | loaded, held, .act (.inc _) next => loaded = none ∧ recursive = false ∧
      Sound recursive lockOf E none held next
  | loaded, held, .act (.load c) next => loaded = none ∧ recursive = true ∧ Guards lockOf held c ∧
      Sound recursive lockOf E (some c) held next
  | loaded, held, .act (.store c) next => loaded = some c ∧ recursive = true ∧
      Guards lockOf held c ∧ Sound recursive lockOf E none held next
  | loaded, held, .act (.touch _ _) next => loaded = none ∧ Sound recursive lockOf E none held next
  | loaded, held, .act (.returned entry) next => loaded = none ∧ (∀ p, entry = some p → E p) ∧
      Sound recursive lockOf E none held next
  | _, _, .choose _ => False

variable {recursive : Bool} {lockOf : Nat → Lock} {E : Nat → Prop} {held : List (Lock × Mode)}
  {c : Counter} {k : Lookup} {f : Tick → Nat}

/-- A process that has loaded a counter holds its lock, if it has one. -/
theorem Sound.guards {p : Lookup} (h : Sound recursive lockOf E (some c) held p) :
    recursive = true ∧ Guards lockOf held c := by
  cases p with
  | act a next =>
    cases a with
    | store c' =>
      obtain ⟨hc, hr, hg, -⟩ := h
      cases hc
      exact ⟨hr, hg⟩
    | inc _ | load _ | touch _ _ | returned _ => cases h.1
  | done | acquire _ _ _ _ | release _ _ => cases h.1
  | bail | choose _ => exact h.elim

/-- An increment with a lock that guards the counter is sound. -/
theorem Sound.atomicIncRlocked (hg : recursive = true → Guards lockOf held c)
    (hk : Sound recursive lockOf E none held k) :
    Sound recursive lockOf E none held (acts (atomicIncRlocked recursive c) k) := by
  cases recursive with
  | false => exact ⟨rfl, rfl, hk⟩
  | true => exact ⟨rfl, rfl, hg rfl, rfl, rfl, hg rfl, hk⟩

/-- Steps, and then more steps. -/
theorem acts_append (as bs : List Tick) (k : Lookup) : acts (as ++ bs) k = acts as (acts bs k) :=
  List.foldr_append

/-- The steps of a program and what comes after them. -/
theorem amount_acts (as : List Tick) : amount f (acts as k) = (as.map f).sum + amount f k := by
  induction as with
  | nil => simp [acts]
  | cons a as ih =>
    show f a + amount f (acts as k) = _
    rw [ih, List.map_cons, List.sum_cons, Nat.add_assoc]

/-- A guard is asked for the counters of entries, and not for the hits of the header. -/
theorem guards_nhits : Guards lockOf held .nhits := by
  intro p hp
  cases hp

/-- Nor for its misses. -/
theorem guards_nmisses : Guards lockOf held .nmisses := by
  intro p hp
  cases hp

/-- Under its lock, which is exclusive with a plain `++`, a lookup counts in the header and in an
entry of the lock. -/
theorem Sound.rlockedFindTicks {lock : Lock} {m : Mode}
    (hk : Sound recursive lockOf E none [(lock, m)] k) (hm : recursive = true → m = .exclusive)
    {entry : Option Nat}
    (hentry : ∀ p, entry = some p → lockOf p = lock) (protectMemory : Bool) (t : Nat) :
    Sound recursive lockOf E none [(lock, m)]
      (acts (rlockedFindTicks recursive protectMemory t entry) k) := by
  cases protectMemory with
  | true =>
    cases entry with
    | none => exact hk
    | some p => exact hk
  | false =>
    cases entry with
    | none => exact Sound.atomicIncRlocked (fun _ => guards_nmisses) hk
    | some p =>
      simp only [ImmutableCache.rlockedFindTicks, Bool.false_eq_true, if_false, acts_append]
      refine .atomicIncRlocked (fun _ => guards_nhits) (.atomicIncRlocked (fun hr q hq => ?_)
        ⟨rfl, hk⟩)
      cases hq
      rw [hentry p rfl, hm hr]
      exact List.mem_singleton_self _

/-- A lookup is sound, as the entry that it finds has the lock of its key. -/
theorem Sound.cacheFind {w : World υ} {sp : Space} {key t : Nat}
    (hE : ∀ p, rlockedFindNostat sp key w = some p → E p)
    (hlock : ∀ p, rlockedFindNostat sp key w = some p →
      lockOf p = fineGrainedLock (keyHash sp w.shm key)) :
    Sound recursive lockOf E none [] (cacheFind recursive w sp key t) := by
  have hend : Sound recursive lockOf E none
      [(fineGrainedLock (keyHash sp w.shm key), if recursive then .exclusive else .shared)]
      (.release (fineGrainedLock (keyHash sp w.shm key))
        (.act (.returned (rlockedFindNostat sp key w)) .done)) := by
    refine ⟨rfl, rfl, hE, rfl, ?_⟩
    rw [List.eraseP_cons_of_pos (by simp)]
  exact ⟨rfl, hend.rlockedFindTicks (fun hr => if_pos hr) hlock _ t⟩

/-- An increment adds one, to its own counter. -/
theorem adds_atomicIncRlocked (c c' : Counter) :
    ((ImmutableCache.atomicIncRlocked recursive c').map (Tick.adds c)).sum =
      if c = c' then 1 else 0 := by
  cases recursive <;> simp [ImmutableCache.atomicIncRlocked, Tick.adds]

/-- It does not end a lookup. -/
theorem counts_atomicIncRlocked (c c' : Counter) :
    ((ImmutableCache.atomicIncRlocked recursive c').map (Tick.counts c)).sum = 0 := by
  cases recursive <;> simp [ImmutableCache.atomicIncRlocked, Tick.counts]

/-- A lookup increments the counters that are to count it. -/
theorem amount_cacheFind {w : World υ} (hprotect : w.env.protectMemory = false) (sp : Space)
    (key t : Nat) (c : Counter) :
    amount (Tick.adds c) (cacheFind recursive w sp key t) =
      amount (Tick.counts c) (cacheFind recursive w sp key t) := by
  show amount (Tick.adds c) (acts _ _) = amount (Tick.counts c) (acts _ _)
  rw [amount_acts, amount_acts, hprotect]
  show _ + (Tick.adds c (.returned (rlockedFindNostat sp key w)) + 0) =
    _ + (Tick.counts c (.returned (rlockedFindNostat sp key w)) + 0)
  cases rlockedFindNostat sp key w with
  | none =>
    simp only [ImmutableCache.rlockedFindTicks, Bool.false_eq_true, if_false,
      adds_atomicIncRlocked, counts_atomicIncRlocked, Tick.adds, Tick.counts, Counter.of]
    omega
  | some p =>
    simp only [ImmutableCache.rlockedFindTicks, Bool.false_eq_true, if_false, List.map_append,
      List.sum_append, adds_atomicIncRlocked, counts_atomicIncRlocked, Tick.adds, Tick.counts,
      Counter.of, List.map_cons, List.map_nil, List.sum_cons, List.sum_nil]
    cases c <;> simp

end Lookup

end ImmutableCache
