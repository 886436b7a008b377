import ImmutableCache.Cache.Sections

/-!
# Waiting for locks

A process acquires the global lock before a fine-grained one, and holds no other lock then. So the
processes of a system never wait in a circle, unless one of them has bailed out with a lock
(`run_waits`).
-/

namespace ImmutableCache

open Bail Procs

/-- The order in which a process acquires locks. -/
def Lock.rank : Lock → Nat
  | .global => 0
  | .fine _ => 1

namespace Sections

/-- The program keeps to the order when the locks `held` are held. -/
def Ordered (held : List (Lock × Mode)) (p : Sections) : Prop := Prog.Ordered Lock.rank held p

namespace Ordered

variable {held : List (Lock × Mode)} {p q : Sections} {l : Lock} {m : Mode}

/-! ## Each operation keeps to the order -/

/-- A program that has ended holds no lock. -/
theorem done : Ordered [] .done := rfl

/-- Two alternatives that keep to the order. -/
theorem either (hp : Ordered held p) (hq : Ordered held q) : Ordered held (.either p q) :=
  Prog.ordered_either (.inr hp) (.inr hq)

/-- A choice of programs that keep to the order. -/
theorem choose {p : Nat → Sections} (h : ∀ n, Ordered held (p n)) : Ordered held (.choose p) :=
  fun n => .inr (h n)

/-- An allocation in the request heap before a program that keeps to the order. -/
theorem emallocs (h : Ordered held p) : Ordered held (emallocs p) :=
  Prog.ordered_either (.inl rfl) (.inr h)

/-- The release of the lock that was acquired last. -/
theorem release (h : Ordered held p) : Ordered ((l, m) :: held) (.release l p) := by
  show Prog.Ordered Lock.rank (List.eraseP _ ((l, m) :: held)) p
  rw [List.eraseP_cons_of_pos (by simp)]
  exact h

/-- A lock that comes after all that are held. -/
theorem wlock (hl : ∀ x ∈ held, x.1.rank < l.rank) (hp : Ordered ((l, .exclusive) :: held) p)
    (hq : Ordered held q) : Ordered held (wlock l p q) := ⟨hl, hp, emallocs hq⟩

/-- The first lock that is acquired. -/
theorem rlock (hp : Ordered [(l, .shared)] p) (hq : Ordered [] q) : Ordered [] (rlock l p q) :=
  ⟨by simp, hp, emallocs hq⟩

/-- `SMA_LOCK` comes first. -/
theorem smaLock (hp : Ordered [(.global, .exclusive)] p) (hq : Ordered [] q) :
    Ordered [] (smaLock p q) := wlock (by simp) hp hq

/-- `SMA_UNLOCK` releases the global lock. -/
theorem smaUnlock (h : Ordered held p) : Ordered ((.global, m) :: held) (smaUnlock p) := release h

/-- The lock need not be held. -/
theorem smaUnlock_refused (h : Ordered [] p) : Ordered [] (Sections.smaUnlock p) := h

/-- Writes before a program that keeps to the order. -/
theorem writes (n : Nat) (h : Ordered held p) : Ordered held (writes n p) := by
  induction n with
  | zero => exact h
  | succ n ih => exact ih

/-- The writes of the copy, between which it allocates in the request heap. -/
theorem copyWrites (n : Nat) (h : Ordered held p) : Ordered held (copyWrites n p) := by
  induction n with
  | zero => exact h
  | succ n ih => exact emallocs ih

/-- An attempt to allocate in a segment, with the global lock. -/
theorem smaTry (hp : Ordered [] p) (hq : Ordered [] q) :
    Ordered [(.global, .exclusive)] (smaTry p q) :=
  either (choose fun n => writes n (smaUnlock hp)) (smaUnlock hq)

/-- The loop over the other segments. -/
theorem smaMallocLoop (hp : Ordered [] p) (hq : Ordered [] q) (n : Nat) :
    Ordered [] (smaMallocLoop p q n) := by
  induction n with
  | zero => exact hq
  | succ n ih => exact either ih (smaLock (smaTry hp ih) hq)

/-- `immutable_cache_sma_malloc` keeps to the order. -/
theorem smaMalloc (num : Nat) (hp : Ordered [] p) (hq : Ordered [] q) :
    Ordered [] (smaMalloc num p q) := smaLock (smaTry hp (smaMallocLoop hp hq num)) hq

/-- So does `immutable_cache_sma_free`. -/
theorem smaFree (h : Ordered [] p) : Ordered [] (smaFree p) :=
  emallocs (smaLock (choose fun n => writes n (smaUnlock h)) h)

/-- So does `immutable_cache_persist`, which copies without a lock. -/
theorem persist (num : Nat) (hp : Ordered [] p) (hq : Ordered [] q) :
    Ordered [] (persist num p q) := by
  have hcopy : Ordered [] (.act .unprotect (.choose fun n =>
      Sections.copyWrites n (Sections.emallocs (.act .protect p)))) :=
    choose fun n => copyWrites n (emallocs hp)
  exact emallocs (either hq (smaMalloc num hcopy hq))

/-- `immutable_cache_cache_wlock` acquires the two locks in order, and releases the first one if it
does not get the second. -/
theorem cacheWlock (hash : Nat)
    (hp : Ordered [(fineGrainedLock hash, .exclusive), (.global, .exclusive)] p)
    (hq : Ordered [] q) : Ordered [] (cacheWlock hash p q) := by
  refine smaLock (wlock (fun x hx => ?_) hp (smaUnlock hq)) hq
  obtain rfl := List.mem_singleton.1 hx
  exact Nat.one_pos

/-- `immutable_cache_cache_wunlock` releases both locks. -/
theorem cacheWunlock (hash : Nat) (h : Ordered [] p) :
    Ordered [(fineGrainedLock hash, .exclusive), (.global, .exclusive)] (cacheWunlock hash p) :=
  release (smaUnlock h)

/-- `immutable_cache_cache_store` keeps to the order. -/
theorem cacheStore (num : Nat) : Ordered [] (cacheStore num) := by
  refine persist num (choose fun hash => ?_) done
  have hinserted := cacheWunlock hash done
  have hfound := cacheWunlock hash (smaFree done)
  exact cacheWlock hash (either hfound (writes 5 hinserted)) (smaFree done)

/-- A program whose `finally` clause releases its lock. -/
theorem tryFinally (h : Ordered [] p) : Ordered [(l, m)] (tryFinally l p) :=
  either (release rfl) (release h)

/-- `immutable_cache_cache_find` keeps to the order. -/
theorem cacheFind (hp : Ordered [] p) (hq : Ordered [] q) : Ordered [] (cacheFind p q) :=
  choose fun _ => rlock (either (release hp) (release hq)) hq

/-- So does the loop of `immutable_cache_sma_info`, which acquires the global lock for each segment.
-/
theorem smaInfoSegments (n : Nat) : Ordered [] (smaInfoSegments n) := by
  induction n with
  | zero => exact done
  | succ n ih => exact smaLock (emallocs (smaUnlock ih)) (emallocs (smaUnlock_refused ih))

end Ordered

end Sections

open Sections

/-- Every operation keeps to the order. -/
theorem Call.ordered {υ : Type} (num : Nat) (c : Call υ) : Ordered [] (c.sections num) := by
  cases c with
  | store _ _ _ => exact .cacheStore num
  | fetch _ _ => exact .cacheFind (.emallocs .done) .done
  | find _ _ | exist _ => exact .cacheFind .done .done
  | stat _ => exact .choose fun _ => .rlock (.tryFinally .done) .done
  | info _ | iteratorFetch _ | iteratorTotals _ => exact .rlock (.tryFinally .done) .done
  | smaInfo _ => exact .emallocs (.either .done (.smaInfoSegments num))

/-! ## Any number of processes -/

section

variable {ι υ : Type} [DecidableEq ι] {num : Nat}

/-- The processes `ι` with their locks; `num` is the number of segments. -/
abbrev LockSystem (ι : Type) := System ι Lock Access Unit

/-- A step of a process that executes operations in any order. What it does to the segments is left
out. -/
def LockStep (υ : Type) (num : Nat) : LockSystem ι → ι × Move → LockSystem ι → Prop :=
  Procs.Step (fun _ _ shared => shared) fun p => ∃ c : Call υ, p = c.sections num

/-- No process has begun an operation. -/
def LockSystem.start : LockSystem ι where
  shared := ()
  procs := fun _ => ⟨.done, []⟩

omit [DecidableEq ι] in
/-- In the beginning no process holds a lock. -/
theorem disciplined_start : Disciplined Lock.rank (LockSystem.start : LockSystem ι) := fun _ => rfl

/-- While no process chooses to bail out with a lock, each keeps to the order. -/
theorem LockStep.disciplined {s s' : LockSystem ι} {e : ι × Move} (hstep : LockStep υ num s e s')
    (hstrands : ¬ s.Strands e.1 e.2) (h : Disciplined Lock.rank s) : Disciplined Lock.rank s' := by
  refine h.step (fun p hp => ?_) hstep hstrands
  obtain ⟨c, rfl⟩ := hp
  exact c.ordered num

end

/-- The processes execute operations in any order, and their steps interleave in any way. If none of
them chooses to bail out while it holds a lock, then one that holds a fine-grained lock waits for no
lock, one that waits for the global lock does not hold it, and no processes wait for each other in a
circle. An `immutable_cache_cache_wlock` that fails has released the global lock. -/
theorem run_waits {ι υ : Type} [DecidableEq ι] {num : Nat} {events : List (ι × Move)}
    {s : LockSystem ι}
    (hrun : Run (fun s e s' => LockStep υ num s e s' ∧ ¬ s.Strands e.1 e.2) .start events s) :
    (∀ i n m, (.fine n, m) ∈ (s.procs i).held → ∀ l m', ¬ s.Waits i l m') ∧
    (∀ i m m', s.Waits i .global m → (.global, m') ∉ (s.procs i).held) ∧
    (∀ i, ¬ Relation.TransGen s.WaitsFor i i) ∧
    ∀ (hash : Nat) (w w' : World υ), cacheWlock hash w = .ok false w' → w'.held = w.held := by
  have h : Disciplined Lock.rank s :=
    hrun.invariant (fun _ hs hstep => hstep.1.disciplined hstep.2 hs) disciplined_start
  refine ⟨fun i n m hheld l m' hw => ?_, fun i m m' hw hheld => ?_, fun i => h.acyclic,
    fun hash w w' hw => ?_⟩
  · have hlt : 1 < l.rank := h.lt hw hheld
    cases l with
    | global => exact absurd hlt (by decide)
    | fine k => exact absurd hlt (Nat.lt_irrefl 1)
  · exact absurd (h.lt hw hheld) (Nat.lt_irrefl _)
  · exact ((wp_cacheWlock_held hash).of_ok hw).1

/-- A store has allocated and copied, has got the global lock again and waits for the lock of its key,
which a lookup by another process holds. The lookup waits for no lock. -/
theorem run_waits_small : ∃ s : LockSystem Bool,
    Run (fun s e s' => LockStep Bytes 1 s e s' ∧ ¬ s.Strands e.1 e.2) .start
      [(true, .next), (true, .choose 1), (true, .choose 1), (false, .next), (true, .grant),
        (true, .act), (false, .choose 3), (true, .choose 0), (true, .choose 0), (true, .act),
        (true, .release), (true, .act), (false, .grant), (true, .choose 0), (true, .choose 1),
        (true, .act), (true, .choose 3), (true, .grant), (true, .act)] s ∧
    s.WaitsFor true false ∧ (∀ l m, ¬ s.Waits false l m) ∧
      ∀ i, ¬ Relation.TransGen s.WaitsFor i i := by
  obtain ⟨s, hrun, hwaits, hheld⟩ : ∃ s : LockSystem Bool,
      Run (fun s e s' => LockStep Bytes 1 s e s' ∧ ¬ s.Strands e.1 e.2) .start
        [(true, .next), (true, .choose 1), (true, .choose 1), (false, .next), (true, .grant),
          (true, .act), (false, .choose 3), (true, .choose 0), (true, .choose 0), (true, .act),
          (true, .release), (true, .act), (false, .grant), (true, .choose 0), (true, .choose 1),
          (true, .act), (true, .choose 3), (true, .grant), (true, .act)] s ∧
      s.Waits true (.fine 3) .exclusive ∧ (s.procs false).held = [(.fine 3, .shared)] := by
    refine ⟨_, .cons ⟨.next (.inl rfl) ⟨.store 0 .undef 0, rfl⟩, not_strands_of_ne nofun⟩
      (.cons ⟨.choose 1 rfl, not_strands_of_nil rfl⟩ (.cons ⟨.choose 1 rfl, not_strands_of_nil rfl⟩
      (.cons ⟨.next (.inl rfl) ⟨.find 0 0, rfl⟩, not_strands_of_ne nofun⟩
      (.cons ⟨.grant rfl ?_, not_strands_of_ne nofun⟩ (.cons ⟨.act rfl, not_strands_of_ne nofun⟩
      (.cons ⟨.choose 3 rfl, not_strands_of_nil rfl⟩
      (.cons ⟨.choose 0 rfl, not_strands_of_choose rfl nofun⟩
      (.cons ⟨.choose 0 rfl, not_strands_of_choose rfl nofun⟩
      (.cons ⟨.act rfl, not_strands_of_ne nofun⟩ (.cons ⟨.release rfl, not_strands_of_ne nofun⟩
      (.cons ⟨.act rfl, not_strands_of_ne nofun⟩ (.cons ⟨.grant rfl ?_, not_strands_of_ne nofun⟩
      (.cons ⟨.choose 0 rfl, not_strands_of_nil rfl⟩ (.cons ⟨.choose 1 rfl, not_strands_of_nil rfl⟩
      (.cons ⟨.act rfl, not_strands_of_ne nofun⟩ (.cons ⟨.choose 3 rfl, not_strands_of_nil rfl⟩
      (.cons ⟨.grant rfl ?_, not_strands_of_ne nofun⟩ (.cons ⟨.act rfl, not_strands_of_ne nofun⟩
      .nil)))))))))))))))))), ⟨_, _, rfl⟩, rfl⟩
    · intro j m h
      cases j <;> cases h
    · intro j m h
      cases j <;> cases h
    · intro j m h
      cases j with
      | false => cases List.mem_singleton.1 h
      | true => cases h
  obtain ⟨hfine, -, hcircle, -⟩ := run_waits hrun
  have hmem : (.fine 3, .shared) ∈ (s.procs false).held := by
    rw [hheld]
    exact List.mem_singleton_self _
  exact ⟨s, hrun, ⟨_, _, _, hwaits, hmem, fun h => by cases h.1⟩, hfine false 3 .shared hmem,
    hcircle⟩

/-- `immutable_cache_sma_info` has got the global lock, and an allocation fails. The next call waits
for the lock that the process has kept. -/
theorem run_waits_smaInfo : ∃ s : LockSystem Bool,
    Run (LockStep Bytes 1) .start
      [(false, .next), (false, .choose 1), (false, .choose 1), (false, .grant), (false, .act),
        (false, .choose 0), (false, .next), (false, .choose 1), (false, .choose 1)] s ∧
    s.Waits false .global .exclusive ∧ (.global, .exclusive) ∈ (s.procs false).held := by
  refine ⟨_, .cons (.next (.inl rfl) ⟨.smaInfo false, rfl⟩) (.cons (.choose 1 rfl)
    (.cons (.choose 1 rfl) (.cons (.grant rfl ?_) (.cons (.act rfl) (.cons (.choose 0 rfl)
    (.cons (.next (.inr rfl) ⟨.smaInfo false, rfl⟩) (.cons (.choose 1 rfl)
    (.cons (.choose 1 rfl) .nil)))))))), ⟨_, _, rfl⟩, List.mem_singleton_self _⟩
  intro j m h
  cases j <;> cases h

end ImmutableCache
