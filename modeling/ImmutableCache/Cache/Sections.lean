import ImmutableCache.Cache.Locks
import ImmutableCache.Lib.Procs

/-!
# Critical sections

What each operation does with the locks and with the protection of the shared segments, step by
step, as a program of `Procs`. The operations of `World`, in which an operation is one step, follow
these programs (`Request.leads`).
-/

namespace ImmutableCache

open Bail Procs

/-- `IMMUTABLE_CACHE_SMA_UNPROTECT_MEMORY`, `IMMUTABLE_CACHE_SMA_PROTECT_MEMORY`, and a write into a
data segment. -/
inductive Access where
  | unprotect
  | protect
  | write
  deriving DecidableEq, Repr

/-- The sections of an operation. -/
abbrev Sections := Prog Lock Access

namespace Sections

/-! ## Locks -/

/-- An allocation in the request heap, or several: the operation may bail out. -/
def emallocs (k : Sections) : Sections := .either .bail k

/-- `WLOCK`, with the warning of a refusal. -/
def wlock (l : Lock) (granted refused : Sections) : Sections :=
  .acquire l .exclusive granted (emallocs refused)

/-- `RLOCK`. -/
def rlock (l : Lock) (granted refused : Sections) : Sections :=
  .acquire l .shared granted (emallocs refused)

/-- `SMA_LOCK`. -/
def smaLock (granted refused : Sections) : Sections :=
  wlock .global (.act .unprotect granted) refused

/-- `SMA_UNLOCK`. -/
def smaUnlock (k : Sections) : Sections := .act .protect (.release .global k)

/-- `immutable_cache_cache_wlock`. -/
def cacheWlock (hash : Nat) (granted refused : Sections) : Sections :=
  smaLock (wlock (fineGrainedLock hash) granted (smaUnlock refused)) refused

/-- `immutable_cache_cache_wunlock`. -/
def cacheWunlock (hash : Nat) (k : Sections) : Sections :=
  .release (fineGrainedLock hash) (smaUnlock k)

/-! ## The allocator -/

/-- Some writes into a data segment. -/
def writes : Nat → Sections → Sections
  | 0, k => k
  | n + 1, k => .act .write (writes n k)

/-- `sma_allocate` under the lock: it writes the headers of a block, if it finds one. -/
def smaTry (found none : Sections) : Sections :=
  .either (.choose fun n => writes n (smaUnlock found)) (smaUnlock none)

/-- The loop of `immutable_cache_sma_malloc_ex` over the segments, without the one tried first. -/
def smaMallocLoop (found none : Sections) : Nat → Sections
  | 0 => none
  | n + 1 =>
    .either (smaMallocLoop found none n)
      (smaLock (smaTry found (smaMallocLoop found none n)) none)

/-- `immutable_cache_sma_malloc`, with `num` segments. -/
def smaMalloc (num : Nat) (found none : Sections) : Sections :=
  smaLock (smaTry found (smaMallocLoop found none num)) none

/-- `immutable_cache_sma_free`. It is fatal if no segment holds the address. -/
def smaFree (k : Sections) : Sections :=
  .either .bail (smaLock (.choose fun n => writes n (smaUnlock k)) k)

/-! ## Operations on keys -/

/-- The copy of an entry, with allocations for its memo table in between. -/
def copyWrites : Nat → Sections → Sections
  | 0, k => k
  | n + 1, k => emallocs (.act .write (copyWrites n k))

/-- `immutable_cache_persist`: the serializer and the memo table may bail out. -/
def persist (num : Nat) (entry none : Sections) : Sections :=
  emallocs (.either none (smaMalloc num
    (.act .unprotect (.choose fun n => copyWrites n (emallocs (.act .protect entry)))) none))

/-- `immutable_cache_cache_wlocked_insert_exclusive`: two writes link the entry, and three update the
header. -/
def wlockedInsertExclusive (inserted found : Sections) : Sections :=
  .either found (writes 5 inserted)

/-- `immutable_cache_cache_store`. -/
def cacheStore (num : Nat) : Sections :=
  persist num
    (.choose fun hash => cacheWlock hash
      (wlockedInsertExclusive (cacheWunlock hash .done) (cacheWunlock hash (smaFree .done)))
      (smaFree .done))
    .done

/-- `immutable_cache_cache_find`. -/
def cacheFind (found none : Sections) : Sections :=
  .choose fun hash => rlock (fineGrainedLock hash)
    (.either (.release (fineGrainedLock hash) found) (.release (fineGrainedLock hash) none)) none

/-- `immutable_cache_cache_fetch`: the entry is unserialized without a lock. -/
def cacheFetch : Sections := cacheFind (emallocs .done) .done

/-- The rest of a section with `php_immutable_cache_finally`: the lock is released in any case. -/
def tryFinally (l : Lock) (k : Sections) : Sections := .either (.release l .bail) (.release l k)

/-- `immutable_cache_cache_stat`. -/
def cacheStat : Sections :=
  .choose fun hash => rlock (fineGrainedLock hash) (tryFinally (fineGrainedLock hash) .done) .done

/-! ## Reports and iterators -/

/-- `immutable_cache_cache_info`, and the fetch and the totals of an iterator. -/
def underGlobal : Sections := rlock .global (tryFinally .global .done) .done

/-- The loop of `immutable_cache_sma_info` over the segments. The outcome of `SMA_LOCK` is not looked
at, and the links are allocated without a `try`. -/
def smaInfoSegments : Nat → Sections
  | 0 => .done
  | n + 1 => smaLock (emallocs (smaUnlock (smaInfoSegments n)))
      (emallocs (smaUnlock (smaInfoSegments n)))

/-- `immutable_cache_sma_info`. -/
def smaInfo (num : Nat) : Sections := emallocs (.either .done (smaInfoSegments num))

end Sections

/-- The sections of a call, with `num` segments. -/
def Call.sections {υ : Type} (num : Nat) : Call υ → Sections
  | .store _ _ _ => Sections.cacheStore num
  | .fetch _ _ => Sections.cacheFetch
  | .find _ _ | .exist _ => Sections.cacheFind .done .done
  | .stat _ => Sections.cacheStat
  | .info _ | .iteratorFetch _ | .iteratorTotals _ => Sections.underGlobal
  | .smaInfo _ => Sections.smaInfo num

/-! ## The operations follow their sections -/

section

variable {υ α β : Type} {x : Op υ α} {p p' : Sections} {q q' : α → Sections} {l : Lock} {m : Mode}
  {msg : String}

/-- A process that does what leads from `w` to `w'` gets from `p` to `q`. -/
def Advances (w : World υ) (p : Sections) (w' : World υ) (q : Sections) : Prop :=
  w'.env = w.env ∧ Prog.Leads w.env.lockOk w.lockTries w.held p w'.lockTries w'.held q

/-- The operation follows `p`, up to `q` if it returns, and to its end if it bails out. -/
def Takes (x : Op υ α) (p : Sections) (q : α → Sections) : Prop :=
  ∀ w : World υ, Wp x w (fun a w' => Advances w p w' (q a)) fun w' => Advances w p w' .bail

/-- What a process does with the locks depends on this part of its state. -/
def World.locks (w : World υ) : Env × Nat × List Lock := (w.env, w.lockTries, w.held)

/-- A process that does not touch its locks stays where it is. -/
theorem Advances.of_locks {w w' : World υ} (h : w'.locks = w.locks) (p : Sections) :
    Advances w p w' p := by
  have henv : w'.env = w.env := congrArg (fun r => r.1) h
  have htries : w'.lockTries = w.lockTries := congrArg (fun r => r.2.1) h
  have hheld : w'.held = w.held := congrArg (fun r => r.2.2) h
  refine ⟨henv, ?_⟩
  rw [htries, hheld]
  exact .refl

/-- From one point to another, and from there to a third. -/
theorem Advances.trans {w w₁ w' : World υ} {r : Sections} (h : Advances w p w₁ p')
    (h' : Advances w₁ p' w' r) : Advances w p w' r := by
  obtain ⟨henv, hleads⟩ := h
  obtain ⟨henv', hleads'⟩ := h'
  rw [henv] at hleads'
  exact ⟨henv'.trans henv, hleads.trans hleads'⟩

/-- A program that begins with a step that does not depend on the locks. -/
theorem Advances.act {w w' : World υ} {a : Access} {r : Sections} (h : Advances w p w' r) :
    Advances w (.act a p) w' r := ⟨h.1, .act h.2⟩

/-- A program that begins with a choice, of which `n` is made. -/
theorem Advances.choose {w w' : World υ} {P : Nat → Sections} {r : Sections} (n : Nat)
    (h : Advances w (P n) w' r) : Advances w (.choose P) w' r := ⟨h.1, .choose n h.2⟩

/-- A program that begins with two alternatives, of which the first is chosen. -/
theorem Advances.left {w w' : World υ} {r : Sections} (h : Advances w p w' r) :
    Advances w (.either p p') w' r := .choose 0 h

/-- A program that begins with two alternatives, of which the second is chosen. -/
theorem Advances.right {w w' : World υ} {r : Sections} (h : Advances w p' w' r) :
    Advances w (.either p p') w' r := .choose 1 h

/-- A program that begins with writes. -/
theorem Advances.writes {w w' : World υ} {r : Sections} (n : Nat) (h : Advances w p w' r) :
    Advances w (Sections.writes n p) w' r := by
  induction n with
  | zero => exact h
  | succ n ih => exact ih.act

namespace Takes

/-- An operation that only gives a value stays where it is. -/
theorem pure {a : α} (h : q a = p) : Takes (pure a : Op υ α) p q := by
  intro w
  rw [← h]
  exact .of_locks rfl (q a)

/-- Steps that the operation goes through before it begins. -/
theorem before (h : Takes x p q)
    (hp : ∀ {w w' : World υ} {r : Sections}, Advances w p w' r → Advances w p' w' r) :
    Takes x p' q := fun w => (h w).mono (fun _ _ => hp) fun _ => hp

/-- A program that begins with a step that does not depend on the locks. -/
theorem act {a : Access} (h : Takes x p q) : Takes x (.act a p) q := h.before .act

/-- A program that begins with a choice, of which `n` is made. -/
theorem choose {P : Nat → Sections} (n : Nat) (h : Takes x (P n) q) : Takes x (.choose P) q :=
  h.before (.choose n)

/-- A program that begins with two alternatives, of which the first is chosen. -/
theorem left (h : Takes x p q) : Takes x (.either p p') q := h.before .left

/-- A program that begins with two alternatives, of which the second is chosen. -/
theorem right (h : Takes x p' q) : Takes x (.either p p') q := h.before .right

/-- A program that begins with writes. -/
theorem writes (n : Nat) (h : Takes x p q) : Takes x (Sections.writes n p) q := h.before (.writes n)

/-- Two operations in a row: the second goes on where the first has got to. -/
theorem bind {f : α → Op υ β} {r : β → Sections} (hx : Takes x p q)
    (hf : ∀ a, Takes (f a) (q a) r) : Takes (x >>= f) p r := by
  intro w
  rw [wp_bind]
  refine (hx w).mono (fun a w₁ h => ?_) fun _ => id
  exact (hf a w₁).mono (fun _ _ => h.trans) fun _ => h.trans

/-- A function of the result. -/
theorem map {f : α → β} {r : β → Sections} (hx : Takes x p fun a => r (f a)) :
    Takes (f <$> x) p r := by
  intro w
  rw [wp_map]
  exact hx w

/-- The state is read: what is left may depend on it. -/
theorem get_bind {f : World υ → Op υ α} (hf : ∀ w, Takes (f w) p q) :
    Takes (MonadState.get >>= f) p q := fun w => hf w w

/-- A step that does not depend on the locks. -/
theorem modify_bind {f : World υ → World υ} {g : PUnit → Op υ α} (h : ∀ w, (f w).locks = w.locks)
    (hg : Takes (g ⟨⟩) p q) : Takes (modify f >>= g) p q :=
  bind (q := fun _ => p) (fun w => .of_locks (h w) p) fun _ => hg

/-- A part that may bail out, and leaves the locks alone. -/
theorem emallocs (h : Keeps World.locks x) : Takes x (Sections.emallocs p) fun _ => p := fun w =>
  (h w).mono (fun _ _ h => .right (.of_locks h p)) fun _ h => .left (.of_locks h .bail)

/-- A lock is acquired, or refused with a warning. -/
theorem acquire : Takes (acquire l msg : Op υ Bool) (.acquire l m p (Sections.emallocs p'))
    fun ok => if ok then p else p' := by
  intro w
  simp only [ImmutableCache.acquire, warning, emalloc, wp_bind, wp_get, wp_set, wp_ite]
  split
  next hok => exact ⟨rfl, .grant hok .refl⟩
  next hok =>
    have hok := eq_false_of_ne_true hok
    split
    · exact ⟨rfl, .refuse hok (.choose 1 .refl)⟩
    · exact ⟨rfl, .refuse hok (.choose 0 .refl)⟩

/-- To release a lock is a step of its own. -/
theorem unlock : Takes (unlock l : Op υ Unit) (.release l p) fun _ => p :=
  fun _ => ⟨rfl, .release .refl⟩

/-- The rest of a section with `php_immutable_cache_finally`. -/
theorem ensuring (h : Keeps World.locks x) :
    Takes (ensuring x (ImmutableCache.unlock l)) (Sections.tryFinally l p) fun _ => p := by
  intro w
  simp only [wp_ensuring, ImmutableCache.unlock, wp_modify]
  have hrelease {w₁ : World υ} (h₁ : w₁.locks = w.locks) (r : Sections) :
      Advances w (.release l r) { w₁ with held := w₁.held.erase l } r :=
    (Advances.of_locks h₁ (.release l r)).trans ⟨rfl, .release .refl⟩
  exact (h w).mono (fun _ _ h => .right (hrelease h _)) fun _ h => .left (hrelease h _)

/-- A section between the acquisition of a lock and its release. -/
theorem locked {y : Op υ α} (hx : Takes x p q) (hy : Takes y p' q) :
    Takes (do if ← ImmutableCache.acquire l msg then x else y)
      (.acquire l m p (Sections.emallocs p')) q := by
  refine acquire.bind fun ok => ?_
  cases ok with
  | true => exact hx
  | false => exact hy

end Takes

end

/-! ## What leaves the locks alone -/

section

variable {υ : Type} {pool : Pool} {sp : Space} {php : Serializer υ}

/-- An allocation in the request heap does not touch the locks. -/
theorem locks_emalloc : Keeps World.locks (emalloc : Op υ Unit) := by
  intro w
  simp only [emalloc, wp_bind, wp_get, wp_set, wp_ite]
  split <;> exact rfl

/-- Nor do several of them. -/
theorem locks_emallocN (n : Nat) : Keeps World.locks (emallocN n : Op υ Unit) :=
  within_emallocN locks_emalloc n

/-- Nor does a warning. -/
theorem locks_warning (msg : String) : Keeps World.locks (warning msg : Op υ Unit) :=
  locks_emalloc.bind fun _ => .of_modify fun _ => rfl

/-- Nor does a call of a serializer's function. -/
theorem locks_callback (serializer : Serializer υ) (entry : Option Nat) :
    Keeps World.locks (callback serializer entry) :=
  Keeps.bind (.of_modify fun _ => rfl) fun _ => locks_emalloc

/-- Nor does `immutable_cache_cache_entry_fetch_zval`. -/
theorem locks_entryFetchZval (p : Nat) : Keeps World.locks (entryFetchZval sp php p) :=
  within_entryFetchZval (fun serializer p => locks_callback serializer (some p)) sp p

/-- Nor does the construction of an item. -/
theorem locks_itemCtor (it : Iterator υ) (p : Nat) : Keeps World.locks (itemCtor sp php it p) :=
  within_itemCtor locks_emalloc (fun serializer p => locks_callback serializer (some p)) sp it p

/-! ## Each operation -/

namespace Takes

variable {α : Type} {p q : Sections}

/-- `SMA_LOCK` gets to one of two programs. -/
theorem smaLock {x y : Op υ α} {r : α → Sections} (hx : Takes x p r) (hy : Takes y q r) :
    Takes (do if ← wlock .global then x else y) (Sections.smaLock p q) r := locked hx.act hy

/-- `SMA_UNLOCK` is the end of a write section and the release of the lock. -/
theorem smaUnlock : Takes (ImmutableCache.unlock .global : Op υ Unit) (Sections.smaUnlock p) fun _ => p :=
  unlock.act

/-- `sma_allocate` between the locking and the unlocking, with what follows in either case. -/
theorem smaTry {i n : Nat} {f : Option Nat → Op υ α} {r : α → Sections}
    (hsome : ∀ a, Takes (f (some a)) (Sections.smaUnlock p) r)
    (hnone : Takes (f none) (Sections.smaUnlock q) r) :
    Takes (smaTry pool i n >>= f) (Sections.smaTry p q) r := by
  refine bind (q := fun _ => Sections.smaTry p q) (fun w => .of_locks rfl _) fun o => ?_
  cases o with
  | some a => exact ((hsome a).writes 0).choose 0 |>.left
  | none => exact hnone.right

/-- The loop over the other segments. -/
theorem smaMallocLoop (n last : Nat) (is : List Nat) :
    Takes (smaMallocLoop pool n last is : Op υ (Option Nat))
      (Sections.smaMallocLoop p q is.length) fun o => if o.isSome then p else q := by
  induction is with
  | nil => exact .pure rfl
  | cons i is ih =>
    rw [ImmutableCache.smaMallocLoop, List.length_cons, Sections.smaMallocLoop]
    split
    · exact ih.left
    · refine .right (smaLock (smaTry (fun a => ?_) ?_) (.pure rfl))
      · exact modify_bind (fun _ => rfl) (smaUnlock.bind fun _ => .pure rfl)
      · exact smaUnlock.bind fun _ => ih

/-- `immutable_cache_sma_malloc` follows its sections, to one end with a block and to another
without. -/
theorem smaMalloc (n : Nat) : Takes (smaMalloc pool n : Op υ (Option Nat))
    (Sections.smaMalloc pool.num p q) fun o => if o.isSome then p else q := by
  refine get_bind fun w => smaLock (smaTry (fun a => ?_) ?_) (.pure rfl)
  · exact smaUnlock.bind fun _ => .pure rfl
  · refine smaUnlock.bind fun _ => ?_
    have h : Takes (ImmutableCache.smaMallocLoop pool n w.sma.last (List.range pool.num) :
        Op υ (Option Nat)) (Sections.smaMallocLoop p q (List.range pool.num).length)
        fun o => if o.isSome then p else q := smaMallocLoop n _ _
    rwa [List.length_range] at h

/-- `immutable_cache_sma_free` follows its sections. -/
theorem smaFree (a : Nat) : Takes (smaFree pool a : Op υ Unit) (Sections.smaFree p) fun _ => p := by
  unfold ImmutableCache.smaFree
  refine modify_bind (fun _ => rfl) ?_
  cases pool.segmentOf a with
  | some i =>
    refine .right (smaLock (.choose 0 ?_) (.pure rfl))
    exact modify_bind (fun _ => rfl) smaUnlock
  | none =>
    intro w
    rw [wp_bind]
    exact (locks_warning _ w).mono (fun _ _ h => .left (.of_locks h .bail))
      fun _ h => .left (.of_locks h .bail)

/-- `immutable_cache_persist` follows its sections, to one end with an entry and to another without.
-/
theorem persist (depth : Nat) (orig : Entry) : Takes (persist pool sp php depth orig)
    (Sections.persist pool.num p q) fun o => if o.isSome then p else q := by
  refine get_bind fun w => ?_
  have hbegin (n k : Nat) : Keeps World.locks
      (emallocN n >>= fun _ => serializeN (w.serializer.getD php) k : Op υ Unit) :=
    (locks_emallocN n).bind fun _ => within_serializeN (locks_callback _ none) k
  rw [← bind_assoc]
  refine (emallocs (hbegin _ _)).bind fun _ => modify_bind (fun _ => rfl) ?_
  split
  · refine .right ((smaMalloc _).bind fun o => ?_)
    cases o with
    | none => exact .pure rfl
    | some a =>
      refine modify_bind (fun _ => rfl) (get_bind fun w => .act (.choose 0 ?_))
      exact (emallocs (locks_emallocN _)).bind fun _ =>
        .act (modify_bind (fun _ => rfl) (.pure rfl))
  · exact .left (.pure rfl)

/-- `immutable_cache_cache_wlock` follows its sections, to one end with the locks and to another
without. -/
theorem cacheWlock (hash : Nat) : Takes (cacheWlock hash : Op υ Bool)
    (Sections.cacheWlock hash p q) fun ok => if ok then p else q :=
  smaLock (locked (.pure rfl) (smaUnlock.bind fun _ => .pure rfl)) (.pure rfl)

/-- `immutable_cache_cache_wunlock` follows its sections. -/
theorem cacheWunlock (hash : Nat) : Takes (cacheWunlock hash : Op υ Unit)
    (Sections.cacheWunlock hash p) fun _ => p := unlock.bind fun _ => smaUnlock

/-- `immutable_cache_cache_store` follows its sections. -/
theorem cacheStore (depth key t : Nat) (val : Zval) :
    Takes (cacheStore pool sp php depth key val t) (Sections.cacheStore pool.num) fun _ => .done := by
  refine (persist depth (initEntry key val t)).bind fun o => ?_
  cases o with
  | none => exact .pure rfl
  | some a =>
    refine get_bind fun w => .choose _ ((cacheWlock (keyHash sp w.shm key)).bind fun ok => ?_)
    have hfree : Takes (do ImmutableCache.smaFree pool a; Pure.pure false : Op υ Bool)
        (Sections.smaFree .done) fun _ => .done := (smaFree a).bind fun _ => .pure rfl
    cases ok with
    | false => exact hfree
    | true =>
      -- the entry is inserted, or it is there; the locks are released in either case
      have hinsert (w : World υ) : (wlockedInsertExclusive sp a w).2.locks = w.locks := by
        unfold ImmutableCache.wlockedInsertExclusive
        dsimp only
        split <;> rfl
      refine bind (q := fun ret => if ret then .done else Sections.smaFree .done) ?_ fun ret => ?_
      · intro w₁
        rw [wp_ensuring, wp_modifyGet]
        have hchoice {ret : Bool} {w₂ : World υ} {r : Sections} (h : Advances w₁
            (Sections.cacheWunlock (keyHash sp w.shm key)
              (if ret then .done else Sections.smaFree .done)) w₂ r) :
            Advances w₁ (Sections.wlockedInsertExclusive
              (Sections.cacheWunlock (keyHash sp w.shm key) .done)
              (Sections.cacheWunlock (keyHash sp w.shm key) (Sections.smaFree .done))) w₂ r := by
          cases ret with
          | false => exact .left h
          | true => exact .right (h.writes 5)
        exact (cacheWunlock _ (wlockedInsertExclusive sp a w₁).2).mono
          (fun _ _ h => hchoice ((Advances.of_locks (hinsert w₁) _).trans h))
          fun _ h => hchoice ((Advances.of_locks (hinsert w₁) _).trans h)
      · cases ret with
        | true => exact .pure rfl
        | false => exact hfree

/-- `immutable_cache_cache_find` follows its sections, to one end with an entry and to another
without. -/
theorem cacheFind (key t : Nat) : Takes (cacheFind sp key t : Op υ (Option Nat))
    (Sections.cacheFind p q) fun o => if o.isSome then p else q := by
  refine get_bind fun w => .choose (keyHash sp w.shm key) (locked ?_ (.pure rfl))
  refine bind (q := fun o => .release _ (if o.isSome then p else q)) ?_
    fun o => unlock.bind fun _ => .pure rfl
  intro w'
  have hlocks : (rlockedFind sp key t w').2.locks = w'.locks := by
    unfold rlockedFind
    dsimp only
    split <;> dsimp only <;> split <;> rfl
  rw [wp_modifyGet]
  dsimp only
  split
  · exact .left (.of_locks hlocks _)
  · exact .right (.of_locks hlocks _)

/-- `immutable_cache_cache_fetch` follows its sections. -/
theorem cacheFetch (key t : Nat) : Takes (cacheFetch sp php key t) Sections.cacheFetch
    fun _ => .done := by
  refine (cacheFind key t).bind fun o => ?_
  cases o with
  | none => exact .pure rfl
  | some a => exact .map (emallocs (locks_entryFetchZval a))

/-- `immutable_cache_cache_exists` follows its sections. -/
theorem cacheExists (key : Nat) : Takes (cacheExists sp key : Op υ Bool)
    (Sections.cacheFind .done .done) fun _ => .done :=
  get_bind fun w => .choose (keyHash sp w.shm key) (locked
    (get_bind fun _ => .left (unlock.bind fun _ => .pure rfl)) (.pure rfl))

/-- `immutable_cache_cache_stat` follows its sections. -/
theorem cacheStat (key : Nat) : Takes (cacheStat sp key : Op υ (Option Stat)) Sections.cacheStat
    fun _ => .done := by
  refine get_bind fun w => .choose (keyHash sp w.shm key) (locked (ensuring ?_) (.pure rfl))
  refine Keeps.get.bind fun w => ?_
  split
  · exact (locks_emallocN _).bind fun _ => .pure _
  · exact .pure _

/-- A section under the global lock that is released in any case. -/
theorem underGlobal {x : Op υ α} (a : α) (h : Keeps World.locks x) :
    Takes (do if ← rlock .global then Bail.ensuring x (ImmutableCache.unlock .global) else Pure.pure a)
      Sections.underGlobal fun _ => .done := by
  unfold Sections.underGlobal
  exact locked (ensuring h) (.pure rfl)

/-- `immutable_cache_cache_info` holds the global lock. -/
theorem cacheInfo (limited : Bool) : Takes (cacheInfo limited : Op υ (Option CacheInfo))
    Sections.underGlobal fun _ => .done :=
  underGlobal none (.map (within_cacheInfoLocked locks_emalloc limited))

/-- `immutable_cache_iterator_fetch_active` holds the global lock. -/
theorem fetchActive (it : Iterator υ) : Takes (fetchActive sp php it) Sections.underGlobal
    fun _ => .done := by
  refine underGlobal _ (Keeps.get.bind fun _ => Keeps.bind ?_ fun _ => .pure _)
  exact within_fetchSlots locks_itemCtor _ _ _

/-- `immutable_cache_iterator_totals` holds the global lock. -/
theorem iteratorTotals (it : Iterator υ) : Takes (iteratorTotals sp it) Sections.underGlobal
    fun _ => .done := underGlobal it (Keeps.get.bind fun _ => .pure _)

/-- The loop of `immutable_cache_sma_info` locks and unlocks once for each segment. -/
theorem smaInfoSegments (is : List Nat) : Takes (smaInfoSegments is : Op υ (List (List (Nat × Nat))))
    (Sections.smaInfoSegments is.length) fun _ => .done := by
  induction is with
  | nil => exact .pure rfl
  | cons i is ih =>
    have hsegment {r : Sections} : Takes (smaInfoSegment i : Op υ (List (Nat × Nat)))
        (Sections.smaLock (Sections.emallocs (Sections.smaUnlock r))
          (Sections.emallocs (Sections.smaUnlock r))) fun _ => r := by
      have hlinks : Takes (do
          let seg := (← get).sma.segs i
          let links := smaInfoLinks seg seg.segsize Segment.first
          emallocN links.length
          ImmutableCache.unlock .global
          Pure.pure links : Op υ (List (Nat × Nat)))
          (Sections.emallocs (Sections.smaUnlock r)) fun _ => r :=
        get_bind fun w => (emallocs (locks_emallocN _)).bind fun _ =>
          smaUnlock.bind fun _ => .pure rfl
      refine acquire.bind fun ok => ?_
      cases ok with
      | true => exact .act hlinks
      | false => exact hlinks
    exact hsegment.bind fun _ => ih.bind fun _ => .pure rfl

/-- `immutable_cache_sma_info` follows its sections. -/
theorem smaInfo (limited : Bool) : Takes (smaInfo pool limited : Op υ SmaInfo)
    (Sections.smaInfo pool.num) fun _ => .done := by
  refine (emallocs (locks_emallocN 2)).bind fun _ => ?_
  split
  · exact .left (.pure rfl)
  · have h : Takes (ImmutableCache.smaInfoSegments (List.range pool.num) :
        Op υ (List (List (Nat × Nat)))) (Sections.smaInfoSegments (List.range pool.num).length)
        fun _ => .done := smaInfoSegments _
    rw [List.length_range] at h
    exact .right (h.bind fun _ => .pure rfl)

end Takes

/-- Every operation follows its sections, to their end or to a bailout. -/
theorem Request.leads (r : Request υ) (pool : Pool) (php : Serializer υ) :
    Takes (r.run pool php) (r.call.sections pool.num) fun _ => .done := by
  unfold Request.run
  cases r.call with
  | store key val t => exact .map (.cacheStore r.depth key t val)
  | fetch key t => exact .map (.cacheFetch key t)
  | find key t =>
    have h : Takes (cacheFind r.sp key t : Op υ (Option Nat)) (Sections.cacheFind .done .done)
        fun o => if o.isSome then .done else .done := .cacheFind key t
    simp only [ite_self] at h
    exact .map h
  | exist key => exact .map (.cacheExists key)
  | stat key => exact .map (.cacheStat key)
  | info limited => exact .map (.cacheInfo limited)
  | smaInfo limited => exact .map (.smaInfo limited)
  | iteratorFetch it => exact .map (.fetchActive it)
  | iteratorTotals it => exact .map (.iteratorTotals it)

end

end ImmutableCache
