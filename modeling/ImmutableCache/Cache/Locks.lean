import ImmutableCache.Cache.History

/-!
# Releasing locks

A bailout jumps to the innermost `php_immutable_cache_try` of the process, and past it the locks
that were acquired after it stay with the process. `Balanced` programs end with the locks that they
began with. Those of the cache are balanced but for two: `immutable_cache_sma_info` allocates its
links under the lock without a `try`, and `immutable_cache_cache_wlock` warns that it has not got the
fine-grained lock while it still holds the global one (`held_final_iff`).
-/

namespace ImmutableCache

open Bail Segment

variable {υ α β : Type} {l : Lock} {w w' : World υ} {n : Nat} {msg : String}

/-! ## Balanced programs -/

/-- The program ends with the locks that it began with, whether it returns or bails out. -/
abbrev Balanced (x : Op υ α) : Prop := Keeps World.held x

/-- The program ends without the lock `l`, whether it returns or bails out. -/
def Releases (l : Lock) (x : Op υ α) : Prop := ∀ w : World υ,
  Wp x w (fun _ w' => w'.held = w.held.erase l) fun w' => w'.held = w.held.erase l

/-- The program returns, with the locks that it began with. -/
def Sure (x : Op υ α) : Prop := ∀ w : World υ, Wp x w (fun _ w' => w'.held = w.held) fun _ => False

namespace Sure

variable {x : Op υ α}

/-- A program that only gives a value returns. -/
theorem pure (a : α) : Sure (pure a : Op υ α) := fun _ => rfl

/-- To read the state does not fail. -/
theorem get : Sure (MonadState.get : Op υ (World υ)) := fun _ => rfl

/-- An update that leaves the locks alone. -/
theorem of_modify {f : World υ → World υ} (h : ∀ w : World υ, (f w).held = w.held) :
    Sure (modify f : Op υ PUnit) := h

/-- An update with a result that leaves the locks alone. -/
theorem of_modifyGet {f : World υ → α × World υ} (h : ∀ w, (f w).2.held = w.held) :
    Sure (modifyGet f : Op υ α) := h

/-- An attempt to allocate in a segment does not bail out. -/
theorem smaTry (pool : Pool) (i n : Nat) : Sure (smaTry pool i n : Op υ (Option Nat)) :=
  fun _ => rfl

end Sure

namespace Releases

/-- To release a lock that is held. -/
theorem unlock (l : Lock) : Releases l (unlock l : Op υ Unit) := fun _ => rfl

/-- A program that releases the lock, after one that is sure to return. -/
theorem after {x : Op υ α} {f : α → Op υ β} (hx : Sure x) (hf : ∀ a, Releases l (f a)) :
    Releases l (x >>= f) := by
  intro w
  rw [wp_bind]
  refine (hx w).mono (fun a w₁ h => ?_) fun _ => False.elim
  rw [← h]
  exact hf a w₁

/-- The lock stays released in a balanced program. -/
theorem bind {x : Op υ α} {f : α → Op υ β} (hx : Releases l x) (hf : ∀ a, Balanced (f a)) :
    Releases l (x >>= f) := by
  intro w
  rw [wp_bind]
  refine (hx w).mono (fun a w₁ h => ?_) fun _ => id
  exact (hf a w₁).mono (fun _ _ h' => h'.trans h) fun _ h' => h'.trans h

/-- A balanced program with the release in its `finally` clause. -/
theorem ensuring {x : Op υ α} (hx : Balanced x) :
    Releases l (ensuring x (ImmutableCache.unlock l)) := by
  intro w
  simp only [wp_ensuring, ImmutableCache.unlock, wp_modify]
  exact (hx w).mono (fun _ _ h => h ▸ rfl) fun _ h => h ▸ rfl

end Releases

/-- Several allocations succeed, or one of them fails. -/
theorem wp_emallocN : Wp (emallocN n) w
    (fun _ w' => w' = { w with emallocs := w.emallocs + n } ∧
      ∀ i < n, w.env.emallocOk (w.emallocs + i) = true)
    fun w' => w' = { w with emallocs := w'.emallocs } ∧
      ∃ i < n, w.env.emallocOk (w.emallocs + i) = false := by
  induction n generalizing w with
  | zero => exact ⟨rfl, fun i hi => absurd hi (Nat.not_lt_zero i)⟩
  | succ n ih =>
    simp only [emallocN, emalloc, wp_bind, wp_get, wp_set, wp_ite]
    split
    next hok =>
      refine ih.mono (fun _ w₁ h => ?_) fun w₁ h => ?_
      · obtain ⟨rfl, hall⟩ := h
        refine ⟨by rw [Nat.add_assoc, Nat.add_comm 1 n], fun i hi => ?_⟩
        cases i with
        | zero => exact hok
        | succ i =>
          have := hall i (Nat.lt_of_succ_lt_succ hi)
          rwa [Nat.add_assoc, Nat.add_comm 1 i] at this
      · obtain ⟨heq, i, hi, hfail⟩ := h
        refine ⟨heq, i + 1, Nat.succ_lt_succ hi, ?_⟩
        rwa [Nat.add_assoc, Nat.add_comm 1 i] at hfail
    next hok => exact ⟨rfl, 0, Nat.succ_pos n, eq_false_of_ne_true hok⟩

/-- The lock is acquired, or it is refused with a warning, or the warning fails. -/
theorem wp_acquire_cases : Wp (acquire l msg) w
    (fun ok w' => ok = true ∧ w.env.lockOk w.lockTries = true ∧
        w' = { w with lockTries := w.lockTries + 1, held := l :: w.held } ∨
      ok = false ∧ w.env.lockOk w.lockTries = false ∧ w.env.emallocOk w.emallocs = true ∧
        w' = { w with lockTries := w.lockTries + 1, emallocs := w.emallocs + 1
                      warnings := w.warnings ++ [msg], thrown := w.thrown + w.handled 1 })
    fun w' => w.env.lockOk w.lockTries = false ∧ w.env.emallocOk w.emallocs = false ∧
      w'.held = w.held := by
  simp only [acquire, warning, emalloc, wp_bind, wp_get, wp_set, wp_ite]
  split
  next hok => exact .inl ⟨rfl, hok, rfl⟩
  next hok =>
    have hok := eq_false_of_ne_true hok
    split
    next hem => exact .inr ⟨rfl, hok, hem, rfl⟩
    next hem => exact ⟨hok, eq_false_of_ne_true hem, rfl⟩

namespace Balanced

/-- An allocation in the request heap is balanced. -/
theorem emalloc : Balanced (emalloc : Op υ Unit) := by
  intro w
  simp only [ImmutableCache.emalloc, wp_bind, wp_get, wp_set, wp_ite]
  split <;> exact rfl

/-- So are several of them. -/
theorem emallocN (n : Nat) : Balanced (emallocN n : Op υ Unit) := within_emallocN emalloc n

/-- A warning is balanced. -/
theorem warning (msg : String) : Balanced (warning msg : Op υ Unit) :=
  emalloc.bind fun _ => .of_modify fun _ => rfl

/-- A call of a serializer's function is balanced. -/
theorem callback (serializer : Serializer υ) (entry : Option Nat) :
    Balanced (callback serializer entry) :=
  Keeps.bind (.of_modify fun _ => rfl) fun _ => emalloc

/-- So are several calls of `serialize`. -/
theorem serializeN (serializer : Serializer υ) (n : Nat) : Balanced (serializeN serializer n) :=
  within_serializeN (callback serializer none) n

/-- A section between the acquisition of a lock and its release. -/
theorem locked {x y : Op υ α} (hx : Releases l x) (hy : Balanced y) :
    Balanced (do if ← acquire l msg then x else y) := by
  intro w
  simp only [wp_bind, wp_ite]
  refine wp_acquire_cases.mono (fun ok w₁ h => ?_) fun _ h => h.2.2
  obtain ⟨rfl, -, rfl⟩ | ⟨rfl, -, -, rfl⟩ := h
  · rw [if_pos rfl]
    refine (hx _).mono (fun _ _ h => ?_) fun _ h => ?_ <;> rw [h, List.erase_cons_head]
  · rw [if_neg Bool.false_ne_true]
    exact hy _

end Balanced

/-! ## The operations -/

namespace Balanced

variable {pool : Pool} {sp : Space} {php : Serializer υ}

/-- The loop over the other segments is balanced. -/
theorem smaMallocLoop (n last : Nat) (is : List Nat) :
    Balanced (smaMallocLoop pool n last is : Op υ (Option Nat)) := by
  induction is with
  | nil => exact .pure _
  | cons i is ih =>
    rw [ImmutableCache.smaMallocLoop]
    refine .ite ih (locked (.after (.smaTry pool i n) fun r => ?_) (.pure _))
    cases r with
    | some p => exact .after (.of_modify fun _ => rfl) fun _ => (Releases.unlock _).bind fun _ => .pure _
    | none => exact (Releases.unlock _).bind fun _ => ih

/-- `immutable_cache_sma_malloc` is balanced. -/
theorem smaMalloc (n : Nat) : Balanced (smaMalloc pool n : Op υ (Option Nat)) := by
  refine Keeps.get.bind fun w => locked (.after (.smaTry pool _ n) fun r => ?_) (.pure _)
  cases r with
  | some p => exact (Releases.unlock _).bind fun _ => .pure _
  | none => exact (Releases.unlock _).bind fun _ => smaMallocLoop n _ _

/-- `immutable_cache_sma_free` is balanced. -/
theorem smaFree (p : Nat) : Balanced (smaFree pool p : Op υ Unit) := by
  unfold ImmutableCache.smaFree
  refine Keeps.bind (.of_modify fun _ => rfl) fun _ => ?_
  cases pool.segmentOf p with
  | some i => exact locked (.after (.of_modify fun _ => rfl) fun _ => .unlock _) (.pure _)
  | none => exact (warning _).bind fun _ => .bailout

/-- `immutable_cache_persist` is balanced. -/
theorem persist (depth : Nat) (orig : Entry) : Balanced (persist pool sp php depth orig) := by
  refine Keeps.get.bind fun w => (emallocN _).bind fun _ => (serializeN _ _).bind fun _ =>
    Keeps.bind (.of_modify fun _ => rfl) fun _ => .ite ((smaMalloc _).bind fun r => ?_) (.pure _)
  cases r with
  | some p =>
    refine Keeps.bind (.of_modify fun _ => rfl) fun _ => Keeps.get.bind fun _ => ?_
    exact (emallocN _).bind fun _ => Keeps.bind (.of_modify fun _ => rfl) fun _ => .pure _
  | none => exact .pure _

/-- The walk along a chain leaves the locks alone. -/
theorem rlockedFind_held (key t : Nat) (w : World υ) :
    (rlockedFind sp key t w).2.held = w.held := by
  unfold rlockedFind
  dsimp only
  split <;> dsimp only <;> split <;> rfl

/-- `immutable_cache_cache_find` is balanced. -/
theorem cacheFind (key t : Nat) : Balanced (cacheFind sp key t : Op υ (Option Nat)) :=
  Keeps.get.bind fun _ => locked
    (.after (.of_modifyGet (rlockedFind_held key t)) fun _ =>
      (Releases.unlock _).bind fun _ => .pure _) (.pure _)

/-- `immutable_cache_cache_entry_fetch_zval` is balanced. -/
theorem entryFetchZval (p : Nat) : Balanced (entryFetchZval sp php p) :=
  within_entryFetchZval (fun serializer p => callback serializer (some p)) sp p

/-- `immutable_cache_cache_fetch` is balanced. -/
theorem cacheFetch (key t : Nat) : Balanced (cacheFetch sp php key t) := by
  refine (cacheFind key t).bind fun r => ?_
  cases r with
  | none => exact .pure _
  | some p => exact (entryFetchZval p).map

/-- `immutable_cache_cache_exists` is balanced. -/
theorem cacheExists (key : Nat) : Balanced (cacheExists sp key : Op υ Bool) :=
  Keeps.get.bind fun _ => locked
    (.after .get fun _ => (Releases.unlock _).bind fun _ => .pure _) (.pure _)

/-- `immutable_cache_cache_stat` is balanced. -/
theorem cacheStat (key : Nat) : Balanced (cacheStat sp key : Op υ (Option Stat)) := by
  refine Keeps.get.bind fun _ => locked (.ensuring (Keeps.get.bind fun w => ?_)) (.pure _)
  split
  · exact (emallocN _).bind fun _ => .pure _
  · exact .pure _

/-- `immutable_cache_cache_info` is balanced, as it unlocks in a `finally` clause. -/
theorem cacheInfo (limited : Bool) : Balanced (cacheInfo limited : Op υ (Option CacheInfo)) :=
  locked (.ensuring (.map (within_cacheInfoLocked emalloc limited))) (.pure _)

/-- The construction of an item is balanced. -/
theorem itemCtor (it : Iterator υ) (p : Nat) : Balanced (itemCtor sp php it p) :=
  within_itemCtor emalloc (fun serializer p => callback serializer (some p)) sp it p

/-- `immutable_cache_iterator_fetch_active` is balanced. -/
theorem fetchActive (it : Iterator υ) : Balanced (fetchActive sp php it) := by
  refine locked (.ensuring (Keeps.get.bind fun _ => Keeps.bind ?_ fun _ => .pure _)) (.pure _)
  exact within_fetchSlots itemCtor _ _ _

/-- `immutable_cache_iterator_totals` is balanced. -/
theorem iteratorTotals (it : Iterator υ) : Balanced (iteratorTotals sp it) :=
  locked (.ensuring (Keeps.get.bind fun _ => .pure _)) (.pure _)

end Balanced

/-! ## The two that are not balanced -/

/-- The number of free blocks that `immutable_cache_sma_info` finds in segment `i`. -/
def World.numLinks (w : World υ) (i : Nat) : Nat :=
  (smaInfoLinks (w.sma.segs i) (w.sma.segs i).segsize first).length

/-- Of the allocations in the request heap, those from the one numbered `m` on succeed, `n` of
them. -/
def World.HeapFrom (w : World υ) (m n : Nat) : Prop := ∀ i < n, w.env.emallocOk (m + i) = true

/-- An allocation for a link in one of the segments fails while the lock is held, and those before it
succeed. The attempt to acquire the lock is the one numbered `t`, and the next allocation is the one
numbered `m`. -/
def World.LinkFails (w : World υ) : List Nat → Nat → Nat → Prop
  | [], _, _ => False
  | i :: is, t, m =>
    if w.env.lockOk t then
      ¬ w.HeapFrom m (w.numLinks i) ∨
        w.HeapFrom m (w.numLinks i) ∧ w.LinkFails is (t + 1) (m + w.numLinks i)
    else
      -- the warning, and the links without the lock
      w.HeapFrom m (1 + w.numLinks i) ∧ w.LinkFails is (t + 1) (m + (1 + w.numLinks i))

/-- When a store has made its entry, the global lock is acquired, the fine-grained one is refused, and
the allocation for the warning fails. -/
def StoreStrands (pool : Pool) (sp : Space) (php : Serializer υ) (depth : Nat) (orig : Entry)
    (w : World υ) : Prop :=
  ∃ p w₁, persist pool sp php depth orig w = .ok (some p) w₁ ∧
    w₁.env.lockOk w₁.lockTries = true ∧ w₁.env.lockOk (w₁.lockTries + 1) = false ∧
    w₁.env.emallocOk w₁.emallocs = false

/-- The request takes a branch that leaves a lock behind. -/
def Request.Strands (r : Request υ) (pool : Pool) (php : Serializer υ) (w : World υ) : Prop :=
  match r.call with
  | .store key val t => StoreStrands pool r.sp php r.depth (initEntry key val t) w
  | .smaInfo false =>
    w.HeapFrom w.emallocs 2 ∧ w.LinkFails (List.range pool.num) w.lockTries (w.emallocs + 2)
  | _ => False

/-- An allocation that fails is not one of those that succeed. -/
theorem not_heapFrom {m : Nat} (h : ∃ i < n, w.env.emallocOk (m + i) = false) :
    ¬ w.HeapFrom m n := by
  intro hall
  obtain ⟨i, hi, hno⟩ := h
  rw [hall i hi] at hno
  cases hno

/-- Some allocations, and then the others. -/
theorem heapFrom_add {m a b : Nat} : w.HeapFrom m (a + b) ↔
    w.HeapFrom m a ∧ w.HeapFrom (m + a) b := by
  constructor
  · intro h
    refine ⟨fun i hi => h i (by omega), fun i hi => ?_⟩
    rw [Nat.add_assoc]
    exact h (a + i) (by omega)
  · rintro ⟨h1, h2⟩ i hi
    by_cases hlt : i < a
    · exact h1 i hlt
    · have := h2 (i - a) (by omega)
      rwa [Nat.add_assoc, Nat.add_sub_of_le (Nat.le_of_not_lt hlt)] at this

/-- A single allocation succeeds. -/
theorem heapFrom_one {m : Nat} : w.HeapFrom m 1 ↔ w.env.emallocOk m = true := by
  constructor
  · exact fun h => h 0 Nat.one_pos
  · intro h i hi
    obtain rfl := Nat.lt_one_iff.1 hi
    exact h

/-- What the links depend on. -/
theorem linkFails_congr (henv : w'.env = w.env) (hsma : w'.sma = w.sma) :
    w'.LinkFails = w.LinkFails := by
  have hheap : w'.HeapFrom = w.HeapFrom := by
    funext m n
    rw [World.HeapFrom, World.HeapFrom, henv]
  have hlinks : w'.numLinks = w.numLinks := by
    funext i
    rw [World.numLinks, World.numLinks, hsma]
  funext is
  induction is with
  | nil => rfl
  | cons i is ih =>
    funext t m
    rw [World.LinkFails, World.LinkFails, ih, hheap, hlinks, henv]

/-- One segment: its links are allocated, or an allocation fails, under the lock or without it. -/
theorem wp_smaInfoSegment (i : Nat) (hheld : w.held = []) : Wp (smaInfoSegment i) w
    (fun _ w' => w'.held = [] ∧ w'.env = w.env ∧ w'.sma = w.sma ∧
      w'.lockTries = w.lockTries + 1 ∧
        if w.env.lockOk w.lockTries then
          w.HeapFrom w.emallocs (w.numLinks i) ∧ w'.emallocs = w.emallocs + w.numLinks i
        else w.HeapFrom w.emallocs (1 + w.numLinks i) ∧
          w'.emallocs = w.emallocs + (1 + w.numLinks i))
    fun w' => if w.env.lockOk w.lockTries then
        ¬ w.HeapFrom w.emallocs (w.numLinks i) ∧ w'.held ≠ []
      else ¬ w.HeapFrom w.emallocs (1 + w.numLinks i) ∧ w'.held = [] := by
  simp only [smaInfoSegment, wlock, unlock, wp_bind, wp_get, wp_modify, wp_pure]
  refine wp_acquire_cases.mono (fun ok w₁ h₁ => ?_) fun w₁ h₁ => ?_
  · obtain ⟨-, hok, rfl⟩ | ⟨-, hok, hem, rfl⟩ := h₁
    · simp only [if_pos hok]
      refine wp_emallocN.mono (fun _ w₂ h₂ => ?_) fun w₂ h₂ => ?_
      · obtain ⟨rfl, hall⟩ := h₂
        refine ⟨?_, rfl, rfl, rfl, hall, rfl⟩
        show List.erase (.global :: w.held) Lock.global = []
        rw [List.erase_cons_head, hheld]
      · obtain ⟨hh, hno⟩ := h₂
        refine ⟨not_heapFrom hno, ?_⟩
        rw [hh]
        exact List.cons_ne_nil _ _
    · simp only [if_neg (ne_true_of_eq_false hok)]
      refine wp_emallocN.mono (fun _ w₂ h₂ => ?_) fun w₂ h₂ => ?_
      · obtain ⟨rfl, hall⟩ := h₂
        refine ⟨?_, rfl, rfl, rfl, heapFrom_add.2 ⟨heapFrom_one.2 hem, hall⟩, Nat.add_assoc _ _ _⟩
        show List.erase w.held Lock.global = []
        rw [hheld]
        rfl
      · obtain ⟨hh, hno⟩ := h₂
        refine ⟨fun h => not_heapFrom hno (heapFrom_add.1 h).2, ?_⟩
        rw [hh]
        exact hheld
  · obtain ⟨hok, hem, hh⟩ := h₁
    rw [if_neg (ne_true_of_eq_false hok)]
    refine ⟨fun h => ?_, hh.trans hheld⟩
    have := heapFrom_one.1 (heapFrom_add.1 h).1
    rw [hem] at this
    cases this

/-- The links of the segments. -/
theorem wp_smaInfoSegments (is : List Nat) (hheld : w.held = []) :
    Wp (smaInfoSegments is) w
      (fun _ w' => w'.held = [] ∧ ¬ w.LinkFails is w.lockTries w.emallocs)
      fun w' => w'.held = [] ↔ ¬ w.LinkFails is w.lockTries w.emallocs := by
  induction is generalizing w with
  | nil => exact ⟨hheld, id⟩
  | cons i is ih =>
    simp only [smaInfoSegments, wp_bind, wp_pure, World.LinkFails]
    refine (wp_smaInfoSegment i hheld).mono (fun _ w₁ h₁ => ?_) fun w₁ h₁ => ?_
    · obtain ⟨hheld₁, henv, hsma, htries, hcase⟩ := h₁
      have hlater := ih hheld₁
      rw [linkFails_congr henv hsma, htries] at hlater
      split at hcase
      next hok =>
        obtain ⟨hall, hm⟩ := hcase
        rw [hm] at hlater
        have hiff : ¬ w.HeapFrom w.emallocs (w.numLinks i) ∨
            w.HeapFrom w.emallocs (w.numLinks i) ∧
              w.LinkFails is (w.lockTries + 1) (w.emallocs + w.numLinks i) ↔
            w.LinkFails is (w.lockTries + 1) (w.emallocs + w.numLinks i) :=
          ⟨fun h => (h.resolve_left (not_not_intro hall)).2, fun h => .inr ⟨hall, h⟩⟩
        rw [if_pos hok, hiff]
        exact hlater
      next hok =>
        obtain ⟨hall, hm⟩ := hcase
        rw [hm] at hlater
        rw [if_neg hok, and_iff_right hall]
        exact hlater
    · split at h₁
      next hok =>
        rw [if_pos hok]
        exact iff_of_false h₁.2 (not_not_intro (.inl h₁.1))
      next hok =>
        rw [if_neg hok]
        exact iff_of_true h₁.2 fun h => h₁.1 h.1

/-- `immutable_cache_sma_info`. -/
theorem wp_smaInfo {pool : Pool} (hheld : w.held = []) : Wp (smaInfo pool false) w
    (fun _ w' => w'.held = [] ∧ ¬ (w.HeapFrom w.emallocs 2 ∧
      w.LinkFails (List.range pool.num) w.lockTries (w.emallocs + 2)))
    fun w' => w'.held = [] ↔ ¬ (w.HeapFrom w.emallocs 2 ∧
      w.LinkFails (List.range pool.num) w.lockTries (w.emallocs + 2)) := by
  simp only [smaInfo, wp_bind, Bool.false_eq_true, if_false, wp_pure]
  refine wp_emallocN.mono (fun _ w₁ h₁ => ?_) fun w₁ h₁ => ?_
  · obtain ⟨rfl, hall⟩ := h₁
    have hall : w.HeapFrom w.emallocs 2 := hall
    have hlinks := wp_smaInfoSegments (w := { w with emallocs := w.emallocs + 2 })
      (List.range pool.num) hheld
    have hcongr : { w with emallocs := w.emallocs + 2 }.LinkFails = w.LinkFails :=
      linkFails_congr rfl rfl
    rw [hcongr] at hlinks
    rw [and_iff_right hall]
    exact hlinks
  · refine iff_of_true ?_ fun h => not_heapFrom h₁.2 h.1
    rw [h₁.1]
    exact hheld

/-- `immutable_cache_cache_wlock`: both locks, or none of them, unless the warning about the
fine-grained lock fails. -/
theorem wp_cacheWlock_held (hash : Nat) : Wp (cacheWlock hash) w
    (fun ok w' => w'.held =
        (if ok then fineGrainedLock hash :: .global :: w.held else w.held) ∧
      (w.env.lockOk w.lockTries = true → w.env.lockOk (w.lockTries + 1) = false →
        w.env.emallocOk w.emallocs = true))
    fun w' => w'.held = w.held ∧ w.env.lockOk w.lockTries = false ∨
      w'.held = .global :: w.held ∧ w.env.lockOk w.lockTries = true ∧
        w.env.lockOk (w.lockTries + 1) = false ∧ w.env.emallocOk w.emallocs = false := by
  simp only [cacheWlock, wlock, wp_bind, wp_ite]
  refine wp_acquire_cases.mono (fun ok w₁ h₁ => ?_) fun w₁ h₁ => .inl ⟨h₁.2.2, h₁.1⟩
  obtain ⟨rfl, hok, rfl⟩ | ⟨rfl, hok, hem, rfl⟩ := h₁
  · simp only [if_true]
    refine wp_acquire_cases.mono (fun ok w₂ h₂ => ?_) fun w₂ h₂ => .inr ⟨h₂.2.2, hok, h₂.1, h₂.2.1⟩
    obtain ⟨rfl, hok', rfl⟩ | ⟨rfl, hok', hem, rfl⟩ := h₂
    · simp only [if_true, wp_pure, true_and]
      intro _ hno
      rw [hok'] at hno
      cases hno
    · simp only [Bool.false_eq_true, if_false, unlock, wp_modify, wp_pure,
        List.erase_cons_head, true_and]
      exact fun _ _ => hem
  · simp only [Bool.false_eq_true, if_false, wp_pure, true_and]
    intro hno
    rw [hok] at hno
    cases hno

/-- Whether a store whose entry has been made leaves a lock behind. -/
theorem storeStrands_iff {pool : Pool} {sp : Space} {php : Serializer υ} {depth p : Nat}
    {orig : Entry} {w₁ : World υ} (h : persist pool sp php depth orig w = .ok (some p) w₁) :
    StoreStrands pool sp php depth orig w ↔ w₁.env.lockOk w₁.lockTries = true ∧
      w₁.env.lockOk (w₁.lockTries + 1) = false ∧ w₁.env.emallocOk w₁.emallocs = false := by
  constructor
  · rintro ⟨p', w₂, h', hstrands⟩
    rw [h] at h'
    cases h'
    exact hstrands
  · exact fun hstrands => ⟨p, w₁, h, hstrands⟩

/-- The insertion does not touch the locks. -/
theorem insert_held {sp : Space} (p : Nat) (w : World υ) :
    (wlockedInsertExclusive sp p w).2.held = w.held := by
  unfold wlockedInsertExclusive
  dsimp only
  split <;> rfl

/-- `immutable_cache_cache_store`. -/
theorem wp_cacheStore_held {pool : Pool} {sp : Space} {php : Serializer υ} {depth key t : Nat}
    {val : Zval} (hheld : w.held = []) :
    Wp (cacheStore pool sp php depth key val t) w
      (fun _ w' => w'.held = [] ↔ ¬ StoreStrands pool sp php depth (initEntry key val t) w)
      fun w' => w'.held = [] ↔ ¬ StoreStrands pool sp php depth (initEntry key val t) w := by
  have hpersist : Balanced (persist pool sp php depth (initEntry key val t)) :=
    .persist depth (initEntry key val t)
  have hnone (h : ∀ p w₁, persist pool sp php depth (initEntry key val t) w ≠ .ok (some p) w₁) :
      ¬ StoreStrands pool sp php depth (initEntry key val t) w := by
    rintro ⟨p, w₁, hrun, -⟩
    exact h p w₁ hrun
  rw [cacheStore, wp_bind]
  refine (hpersist w).eq.mono (fun r w₁ h₁ => ?_) fun w₁ h₁ => ?_
  swap
  · refine iff_of_true (h₁.2.trans hheld) (hnone fun p w₂ h => ?_)
    rw [h₁.1] at h
    cases h
  obtain ⟨hrun, hh₁⟩ := h₁
  have hh₁ : w₁.held = [] := hh₁.trans hheld
  cases r with
  | none =>
    refine iff_of_true hh₁ (hnone fun p w₂ h => ?_)
    rw [hrun] at h
    cases h
  | some p =>
    rw [storeStrands_iff hrun]
    simp only [wp_bind, wp_get]
    refine (wp_cacheWlock_held _).mono (fun ok w₂ h₂ => ?_) fun w₂ h₂ => ?_
    · obtain ⟨hh₂, hok⟩ := h₂
      have hno : ¬ (w₁.env.lockOk w₁.lockTries = true ∧
          w₁.env.lockOk (w₁.lockTries + 1) = false ∧ w₁.env.emallocOk w₁.emallocs = false) := by
        rintro ⟨h1, h2, h3⟩
        rw [hok h1 h2] at h3
        cases h3
      have hfree {w₃ : World υ} (hh₃ : w₃.held = []) : Wp (smaFree pool p) w₃
          (fun _ w' => w'.held = []) fun w' => w'.held = [] :=
        (Balanced.smaFree p w₃).mono (fun _ _ h => h.trans hh₃) fun _ h => h.trans hh₃
      cases ok with
      | false =>
        simp only [Bool.false_eq_true, if_false, wp_bind]
        exact (hfree (hh₂.trans hh₁)).mono (fun _ _ h => iff_of_true h hno)
          fun _ h => iff_of_true h hno
      | true =>
        simp only [if_true, wp_bind, wp_ensuring, wp_modifyGet, cacheWunlock, unlock, wp_modify]
        have hh₃ : ((wlockedInsertExclusive sp p w₂).2.held.erase
            (fineGrainedLock (keyHash sp w₁.shm key))).erase .global = [] := by
          rw [insert_held, hh₂, if_pos rfl, List.erase_cons_head, List.erase_cons_head, hh₁]
        split
        · exact iff_of_true hh₃ hno
        · rw [wp_bind]
          exact (hfree hh₃).mono (fun _ _ h => iff_of_true h hno) fun _ h => iff_of_true h hno
    · obtain ⟨hh₂, hok⟩ | ⟨hh₂, h1, h2, h3⟩ := h₂
      · refine iff_of_true (hh₂.trans hh₁) ?_
        rintro ⟨h, -⟩
        rw [hok] at h
        cases h
      · refine iff_of_false ?_ (not_not_intro ⟨h1, h2, h3⟩)
        rw [hh₂]
        exact List.cons_ne_nil _ _

/-- The requests that are neither of the two. -/
theorem Request.balanced {r : Request υ} {pool : Pool} {php : Serializer υ}
    (hstore : ∀ key val t, r.call ≠ .store key val t) (hinfo : r.call ≠ .smaInfo false) :
    Balanced (r.run pool php) := by
  unfold Request.run
  cases hc : r.call with
  | store key val t => exact absurd hc (hstore key val t)
  | fetch key t => exact (Balanced.cacheFetch key t).map
  | find key t => exact (Balanced.cacheFind key t).map
  | exist key => exact (Balanced.cacheExists key).map
  | stat key => exact (Balanced.cacheStat key).map
  | info limited => exact (Balanced.cacheInfo limited).map
  | smaInfo limited =>
    cases limited with
    | false => exact absurd hc hinfo
    | true => exact Keeps.map ((Balanced.emallocN 2).bind fun _ => .pure _)
  | iteratorFetch it => exact (Balanced.fetchActive it).map
  | iteratorTotals it => exact (Balanced.iteratorTotals it).map

/-- A process that calls an operation without holding a lock holds none when the operation has
returned or bailed out, whatever the state of the cache is and whichever allocations and locks fail,
if and only if the operation does not take one of the two branches that leave a lock behind. -/
theorem held_final_iff (r : Request υ) (pool : Pool) (php : Serializer υ) (w : World υ)
    (hheld : w.held = []) : (final (r.run pool php) w).held = [] ↔ ¬ r.Strands pool php w := by
  have hfinal (h : Wp (r.run pool php) w (fun _ w' => w'.held = [] ↔ ¬ r.Strands pool php w)
      fun w' => w'.held = [] ↔ ¬ r.Strands pool php w) :
      (final (r.run pool php) w).held = [] ↔ ¬ r.Strands pool php w := wp_final.1 h
  have hother (hstore : ∀ key val t, r.call ≠ .store key val t) (hinfo : r.call ≠ .smaInfo false)
      (hno : ¬ r.Strands pool php w) :
      (final (r.run pool php) w).held = [] ↔ ¬ r.Strands pool php w := by
    have hb : Balanced (r.run pool php) := r.balanced hstore hinfo
    exact hfinal ((hb w).mono (fun _ _ h => iff_of_true (h.trans hheld) hno)
      fun _ h => iff_of_true (h.trans hheld) hno)
  cases hc : r.call with
  | store key val t =>
    refine hfinal ?_
    rw [Request.run, Request.Strands, hc]
    exact (wp_map _).2 (wp_cacheStore_held hheld)
  | smaInfo limited =>
    cases limited with
    | false =>
      refine hfinal ?_
      rw [Request.run, Request.Strands, hc]
      exact (wp_map _).2 ((wp_smaInfo hheld).mono (fun _ _ h => iff_of_true h.1 h.2) fun _ => id)
    | true =>
      refine hother (fun _ _ _ h => ?_) (fun h => ?_) fun h => ?_
      · rw [hc] at h
        cases h
      · rw [hc] at h
        cases h
      · rw [Request.Strands, hc] at h
        exact h
  | fetch _ _ | find _ _ | exist _ | stat _ | info _ | iteratorFetch _ | iteratorTotals _ =>
    refine hother (fun _ _ _ h => ?_) (fun h => ?_) fun h => ?_
    · rw [hc] at h
      cases h
    · rw [hc] at h
      cases h
    · rw [Request.Strands, hc] at h
      exact h

/-- The store of a number in the small cache. -/
theorem held_final_iff_small :
    (final (Small.storeA.run Small.pool Small.php) (Small.start (Small.env none))).held = [] ↔
      ¬ Small.storeA.Strands Small.pool Small.php (Small.start (Small.env none)) :=
  held_final_iff _ _ _ _ (by decide +kernel)

/-- `immutable_cache_sma_info` on a new cache, where the third allocation fails, which is that of
the first link. -/
theorem smaInfo_strands : Created Small.pool (Small.start (Small.env (some 2))) ∧
    (Small.start (Small.env (some 2))).held = [] ∧
    (⟨Small.sp, 0, .smaInfo false⟩ : Request Bytes).Legal Small.pool Small.zend
      (Small.start (Small.env (some 2))) ∧
    (final ((⟨Small.sp, 0, .smaInfo false⟩ : Request Bytes).run Small.pool Small.php)
      (Small.start (Small.env (some 2)))).held ≠ [] :=
  ⟨Small.created_of (by decide +kernel), by decide +kernel, ⟨Small.on, trivial⟩,
    by decide +kernel⟩

end ImmutableCache
