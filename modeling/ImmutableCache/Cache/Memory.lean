import ImmutableCache.Cache.World
import ImmutableCache.Sma.Malloc

/-!
# Locks and allocation

What the small programs of `World` do. Allocating in the request heap, acquiring and releasing
locks and calling a serializer leave the shared state alone (`World.Same`); `smaMalloc` gives a
payload that was not live and changes only the allocator; `smaFree` of a live payload takes just
that one away.
-/

namespace ImmutableCache

open Bail

variable {υ : Type} {w w' w₁ : World υ} {pool : Pool} {live : Nat → Option Nat} {n p sz : Nat}

/-- The shared state and the process's cache structure are the same. -/
def World.Same (w w' : World υ) : Prop :=
  w' = { w with
    lockTries := w'.lockTries, emallocs := w'.emallocs, held := w'.held
    callbacks := w'.callbacks, warnings := w'.warnings, thrown := w'.thrown }

namespace World.Same

/-- A state is the same as itself. -/
theorem refl (w : World υ) : w.Same w := rfl

/-- Two changes that leave what is shared alone, one after the other. -/
theorem trans (h : w.Same w₁) (h' : w₁.Same w') : w.Same w' := by
  rw [World.Same] at *
  rw [h', h]

/-- The relation is symmetric. -/
theorem symm (h : w.Same w') : w'.Same w := by
  rw [World.Same] at *
  rw [h]

/-- The environment stays. -/
theorem env (h : w.Same w') : w'.env = w.env := by rw [h]

/-- The allocator stays. -/
theorem sma (h : w.Same w') : w'.sma = w.sma := by rw [h]

/-- The shared memory stays. -/
theorem shm (h : w.Same w') : w'.shm = w.shm := by rw [h]

/-- The list of the blocks that have been freed stays. -/
theorem freed (h : w.Same w') : w'.freed = w.freed := by rw [h]

/-- The same change of the allocator on both sides. -/
theorem setSma (h : w.Same w₁) {s : Sma} (h' : { w₁ with sma := s }.Same w') :
    { w with sma := s }.Same w' := by
  rw [World.Same] at *
  rw [h', h]

end World.Same

/-! ## Programs that allocate and lock -/

section

/-- Allocating in the request heap, acquiring a lock and releasing it lead to related states. -/
structure Permits (R : World υ → World υ → Prop) : Prop where
  emalloc : Within R emalloc
  acquire : ∀ l msg, Within R (acquire l msg)
  unlock : ∀ l, Within R (unlock l)

variable {R : World υ → World υ → Prop} [IsPreorder (World υ) R]

/-- Several allocations in the request heap lead to related states if one does. -/
theorem within_emallocN (h : Within R emalloc) (n : Nat) : Within R (emallocN n) := by
  induction n with
  | zero => exact .pure ()
  | succ n ih => exact h.bind fun _ => ih

/-- Several calls of `serialize` lead to related states if one does. -/
theorem within_serializeN {serializer : Serializer υ} (h : Within R (callback serializer none))
    (n : Nat) : Within R (serializeN serializer n) := by
  induction n with
  | zero => exact .pure ()
  | succ n ih => exact h.bind fun _ => ih

/-- `immutable_cache_cache_wlock` is made of steps that are permitted. -/
theorem Permits.cacheWlock (h : Permits R) (hash : Nat) : Within R (cacheWlock hash) := by
  refine (h.acquire _ _).bind fun _ => .ite ((h.acquire _ _).bind fun _ => .ite (.pure _) ?_)
    (.pure _)
  exact (h.unlock _).bind fun _ => .pure _

/-- So is `immutable_cache_cache_wunlock`. -/
theorem Permits.cacheWunlock (h : Permits R) (hash : Nat) : Within R (cacheWunlock hash) :=
  (h.unlock _).bind fun _ => h.unlock _

end

/-! ## Programs that leave the shared state alone -/

/-- The program leaves the shared state alone, whether it returns or bails out. -/
def Harmless {α : Type} (x : Op υ α) : Prop := ∀ w : World υ, Wp x w (fun _ w' => w.Same w') w.Same

instance : IsPreorder (World υ) World.Same where
  refl := .refl
  trans _ _ _ := .trans

namespace Harmless

variable {α β : Type} {x : Op υ α}

/-- A harmless program leads to a state with the same shared part, also when it bails out. -/
theorem within (hx : Harmless x) : Within World.Same x := hx

/-- A program that only gives a value is harmless. -/
theorem pure (a : α) : Harmless (pure a : Op υ α) := fun w => .refl w

/-- To bail out is harmless. -/
theorem bailout : Harmless (bailout : Op υ α) := fun w => .refl w

/-- Two harmless programs in a row are harmless. -/
theorem bind {f : α → Op υ β} (hx : Harmless x) (hf : ∀ a, Harmless (f a)) :
    Harmless (x >>= f) := hx.within.bind hf

/-- An update that leaves what is shared alone is harmless. -/
theorem of_modify {f : World υ → World υ} (h : ∀ w : World υ, w.Same (f w)) :
    Harmless (modify f : Op υ PUnit) := h

/-- To read the state is harmless. -/
theorem get : Harmless (MonadState.get : Op υ (World υ)) := fun w => .refl w

/-- A function of the result of a harmless program. -/
theorem map {f : α → β} (hx : Harmless x) : Harmless (f <$> x) := hx.within.map

/-- A harmless program with a harmless `finally` clause. -/
theorem ensuring {fin : Op υ Unit} (hx : Harmless x) (hfin : Harmless fin) :
    Harmless (ensuring x fin) := hx.within.ensuring hfin

/-- A choice of two harmless programs. -/
theorem ite {c : Prop} [Decidable c] {y : Op υ α} (hx : Harmless x) (hy : Harmless y) :
    Harmless (if c then x else y) := hx.within.ite hy

/-- An allocation in the request heap is harmless, and so is its failure. -/
theorem emalloc : Harmless (emalloc : Op υ Unit) := by
  intro w
  simp only [ImmutableCache.emalloc, wp_bind, wp_get, wp_set, wp_ite]
  split <;> exact rfl

/-- So are several of them. -/
theorem emallocN (n : Nat) : Harmless (emallocN n : Op υ Unit) := within_emallocN emalloc n

/-- A warning is harmless, even where a handler turns it into an exception. -/
theorem warning (msg : String) : Harmless (warning msg : Op υ Unit) :=
  emalloc.bind fun _ => .of_modify fun _ => rfl

/-- The environment decides whether a lock is acquired. -/
theorem wp_acquire {l : Lock} {msg : String} : Wp (acquire l msg) w
    (fun ok w' => w.Same w' ∧ ok = w.env.lockOk w.lockTries)
    fun w' => w.Same w' ∧ w.env.lockOk w.lockTries = false := by
  simp only [ImmutableCache.acquire, wp_bind, wp_get, wp_set, wp_ite]
  split
  next hok => exact ⟨rfl, hok.symm⟩
  next hok =>
    have hok : w.env.lockOk w.lockTries = false := by simpa using hok
    have h₀ : w.Same { w with lockTries := w.lockTries + 1 } := rfl
    exact (warning msg _).mono (fun _ _ h => ⟨h₀.trans h, hok.symm⟩) fun _ h => ⟨h₀.trans h, hok⟩

/-- An attempt to acquire a lock is harmless, and so is its failure. -/
theorem acquire (l : Lock) (msg : String) : Harmless (acquire l msg : Op υ Bool) :=
  fun _ => wp_acquire.mono (fun _ _ h => h.1) fun _ h => h.1

/-- An attempt to acquire a lock for writing is harmless. -/
theorem wlock (l : Lock) : Harmless (wlock l : Op υ Bool) := .acquire l _

/-- An attempt to acquire a lock for reading is harmless. -/
theorem rlock (l : Lock) : Harmless (rlock l : Op υ Bool) := .acquire l _

/-- To release a lock is harmless. -/
theorem unlock (l : Lock) : Harmless (unlock l : Op υ Unit) := .of_modify fun _ => rfl

/-- The parts of an operation that only lock and allocate keep what is shared. -/
theorem permits : Permits fun w w' : World υ => w.Same w' := ⟨emalloc, acquire, unlock⟩

/-- `immutable_cache_cache_wlock` is harmless. -/
theorem cacheWlock (hash : Nat) : Harmless (cacheWlock hash : Op υ Bool) := permits.cacheWlock hash

/-- `immutable_cache_cache_wunlock` is harmless. -/
theorem cacheWunlock (hash : Nat) : Harmless (cacheWunlock hash : Op υ Unit) :=
  permits.cacheWunlock hash

/-- A call of a serializer's function is harmless: it does not call the cache. -/
theorem callback (serializer : Serializer υ) (entry : Option Nat) :
    Harmless (callback serializer entry) := by
  intro w
  simp only [ImmutableCache.callback, wp_bind, wp_modify]
  have h₀ : w.Same { w with
      callbacks := w.callbacks ++ [⟨serializer, entry, w.held⟩] } := rfl
  exact (emalloc _).mono (fun _ _ h => h₀.trans h) fun _ h => h₀.trans h

/-- Several calls of `serialize` are harmless. -/
theorem serializeN (serializer : Serializer υ) (n : Nat) : Harmless (serializeN serializer n) :=
  within_serializeN (callback serializer none) n

end Harmless

/-! ## What locking and allocating leave alone -/

/-- The part of the state that locking and allocating do not change. -/
def World.rest (w : World υ) :=
  (w.env, w.callbacks, w.header, w.slots, w.serializer, w.loadedSerializer)

namespace Keeps

/-- An allocation in the request heap keeps the rest of the state. -/
theorem emalloc : Keeps World.rest (emalloc : Op υ Unit) := by
  intro w
  simp only [ImmutableCache.emalloc, wp_bind, wp_get, wp_set, wp_ite]
  split <;> exact rfl

/-- So do several of them. -/
theorem emallocN (n : Nat) : Keeps World.rest (emallocN n : Op υ Unit) := within_emallocN emalloc n

/-- A warning keeps it. -/
theorem warning (msg : String) : Keeps World.rest (warning msg : Op υ Unit) :=
  emalloc.bind fun _ => .of_modify fun _ => rfl

/-- An attempt to acquire a lock keeps it. -/
theorem acquire (l : Lock) (msg : String) : Keeps World.rest (acquire l msg : Op υ Bool) := by
  intro w
  simp only [ImmutableCache.acquire, wp_bind, wp_get, wp_set, wp_ite]
  split
  · rfl
  · exact (warning _) { w with lockTries := w.lockTries + 1 }

/-- An attempt to acquire a lock for writing keeps it. -/
theorem wlock (l : Lock) : Keeps World.rest (wlock l : Op υ Bool) := acquire l _

/-- To release a lock keeps it. -/
theorem unlock (l : Lock) : Keeps World.rest (unlock l : Op υ Unit) := .of_modify fun _ => rfl

/-- The parts of an operation that only lock and allocate keep it. -/
theorem permits : Permits fun w w' : World υ => w'.rest = w.rest := ⟨emalloc, acquire, unlock⟩

/-- `immutable_cache_cache_wlock` keeps it. -/
theorem cacheWlock (hash : Nat) : Keeps World.rest (cacheWlock hash : Op υ Bool) :=
  permits.cacheWlock hash

/-- `immutable_cache_cache_wunlock` keeps it. -/
theorem cacheWunlock (hash : Nat) : Keeps World.rest (cacheWunlock hash : Op υ Unit) :=
  permits.cacheWunlock hash

/-- An attempt to allocate in a segment changes the allocator only. -/
theorem smaTry (i n : Nat) : Keeps World.rest (smaTry pool i n : Op υ (Option Nat)) := fun _ => rfl

/-- So does the loop over the segments. -/
theorem smaMallocLoop (n last : Nat) (is : List Nat) :
    Keeps World.rest (smaMallocLoop pool n last is : Op υ (Option Nat)) := by
  induction is with
  | nil => exact .pure _
  | cons i is ih =>
    rw [ImmutableCache.smaMallocLoop]
    refine .ite ih ((wlock _).bind fun _ => .ite ((smaTry i n).bind fun r => ?_) (.pure _))
    cases r with
    | some p => exact Keeps.bind (.of_modify fun _ => rfl) fun _ => (unlock _).bind fun _ => .pure _
    | none => exact (unlock _).bind fun _ => ih

/-- So does `immutable_cache_sma_malloc`. -/
theorem smaMalloc (n : Nat) : Keeps World.rest (smaMalloc pool n : Op υ (Option Nat)) := by
  refine Keeps.get.bind fun w => (wlock _).bind fun _ =>
    .ite ((smaTry w.sma.last n).bind fun r => ?_) (.pure _)
  cases r with
  | some p => exact (unlock _).bind fun _ => .pure _
  | none => exact (unlock _).bind fun _ => smaMallocLoop n _ _

/-- So does `immutable_cache_sma_free`. -/
theorem smaFree (p : Nat) : Keeps World.rest (smaFree pool p : Op υ Unit) := by
  unfold ImmutableCache.smaFree
  refine Keeps.bind (.of_modify fun _ => rfl) fun _ => ?_
  cases pool.segmentOf p with
  | some i =>
    refine (wlock _).bind fun _ => .ite ?_ (.pure _)
    exact Keeps.bind (.of_modify fun _ => rfl) fun _ => unlock _
  | none => exact (warning _).bind fun _ => .bailout

end Keeps

/-! ## Programs that bail out only for lack of memory -/

/-- The program bails out only if an allocation in the request heap fails. -/
def Steady {α : Type} (x : Op υ α) : Prop := ∀ w : World υ,
  Wp x w (fun _ w' => w'.env = w.env) fun w' => w'.env = w.env ∧ ∃ n, w.env.emallocOk n = false

namespace Steady

variable {α β : Type} {x : Op υ α}

/-- A program that only gives a value is steady. -/
theorem pure (a : α) : Steady (pure a : Op υ α) := fun _ => rfl

/-- To read the state is steady. -/
theorem get : Steady (MonadState.get : Op υ (World υ)) := fun _ => rfl

/-- An update that leaves the environment alone is steady. -/
theorem of_modify {f : World υ → World υ} (h : ∀ w : World υ, (f w).env = w.env) :
    Steady (modify f : Op υ PUnit) := h

/-- Two steady programs in a row are steady. -/
theorem bind {f : α → Op υ β} (hx : Steady x) (hf : ∀ a, Steady (f a)) : Steady (x >>= f) := by
  intro w
  rw [wp_bind]
  refine (hx w).mono (fun a w₁ h => ?_) fun _ => id
  exact (hf a w₁).mono (fun _ _ h' => h'.trans h) fun _ h' => ⟨h'.1.trans h, h ▸ h'.2⟩

/-- A function of the result of a steady program. -/
theorem map {f : α → β} (hx : Steady x) : Steady (f <$> x) := by
  intro w
  rw [wp_map]
  exact hx w

/-- A steady program with a steady `finally` clause. -/
theorem ensuring {fin : Op υ Unit} (hx : Steady x) (hfin : Steady fin) :
    Steady (ensuring x fin) := by
  intro w
  rw [wp_ensuring]
  refine (hx w).mono (fun _ w₁ h => ?_) fun w₁ h => ?_
  · exact (hfin w₁).mono (fun _ _ h' => h'.trans h) fun _ h' => ⟨h'.1.trans h, h ▸ h'.2⟩
  · exact (hfin w₁).mono (fun _ _ h' => ⟨h'.trans h.1, h.2⟩) fun _ h' => ⟨h'.1.trans h.1, h.2⟩

/-- A choice of two steady programs. -/
theorem ite {c : Prop} [Decidable c] {y : Op υ α} (hx : Steady x) (hy : Steady y) :
    Steady (if c then x else y) := by
  split
  · exact hx
  · exact hy

/-- An allocation in the request heap is steady. -/
theorem emalloc : Steady (emalloc : Op υ Unit) := by
  intro w
  simp only [ImmutableCache.emalloc, wp_bind, wp_get, wp_set, wp_ite]
  split
  next => rfl
  next hno => exact ⟨rfl, _, eq_false_of_ne_true hno⟩

/-- So are several of them. -/
theorem emallocN (n : Nat) : Steady (emallocN n : Op υ Unit) := by
  induction n with
  | zero => exact .pure _
  | succ n ih => exact emalloc.bind fun _ => ih

/-- A warning is steady. -/
theorem warning (msg : String) : Steady (warning msg : Op υ Unit) :=
  emalloc.bind fun _ => .of_modify fun _ => rfl

/-- A call of a serializer's function is steady. -/
theorem callback (serializer : Serializer υ) (entry : Option Nat) :
    Steady (callback serializer entry) := by
  intro w
  simp only [ImmutableCache.callback, wp_bind, wp_modify]
  exact emalloc { w with callbacks := w.callbacks ++ [⟨serializer, entry, w.held⟩] }

/-- An attempt to acquire a lock is steady. -/
theorem acquire (l : Lock) (msg : String) : Steady (acquire l msg : Op υ Bool) := by
  intro w
  simp only [ImmutableCache.acquire, wp_bind, wp_get, wp_set, wp_ite]
  split
  · rfl
  · exact (warning msg) { w with lockTries := w.lockTries + 1 }

/-- To release a lock is steady. -/
theorem unlock (l : Lock) : Steady (unlock l : Op υ Unit) := .of_modify fun _ => rfl

/-- With enough memory the program returns. -/
theorem ok (h : Steady x) (w : World υ) (hw : ∀ n, w.env.emallocOk n = true) :
    ∃ a w', x w = .ok a w' ∧ w'.env = w.env := by
  have hwp := h w
  unfold Wp at hwp
  cases hx : x w with
  | ok a w' =>
    rw [hx] at hwp
    exact ⟨a, w', rfl, hwp⟩
  | error u w' =>
    rw [hx] at hwp
    obtain ⟨-, n, hn⟩ := hwp
    rw [hw n] at hn
    cases hn

end Steady

/-- Unless an attempt to acquire a lock fails, a writer gets both of its locks. -/
theorem wp_cacheWlock (hash : Nat) : Wp (cacheWlock hash) w
    (fun ok w' => w.Same w' ∧ (ok = true ∨ ∃ n, w.env.lockOk n = false))
    fun w' => w.Same w' ∧ ∃ n, w.env.lockOk n = false := by
  simp only [cacheWlock, wlock, wp_bind, wp_ite]
  refine (Harmless.wp_acquire (w := w)).mono (fun ok w₁ h₁ => ?_) fun _ h => ⟨h.1, _, h.2⟩
  split
  next hok =>
    refine (Harmless.wp_acquire (w := w₁)).mono (fun ok w₂ h₂ => ?_) fun _ h =>
      ⟨h₁.1.trans h.1, _, h₁.1.env ▸ h.2⟩
    have h₂' := h₁.1.trans h₂.1
    split
    next => exact ⟨h₂', .inl rfl⟩
    next hno =>
      simp only [unlock, wp_modify, wp_pure]
      exact ⟨h₂'.trans rfl, .inr ⟨_, h₁.1.env ▸ h₂.2 ▸ eq_false_of_ne_true hno⟩⟩
  next hno => exact ⟨h₁.1, .inr ⟨_, h₁.2 ▸ eq_false_of_ne_true hno⟩⟩

/-! ## Allocation -/

/-- What an allocation in the shared segments leaves: a new payload of at least `n` bytes, or the
allocator as it was. -/
def Malloced (pool : Pool) (live : Nat → Option Nat) (n : Nat) (w : World υ) (r : Option Nat)
    (w' : World υ) : Prop :=
  w.Same w' ∧ r = none ∨ ∃ p s sz, r = some p ∧ { w with sma := s }.Same w' ∧ n ≤ sz ∧
    live p = none ∧ pool.Ok s (Function.update live p (some sz))

/-- What is said of an allocation holds of the state before it, too, if nothing shared has changed
in between. -/
theorem Malloced.of_same {r : Option Nat} (h : w.Same w₁) (h' : Malloced pool live n w₁ r w') :
    Malloced pool live n w r w' := by
  obtain ⟨hs, hr⟩ | ⟨p, s, sz, hr, hs, hp⟩ := h'
  · exact .inl ⟨h.trans hs, hr⟩
  · exact .inr ⟨p, s, sz, hr, h.setSma hs, hp⟩

/-- An attempt in one segment: nothing, or a new payload, whichever segment is tried first from
then on. -/
theorem wp_smaTry {i : Nat} (h : pool.Ok w.sma live) (hi : i < pool.num)
    (hn : n + blockSize + 8 ≤ 2 ^ 64) :
    Wp (smaTry pool i n) w (fun r w' => w.Same w' ∧ r = none ∨
      ∃ p s sz, r = some p ∧ w' = { w with sma := s } ∧ n ≤ sz ∧ live p = none ∧
        s.last = w.sma.last ∧
        ∀ last < pool.num, pool.Ok { s with last := last } (Function.update live p (some sz)))
      fun _ => False := by
  obtain ⟨cs, hcs⟩ := h
  simp only [smaTry, wp_bind, wp_get, wp_set, wp_pure]
  rcases hcs.allocate hi hn with ⟨he, -⟩ | ⟨off, sz, he, hle, hlive, hok⟩
  · rw [he]
    exact .inl ⟨rfl, rfl⟩
  · rw [he]
    exact .inr ⟨_, _, sz, rfl, rfl, hle, hlive, rfl, hok⟩

/-- The loop over the segments. -/
theorem wp_smaMallocLoop {last : Nat} (hn : n + blockSize + 8 ≤ 2 ^ 64) {is : List Nat}
    (his : ∀ i ∈ is, i < pool.num) (h : pool.Ok w.sma live) :
    Wp (smaMallocLoop pool n last is) w (Malloced pool live n w) w.Same := by
  induction is generalizing w with
  | nil => exact .inl ⟨.refl w, rfl⟩
  | cons i is ih =>
    have his' : ∀ j ∈ is, j < pool.num := fun j hj => his j (by simp [hj])
    rw [smaMallocLoop, wp_ite]
    split
    · exact ih his' h
    rw [wp_bind]
    refine (Harmless.wlock .global w).mono (fun ok w₁ h₁ => ?_) fun _ => id
    have hok₁ : pool.Ok w₁.sma live := by rwa [h₁.sma]
    rw [wp_ite]
    split
    next =>
      rw [wp_bind]
      refine (wp_smaTry hok₁ (his i (by simp)) hn).mono (fun r w₂ h₂ => ?_) fun _ => False.elim
      obtain ⟨hs, rfl⟩ | ⟨p, s, sz, rfl, rfl, hle, hlive, -, hok⟩ := h₂
      · have h₂ := h₁.trans hs
        simp only [wp_bind]
        refine (Harmless.unlock .global w₂).mono (fun _ w₃ h₃ => ?_) fun _ h₃ => h₂.trans h₃
        have h₃ := h₂.trans h₃
        exact (ih his' (by rwa [h₃.sma])).mono (fun _ _ h₄ => .of_same h₃ h₄) fun _ h₄ => h₃.trans h₄
      · refine .of_same h₁ (.inr ⟨p, _, sz, rfl, ?_, hle, hlive, hok i (his i (by simp))⟩)
        exact rfl
    next => exact .inl ⟨h₁, rfl⟩

/-- `immutable_cache_sma_malloc`. -/
theorem wp_smaMalloc (hn : n + blockSize + 8 ≤ 2 ^ 64) (h : pool.Ok w.sma live) :
    Wp (smaMalloc pool n) w (Malloced pool live n w) w.Same := by
  have hlast : w.sma.last < pool.num := h.elim fun _ hcs => hcs.last_lt
  simp only [smaMalloc, wp_bind, wp_get]
  refine (Harmless.wlock .global w).mono (fun ok w₁ h₁ => ?_) fun _ => id
  have hok₁ : pool.Ok w₁.sma live := by rwa [h₁.sma]
  rw [wp_ite]
  split
  next =>
    rw [wp_bind]
    refine (wp_smaTry hok₁ hlast hn).mono (fun r w₂ h₂ => ?_) fun _ => False.elim
    obtain ⟨hs, rfl⟩ | ⟨p, s, sz, rfl, rfl, hle, hlive, hs, hok⟩ := h₂
    · have h₂ := h₁.trans hs
      simp only [wp_bind]
      refine (Harmless.unlock .global w₂).mono (fun _ w₃ h₃ => ?_) fun _ h₃ => h₂.trans h₃
      have h₃ := h₂.trans h₃
      exact (wp_smaMallocLoop hn (by simp) (by rwa [h₃.sma])).mono (fun _ _ h₄ => .of_same h₃ h₄)
        fun _ h₄ => h₃.trans h₄
    · have hok' := hok s.last (by rwa [hs, h₁.sma])
      refine .of_same h₁ (.inr ⟨p, s, sz, rfl, ?_, hle, hlive, hok'⟩)
      exact rfl
  next => exact .inl ⟨h₁, rfl⟩

/-- `immutable_cache_sma_free` of a live payload: it is freed, unless the lock could not be
acquired. -/
theorem wp_smaFree (h : pool.Ok w.sma live) (hp : live p = some sz) :
    Wp (smaFree pool p) w
      (fun _ w' => ∃ s, { w with sma := s, freed := p :: w.freed }.Same w' ∧
        (pool.Ok s (Function.update live p none) ∨
          pool.Ok s live ∧ ∃ n, w.env.lockOk n = false))
      fun w' => { w with freed := p :: w.freed }.Same w' ∧ ∃ n, w.env.lockOk n = false := by
  obtain ⟨cs, hcs⟩ := h
  obtain ⟨i, hi, hseg, hok⟩ := hcs.deallocate hp
  simp only [smaFree, wlock, wp_bind, wp_modify, hseg]
  refine (Harmless.wp_acquire (w := { w with freed := p :: w.freed })).mono (fun ok w₁ h₁ => ?_)
    fun _ h₁ => ⟨h₁.1, _, h₁.2⟩
  obtain ⟨h₁, hlock⟩ := h₁
  rw [wp_ite]
  split
  next =>
    simp only [unlock, wp_bind, wp_modify]
    refine ⟨w.sma.deallocate i (p - pool.shmaddr i), h₁.setSma ?_, .inl hok⟩
    rw [World.Same, h₁.sma]
  next hno => exact ⟨w.sma, h₁, .inr ⟨⟨cs, hcs⟩, _, hlock ▸ eq_false_of_ne_true hno⟩⟩

/-! ## The programs and the calls of the allocator -/

/-- The loop only asks for the locks of the segments it tries. -/
theorem mallocLoop_congr {allocate : Sma → Nat → Option (Nat × Nat) × Sma}
    {lock lock' : Nat → Bool} {last : Nat} : ∀ {is : List Nat} {sma : Sma},
    (∀ i ∈ is, lock i = lock' i) →
    mallocLoop lock allocate last is sma = mallocLoop lock' allocate last is sma
  | [], _, _ => rfl
  | i :: is, sma, h => by
    have ih : ∀ sma, mallocLoop lock allocate last is sma = mallocLoop lock' allocate last is sma :=
      fun sma => mallocLoop_congr fun j hj => h j (by simp [hj])
    simp only [mallocLoop, ih, h i (by simp)]

/-- An attempt in one segment is a call of `sma_allocate`. -/
theorem wp_smaTry_eq {i : Nat} : Wp (smaTry pool i n) w
    (fun r w' => r = (w.sma.allocate i n).1.map (fun a => pool.shmaddr i + a.1) ∧
      w'.sma = (w.sma.allocate i n).2) fun _ => False := by
  simp only [smaTry, wp_bind, wp_get, wp_set, wp_pure, and_self]

/-- The loop over the segments is a run of `mallocLoop`, for some outcomes of the attempts to lock a
segment. -/
theorem wp_smaMallocLoop_eq {last : Nat} {is : List Nat} (hnd : is.Nodup) :
    Wp (smaMallocLoop pool n last is) w (fun r w' => ∃ lock x,
      mallocLoop lock (fun sma i => sma.allocate i n) last is w.sma = (x, w'.sma) ∧
      r = x.map fun a => pool.shmaddr a.1 + a.2.1) fun _ => True := by
  induction is generalizing w with
  | nil => exact ⟨fun _ => true, none, rfl, rfl⟩
  | cons i is ih =>
    obtain ⟨hi, hnd⟩ := List.nodup_cons.1 hnd
    rw [smaMallocLoop, wp_ite]
    split
    next hlast =>
      refine (ih hnd).mono (fun r w' h => ?_) fun _ => id
      obtain ⟨lock, x, h, hr⟩ := h
      exact ⟨lock, x, by rw [mallocLoop, if_pos hlast]; exact h, hr⟩
    next hlast =>
      rw [wp_bind]
      refine (Harmless.wlock .global w).mono (fun ok w₁ h₁ => ?_) fun _ _ => trivial
      rw [wp_ite]
      split
      next =>
        rw [wp_bind]
        refine wp_smaTry_eq.mono (fun r w₂ h₂ => ?_) fun _ => False.elim
        obtain ⟨rfl, h₂⟩ := h₂
        rw [h₁.sma] at h₂ ⊢
        cases ha : w.sma.allocate i n with
        | mk r sma =>
          rw [ha] at h₂
          cases r with
          | some a =>
            refine ⟨fun _ => true, some (i, a), ?_, rfl⟩
            rw [mallocLoop, if_neg hlast, if_pos rfl, ha]
            exact congrArg (Prod.mk _) (congrArg (fun s : Sma => { s with last := i }) h₂.symm)
          | none =>
            simp only [Option.map_none, wp_bind]
            refine (Harmless.unlock .global w₂).mono (fun _ w₃ h₃ => ?_) fun _ _ => trivial
            refine (ih hnd).mono (fun r w' h => ?_) fun _ => id
            obtain ⟨lock, x, h, hr⟩ := h
            refine ⟨Function.update lock i true, x, ?_, hr⟩
            rw [mallocLoop, if_neg hlast, Function.update_self, if_pos rfl, ha]
            rw [h₃.sma, h₂] at h
            refine Eq.trans (mallocLoop_congr fun j hj => ?_) h
            rw [Function.update_of_ne]
            rintro rfl
            exact hi hj
      next =>
        refine ⟨fun _ => false, none, ?_, rfl⟩
        rw [mallocLoop, if_neg hlast, if_neg (by decide), h₁.sma]

/-- The last segment is not tried again. -/
theorem mallocLoop_update {allocate : Sma → Nat → Option (Nat × Nat) × Sma} {lock : Nat → Bool}
    {last : Nat} {ok : Bool} : ∀ {is : List Nat} {sma : Sma},
    mallocLoop (Function.update lock last ok) allocate last is sma =
      mallocLoop lock allocate last is sma
  | [], _ => rfl
  | i :: is, sma => by
    have ih : ∀ sma, mallocLoop (Function.update lock last ok) allocate last is sma =
      mallocLoop lock allocate last is sma := fun sma => mallocLoop_update
    rw [mallocLoop, mallocLoop]
    simp only [ih]
    split
    next => rfl
    next hi => rw [Function.update_of_ne hi]

/-- A call that is refused the first lock. -/
theorem mallocWith_refused {allocate : Sma → Nat → Option (Nat × Nat) × Sma} {sma : Sma} :
    pool.mallocWith (fun _ => false) allocate sma = (none, sma) := rfl

/-- A call whose first segment has a block. -/
theorem mallocWith_some (pool : Pool) (lock : Nat → Bool)
    (allocate : Sma → Nat → Option (Nat × Nat) × Sma) {sma sma' : Sma} {a : Nat × Nat}
    (hl : lock sma.last = true) (h : allocate sma sma.last = (some a, sma')) :
    pool.mallocWith lock allocate sma = (some (pool.shmaddr sma.last + a.1, a.2), sma') := by
  rw [Pool.mallocWith]
  dsimp only
  rw [if_pos hl, h]

/-- A call whose first segment has none goes on with the others. -/
theorem mallocWith_none {allocate : Sma → Nat → Option (Nat × Nat) × Sma} {lock : Nat → Bool}
    {sma sma' sma'' : Sma} {x : Option (Nat × Nat × Nat)} (h : allocate sma sma.last = (none, sma'))
    (hloop : mallocLoop lock allocate sma.last (List.range pool.num) sma' = (x, sma'')) :
    pool.mallocWith (Function.update lock sma.last true) allocate sma =
      (x.map fun a => (pool.shmaddr a.1 + a.2.1, a.2.2), sma'') := by
  rw [Pool.mallocWith]
  dsimp only
  rw [Function.update_self, if_pos rfl, h]
  dsimp only
  rw [mallocLoop_update, hloop]

/-- `smaMalloc` is a call of `immutable_cache_sma_malloc_ex`, for some outcomes of its attempts to
lock a segment. -/
theorem wp_smaMalloc_eq : Wp (smaMalloc pool n) w
    (fun r w' => ∃ lock x, pool.mallocEx lock w.sma n = (x, w'.sma) ∧ r = x.map Prod.fst)
    fun _ => True := by
  simp only [smaMalloc, wp_bind, wp_get]
  refine (Harmless.wlock .global w).mono (fun ok w₁ h₁ => ?_) fun _ _ => trivial
  rw [wp_ite]
  split
  next =>
    rw [wp_bind]
    refine wp_smaTry_eq.mono (fun r w₂ h₂ => ?_) fun _ => False.elim
    obtain ⟨rfl, h₂⟩ := h₂
    rw [h₁.sma] at h₂ ⊢
    cases ha : w.sma.allocate w.sma.last n with
    | mk r sma =>
      rw [ha] at h₂
      cases r with
      | some a =>
        have hsma : w₂.sma = sma := h₂
        rw [← hsma] at ha
        have he := mallocWith_some pool (fun _ => true) (fun sma i => sma.allocate i n) rfl ha
        exact ⟨_, _, he, rfl⟩
      | none =>
        simp only [Option.map_none, wp_bind]
        refine (Harmless.unlock .global w₂).mono (fun _ w₃ h₃ => ?_) fun _ _ => trivial
        refine (wp_smaMallocLoop_eq List.nodup_range).mono (fun r w' h => ?_) fun _ => id
        obtain ⟨lock, x, h, rfl⟩ := h
        rw [h₃.sma, h₂] at h
        have he := mallocWith_none ha h
        exact ⟨_, _, he, by rw [Option.map_map]; rfl⟩
  next =>
    refine ⟨fun _ => false, none, ?_, rfl⟩
    rw [h₁.sma]
    exact mallocWith_refused

/-- `smaFree` of a pointer into a segment is a call of `immutable_cache_sma_free`, for some outcome
of its attempt to lock the segment. -/
theorem wp_smaFree_eq {i : Nat} (hseg : pool.segmentOf p = some i) : Wp (smaFree pool p) w
    (fun _ w' => ∃ lock, w'.sma = pool.free lock w.sma p) fun _ => True := by
  have hfree : ∀ lock, pool.free lock w.sma p =
      if lock then w.sma.deallocate i (p - pool.shmaddr i) else w.sma := by
    intro lock
    rw [Pool.free, hseg]
  simp only [smaFree, wlock, wp_bind, wp_modify, hseg]
  refine (Harmless.wp_acquire (w := { w with freed := p :: w.freed })).mono (fun ok w₁ h₁ => ?_)
    fun _ _ => trivial
  obtain ⟨h₁, -⟩ := h₁
  rw [wp_ite]
  split
  next =>
    simp only [unlock, wp_bind, wp_modify]
    exact ⟨true, by rw [hfree, if_pos rfl, h₁.sma]⟩
  next => exact ⟨false, by rw [hfree, if_neg (by decide), h₁.sma]⟩

end ImmutableCache
