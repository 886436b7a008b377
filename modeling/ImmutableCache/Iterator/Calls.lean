import ImmutableCache.Cache.History
import ImmutableCache.Iterator.Chunk

/-!
# Sequences of calls of the methods

The methods of an iterator share an index into the stack, and the slot of the next chunk. In a
sequence of calls the index stays within the stack, and `current` and `key` read inside it, as long
as `next` is called at an item, no chunk is too large for an `int`, and a fetch that is due gets the
lock (`iterRun_placed`). Calling `next` twice at the last item takes the index out of the stack
(`iterRun_not_placed`).
-/

namespace ImmutableCache

open Bail

variable {υ : Type} {sp : Space} {php : Serializer υ} {w w' : World υ} {it it' : Iterator υ}

/-- The methods that iterate. -/
inductive IterCall where
  | rewind
  | valid
  | current
  | key
  | next
  deriving DecidableEq

/-- What a method returns. -/
inductive IterOutcome (υ : Type) where
  | done
  | valid (ret : Bool)
  | current (r : Got (ItemValue υ))
  | key (r : Got Nat)

/-- Call a method. -/
def IterCall.run (c : IterCall) (sp : Space) (php : Serializer υ) (it : Iterator υ) :
    Op υ (IterOutcome υ × Iterator υ) :=
  match c with
  | .rewind => (fun it => (.done, it)) <$> iteratorRewind sp php it
  | .valid => (fun r => (.valid r.1, r.2)) <$> iteratorValid sp php it
  | .current => (fun r => (.current r.1, r.2)) <$> iteratorCurrent sp php it
  | .key => (fun r => (.key r.1, r.2)) <$> iteratorKey sp php it
  | .next => pure (.done, iteratorNext it)

/-- A call, with the iterator and the state of the cache that it met, and its outcome. -/
structure IterEvent (υ : Type) where
  before : Iterator υ
  world : World υ
  call : IterCall
  outcome : IterOutcome υ

/-- A call returns. -/
def IterStep (sp : Space) (php : Serializer υ) (it : Iterator υ) (e : IterEvent υ)
    (it' : Iterator υ) : Prop :=
  e.before = it ∧ ∃ w', e.call.run sp php it e.world = .ok (e.outcome, it') w'

/-- The next attempt to acquire a lock succeeds. -/
def World.Grants (w : World υ) : Prop := w.env.lockOk w.lockTries = true

instance : Decidable w.Grants := inferInstanceAs (Decidable (_ = true))

namespace Iterator

/-- The index is at the size of the stack, so that a fetch is due. -/
def Due (it : Iterator υ) : Prop := it.stack.size = it.stackIdx

/-- The index lies within the stack, whose size an `int` can hold. -/
structure Placed (it : Iterator υ) : Prop where
  nonneg : 0 ≤ it.stackIdx
  le : it.stackIdx ≤ it.stack.data.length
  bound : it.stack.data.length < 2 ^ 31

/-- The chunk that a fetch would read is not too large for an `int`. -/
def Fits (it : Iterator υ) (sp : Space) (w : World υ) : Prop :=
  w.Grants → (it.chunk sp w).length < 2 ^ 31

/-- `rewind` before its fetch. -/
def rewound (it : Iterator υ) : Iterator υ := { it with slotIdx := 0, stackIdx := 0, keyIdx := 0 }

end Iterator

/-- `next` is called at an item or on an empty stack, the chunks fit, and a fetch that is due
between two chunks gets the lock; so does one that is due at the start, in `valid`, unless there is
nothing left to fetch. -/
def IterEvent.Sound (e : IterEvent υ) (sp : Space) : Prop :=
  match e.call with
  | .rewind => e.before.rewound.Fits sp e.world
  | .valid => e.before.Due → e.before.Fits sp e.world ∧
      (e.world.Grants ∨ e.before.stackIdx = 0 ∧ e.before.chunk sp e.world = [])
  | .current | .key => e.before.Due → e.before.Fits sp e.world ∧
      (e.world.Grants ∨ e.before.stackIdx = 0)
  | .next => e.before.stack.data = [] ∨ e.before.stackIdx < e.before.stack.data.length

instance (e : IterEvent υ) (sp : Space) : Decidable (e.Sound sp) := by
  unfold IterEvent.Sound Iterator.Due Iterator.Fits
  split <;> infer_instance

namespace Iterator.Placed

/-- A new iterator is in place. -/
theorem init (search : Search) (format chunkSize : Nat) :
    (Iterator.init search format chunkSize : Iterator υ).Placed :=
  ⟨le_rfl, le_rfl, by simp [Iterator.init, Stack.create]⟩

variable (h : it.Placed)

include h

/-- A chunk is due when the index is at the end of the stack. -/
theorem due_iff : it.Due ↔ it.stackIdx = it.stack.data.length := by
  rw [Iterator.Due, Stack.size_eq h.bound, eq_comm]

/-- There is an item at an index below the size. -/
theorem get? (hlt : it.stackIdx < it.stack.data.length) :
    ∃ item rest, it.stack.data.drop it.stackIdx.toNat = item :: rest ∧
      it.stack.get? (it.stackIdx % 2 ^ 64).toNat = some item := by
  have h0 := h.nonneg
  have hb := h.bound
  have hmod : (it.stackIdx % 2 ^ 64).toNat = it.stackIdx.toNat := by
    rw [Int.emod_eq_of_lt h0 (by omega)]
  have hn : it.stackIdx.toNat < it.stack.data.length := by omega
  refine ⟨_, _, List.drop_eq_getElem_cons hn, ?_⟩
  rw [hmod]
  exact List.getElem?_eq_getElem hn

/-- A fetch that gets the lock, or begins at the start of the stack. -/
theorem fetchActive (hfits : it.Fits sp w) (hlock : w.Grants ∨ it.stackIdx = 0) :
    Wp (fetchActive sp php it) w (fun r w' => w.Same w' ∧ r.2.Placed ∧ r.2.stackIdx = 0 ∧
      r.1 = r.2.stack.data.length ∧
      (w.Grants → r.2.stack.data = (it.chunk sp w).map (it.itemOf sp php w) ∧
        r.2 = { it with stack := r.2.stack, slotIdx := it.chunkEnd sp w, stackIdx := 0 }) ∧
      (¬ w.Grants → r.1 = 0 ∧ r.2 = { it with stack := r.2.stack })) fun _ => True := by
  refine (wp_fetchActive h.bound).mono (fun r w₁ h₁ => ?_) fun _ => id
  obtain ⟨hs, s, ⟨hg, hcount, hr, hdata⟩ | ⟨hg, rfl, hdata⟩⟩ := h₁
  · have hlen : s.data.length = (it.chunk sp w).length := by rw [hdata, List.length_map]
    refine ⟨hs, ?_, by rw [hr], by rw [hr, hcount]; exact hlen.symm, fun _ => ?_,
      fun hno => absurd hg hno⟩
    · rw [hr]
      exact ⟨le_rfl, by simp, hlen ▸ hfits hg⟩
    · rw [hr]
      exact ⟨hdata, rfl⟩
  · have hng : ¬ w.Grants := by
      rw [World.Grants, hg]
      decide
    have h0 := hlock.resolve_left hng
    refine ⟨hs, ⟨h0.ge, ?_, ?_⟩, h0, ?_, fun hyes => absurd hyes hng, fun _ => ⟨rfl, rfl⟩⟩
    · dsimp only
      rw [h0, hdata]
      exact le_rfl
    · dsimp only
      rw [hdata]
      exact Nat.two_pow_pos 31
    · dsimp only
      rw [hdata]
      rfl

/-- `valid` finds an item at the index, or in the next chunk, or there is nothing left to fetch. -/
theorem valid (hdue : it.Due → it.Fits sp w ∧
      (w.Grants ∨ it.stackIdx = 0 ∧ it.chunk sp w = [])) :
    Wp (iteratorValid sp php it) w (fun r w' => w.Same w' ∧ r.2.Placed ∧
      (¬ it.Due ∧ r = (true, it) ∨
        it.Due ∧ r.1 = true ∧ it.chunk sp w ≠ [] ∧
          r.2.stack.data = (it.chunk sp w).map (it.itemOf sp php w) ∧
          r.2 = { it with stack := r.2.stack, slotIdx := it.chunkEnd sp w, stackIdx := 0 } ∨
        it.Due ∧ r.1 = false ∧ it.chunk sp w = [] ∧ r.2.stack.data = [] ∧
          r.2.stackIdx = 0 ∧ r.2.chunk sp w = [])) fun _ => True := by
  have hsize {it' : Iterator υ} (h' : it'.Placed) :
      decide (it'.stack.size ≠ 0) = true ↔ it'.stack.data ≠ [] := by
    rw [decide_eq_true_eq, Stack.size_eq h'.bound, ← List.length_pos_iff_ne_nil]
    omega
  unfold iteratorValid
  by_cases hd : it.stack.size = it.stackIdx
  · rw [if_pos hd]
    simp only [wp_bind, wp_map]
    have hfits := (hdue hd).1
    have hlock := (hdue hd).2
    refine (h.fetchActive hfits (hlock.imp_right And.left)).mono (fun r w₁ h₁ => ?_) fun _ => id
    obtain ⟨hs, hplaced, h0, hcount, hgranted, hrefused⟩ := h₁
    rw [wp_pure]
    dsimp only
    refine ⟨hs, hplaced, .inr ?_⟩
    by_cases hg : w.Grants
    · obtain ⟨hdata, hr⟩ := hgranted hg
      by_cases hchunk : it.chunk sp w = []
      · have hnil : r.2.stack.data = [] := by rw [hdata, hchunk, List.map_nil]
        refine .inr ⟨hd, ?_, hchunk, hnil, h0, r.2.chunk_of_le sp w ?_⟩
        · rw [← Bool.not_eq_true, hsize hplaced, not_not]
          exact hnil
        · rw [hr]
          exact it.le_chunkEnd_of_nil sp w hchunk
      · refine .inl ⟨hd, (hsize hplaced).2 fun hnil => hchunk ?_, hchunk, hdata, hr⟩
        rw [hdata] at hnil
        exact List.map_eq_nil_iff.1 hnil
    · obtain ⟨hz, hr⟩ := hrefused hg
      have hchunk := (hlock.resolve_left hg).2
      have hnil : r.2.stack.data = [] := List.eq_nil_of_length_eq_zero (hcount.symm.trans hz)
      have halike : it.Alike { it with stack := r.2.stack } := ⟨rfl, rfl, rfl, rfl⟩
      refine .inr ⟨hd, ?_, hchunk, hnil, h0, ?_⟩
      · rw [← Bool.not_eq_true, hsize hplaced, not_not]
        exact hnil
      · rw [hr, halike.chunk rfl, hchunk]
  · rw [if_neg hd]
    have hne : it.stack.data ≠ [] := by
      intro hnil
      refine hd (h.due_iff.2 ?_)
      have h1 := h.le
      have h2 := h.nonneg
      rw [hnil] at h1 ⊢
      simp only [List.length_nil] at h1 ⊢
      omega
    rw [wp_bind, wp_pure, wp_pure]
    dsimp only
    exact ⟨.refl w, h, .inl ⟨hd, by rw [(hsize h).2 hne]⟩⟩

/-- There is an item at the index unless a fetch is due. -/
theorem lt_of_not_due (hd : ¬ it.Due) : it.stackIdx < it.stack.data.length := by
  have h1 := h.le
  have hne : it.stackIdx ≠ it.stack.data.length := fun he => hd (h.due_iff.2 he)
  omega

/-- `current` and `key` get an item, or throw. -/
theorem iteratorGet (msg : String) (hdue : it.Due → it.Fits sp w ∧ (w.Grants ∨ it.stackIdx = 0)) :
    Wp (iteratorGet sp php msg it) w (fun r w' => w.Same w' ∧ r.2.Placed ∧
      ((∃ item, r.1 = .item item) ∨ r.1 = .threw msg) ∧
      (it.stackIdx < it.stack.data.length → ∃ item rest,
        it.stack.data.drop it.stackIdx.toNat = item :: rest ∧ r = (.item item, it)) ∧
      (it.Due → it.chunk sp w = [] → r.1 = .threw msg)) fun _ => True := by
  unfold ImmutableCache.iteratorGet
  by_cases hd : it.stack.size = it.stackIdx
  · rw [if_pos hd]
    have hend : ¬ it.stackIdx < it.stack.data.length := by
      rw [h.due_iff.1 hd]
      exact lt_irrefl _
    have hfits := (hdue hd).1
    have hlock := (hdue hd).2
    simp only [wp_bind, wp_ite]
    refine (h.fetchActive hfits hlock).mono (fun r w₁ h₁ => ?_) fun _ => id
    obtain ⟨hs, hplaced, h0, hcount, hgranted, hrefused⟩ := h₁
    split
    next hz =>
      refine (Harmless.emalloc w₁).mono (fun _ w₂ h₂ => ?_) fun _ _ => trivial
      exact ⟨hs.trans h₂, hplaced, .inr rfl, fun hlt => absurd hlt hend, fun _ _ => rfl⟩
    next hz =>
      obtain ⟨item, rest, -, hget⟩ := hplaced.get? (by omega)
      rw [hget]
      refine ⟨hs, hplaced, .inl ⟨item, rfl⟩, fun hlt => absurd hlt hend, fun _ hnil => ?_⟩
      -- an empty chunk would have left the stack empty
      refine absurd ?_ hz
      by_cases hg : w.Grants
      · rw [hcount, (hgranted hg).1, hnil]
        rfl
      · exact (hrefused hg).1
  · rw [if_neg hd]
    have hlt := h.lt_of_not_due hd
    obtain ⟨item, rest, hdrop, hget⟩ := h.get? hlt
    simp only [wp_bind, wp_pure, one_ne_zero, if_false, hget]
    exact ⟨.refl w, h, .inl ⟨item, rfl⟩, fun _ => ⟨item, rest, hdrop, rfl⟩,
      fun hdue => absurd hdue hd⟩

/-- `next` at an item moves the index by one. -/
theorem next (hat : it.stack.data = [] ∨ it.stackIdx < it.stack.data.length) :
    (iteratorNext it).Placed := by
  have hb := h.bound
  have h0 := h.nonneg
  unfold iteratorNext
  split
  next => exact h
  next hne =>
    have hlt : it.stackIdx < it.stack.data.length := by
      refine hat.resolve_left fun hnil => hne ?_
      rw [Stack.size_eq hb, hnil]
      rfl
    have hidx : toInt (it.stackIdx + 1) = it.stackIdx + 1 := by
      unfold toInt
      rw [Int.bmod_def]
      omega
    exact ⟨by dsimp only; omega, by dsimp only; omega, hb⟩

/-- `current` gets an item where `key` does. -/
theorem current (hdue : it.Due → it.Fits sp w ∧ (w.Grants ∨ it.stackIdx = 0)) :
    Wp (iteratorCurrent sp php it) w (fun r w' => w.Same w' ∧ r.2.Placed ∧
      r.1 ≠ .outOfRange ∧
      (it.stackIdx < it.stack.data.length → ∃ item rest,
        it.stack.data.drop it.stackIdx.toNat = item :: rest ∧ r = (.item item.value, it)) ∧
      (it.Due → it.chunk sp w = [] → ∃ msg, r.1 = .threw msg)) fun _ => True := by
  rw [iteratorCurrent, wp_bind]
  refine (h.iteratorGet _ hdue).mono (fun r w₁ h₁ => ?_) fun _ => id
  obtain ⟨hs, hplaced, hkind, hitem, hthrew⟩ := h₁
  obtain ⟨got, it₁⟩ := r
  dsimp only at hplaced hkind hthrew
  obtain ⟨item, rfl⟩ | rfl := hkind
  · refine ⟨hs, hplaced, nofun, fun hlt => ?_, fun hd hnil => by cases hthrew hd hnil⟩
    obtain ⟨item', rest, hdrop, heq⟩ := hitem hlt
    cases heq
    exact ⟨_, rest, hdrop, rfl⟩
  · refine ⟨hs, hplaced, nofun, fun hlt => ?_, fun _ _ => ⟨_, rfl⟩⟩
    obtain ⟨item', rest, -, heq⟩ := hitem hlt
    cases heq

/-- What `key` gives: the key of the item at the index, or the next chunk first. -/
theorem key (hdue : it.Due → it.Fits sp w ∧ (w.Grants ∨ it.stackIdx = 0)) :
    Wp (iteratorKey sp php it) w (fun r w' => w.Same w' ∧ r.2.Placed ∧
      r.1 ≠ .outOfRange ∧
      (it.stackIdx < it.stack.data.length → ∃ item rest,
        it.stack.data.drop it.stackIdx.toNat = item :: rest ∧ r = (.item item.key, it)))
      fun _ => True := by
  rw [iteratorKey, wp_bind]
  refine (h.iteratorGet _ hdue).mono (fun r w₁ h₁ => ?_) fun _ => id
  obtain ⟨hs, hplaced, hkind, hitem, -⟩ := h₁
  obtain ⟨got, it₁⟩ := r
  dsimp only at hplaced hkind
  obtain ⟨item, rfl⟩ | rfl := hkind
  · refine ⟨hs, hplaced, nofun, fun hlt => ?_⟩
    obtain ⟨item', rest, hdrop, heq⟩ := hitem hlt
    cases heq
    exact ⟨_, rest, hdrop, rfl⟩
  · refine ⟨hs, hplaced, nofun, fun hlt => ?_⟩
    obtain ⟨item', rest, -, heq⟩ := hitem hlt
    cases heq

/-- `rewind` starts over at the first slot. -/
theorem rewound : it.rewound.Placed := ⟨le_rfl, Int.natCast_nonneg _, h.bound⟩

end Iterator.Placed

/-! ## Sequences of calls -/

/-- A sound call keeps the index within the stack, and reads inside it. -/
theorem IterStep.placed {e : IterEvent υ} (h : IterStep sp php it e it') (hp : it.Placed)
    (hs : e.Sound sp) :
    it'.Placed ∧ e.outcome ≠ .current .outOfRange ∧ e.outcome ≠ .key .outOfRange := by
  obtain ⟨rfl, w', hrun⟩ := h
  unfold IterEvent.Sound at hs
  suffices hwp : Wp (e.call.run sp php e.before) e.world (fun r _ => r.2.Placed ∧
      r.1 ≠ .current .outOfRange ∧ r.1 ≠ .key .outOfRange) fun _ => True from (hwp.of_ok hrun :)
  generalize e.call = c at hs
  cases c with
  | rewind =>
    rw [IterCall.run, wp_map, iteratorRewind, wp_map]
    refine (hp.rewound.fetchActive hs (.inr rfl)).mono (fun r _ h₁ => ?_) fun _ => id
    exact ⟨h₁.2.1, nofun, nofun⟩
  | valid =>
    rw [IterCall.run, wp_map]
    exact (hp.valid hs).mono (fun r _ h₁ => ⟨h₁.2.1, nofun, nofun⟩) fun _ => id
  | current =>
    rw [IterCall.run, wp_map]
    refine (hp.current hs).mono (fun r _ h₁ => ⟨h₁.2.1, fun heq => ?_, nofun⟩) fun _ => id
    exact h₁.2.2.1 (IterOutcome.current.inj heq)
  | key =>
    rw [IterCall.run, wp_map]
    refine (hp.key hs).mono (fun r _ h₁ => ⟨h₁.2.1, nofun, fun heq => ?_⟩) fun _ => id
    exact h₁.2.2.1 (IterOutcome.key.inj heq)
  | next => exact ⟨hp.next hs, nofun, nofun⟩

/-- After `valid` there is an item at the index, if it has said so. -/
theorem Iterator.Placed.of_valid {b : Bool} (hp : it.Placed)
    (hs : (⟨it, w, .valid, .valid b⟩ : IterEvent υ).Sound sp)
    (h : iteratorValid sp php it w = .ok (b, it') w') :
    it'.Placed ∧ (b = true → it'.stackIdx < it'.stack.data.length) ∧
      (b = false → it'.Due ∧ it'.stackIdx = 0 ∧ it'.chunk sp w' = []) := by
  obtain ⟨hsame, hp', hcases⟩ := Wp.of_ok (hp.valid hs) h
  obtain ⟨hd, heq⟩ | ⟨-, rfl, hne, hdata, hr⟩ | ⟨-, rfl, -, hnil, h0, hchunk⟩ := hcases
  · cases heq
    exact ⟨hp', fun _ => hp.lt_of_not_due hd, nofun⟩
  · refine ⟨hp', fun _ => ?_, nofun⟩
    dsimp only at hdata hr
    have hpos : 0 < (it.chunk sp w).length := List.length_pos_iff_ne_nil.2 hne
    rw [hdata, List.length_map, hr]
    exact Int.natCast_pos.2 hpos
  · refine ⟨hp', nofun, fun _ => ⟨hp'.due_iff.2 ?_, h0, ?_⟩⟩
    · rw [h0, hnil]
      rfl
    · rw [hsame.chunk]
      exact hchunk

/-- `valid` is right about a `current` that follows. -/
theorem Iterator.Placed.valid_current (hp : it.Placed) {b : Bool} {g : Got (ItemValue υ)}
    {it'' : Iterator υ} {w'' : World υ}
    (hs : (⟨it, w, .valid, .valid b⟩ : IterEvent υ).Sound sp)
    (hvalid : iteratorValid sp php it w = .ok (b, it') w')
    (hcurrent : iteratorCurrent sp php it' w' = .ok (g, it'') w'') :
    b = true ↔ ∃ v, g = .item v := by
  obtain ⟨hp', htrue, hfalse⟩ := hp.of_valid hs hvalid
  cases b with
  | true =>
    have hlt := htrue rfl
    have hndue : ¬ it'.Due := fun hd => by
      rw [hp'.due_iff.1 hd] at hlt
      exact lt_irrefl _ hlt
    obtain ⟨-, -, -, hitem, -⟩ := Wp.of_ok (hp'.current fun hd => absurd hd hndue) hcurrent
    obtain ⟨item, -, -, heq⟩ := hitem hlt
    exact ⟨fun _ => ⟨_, (Prod.mk.inj heq).1⟩, fun _ => rfl⟩
  | false =>
    obtain ⟨hdue, h0, hchunk⟩ := hfalse rfl
    have hfits : it'.Fits sp w' := fun _ => by
      rw [hchunk]
      exact Nat.two_pow_pos 31
    obtain ⟨-, -, -, -, hthrew⟩ := Wp.of_ok (hp'.current fun _ => ⟨hfits, .inr h0⟩) hcurrent
    obtain ⟨msg, hmsg⟩ := hthrew hdue hchunk
    refine ⟨nofun, ?_⟩
    rintro ⟨v, rfl⟩
    cases hmsg

/-- In every sequence of sound calls, in any order and on any tables: the index stays within the
stack, `current` and `key` read inside it, and `valid` is right about a `current` that follows. -/
theorem iterRun_placed {search : Search} {format chunkSize : Nat} {evs : List (IterEvent υ)}
    (h : Run (IterStep sp php) (.init search format chunkSize) evs it)
    (hs : ∀ e ∈ evs, e.Sound sp) :
    (0 ≤ it.stackIdx ∧ it.stackIdx ≤ it.stack.data.length) ∧
      (∀ e ∈ evs, e.outcome ≠ .current .outOfRange ∧ e.outcome ≠ .key .outOfRange) ∧
      ∀ w b it' w' g it'' w'', (⟨it, w, .valid, .valid b⟩ : IterEvent υ).Sound sp →
        iteratorValid sp php it w = .ok (b, it') w' →
        iteratorCurrent sp php it' w' = .ok (g, it'') w'' → (b = true ↔ ∃ v, g = .item v) := by
  have hrun : ∀ {it₀ : Iterator υ}, it₀.Placed → Run (IterStep sp php) it₀ evs it →
      it.Placed ∧ ∀ e ∈ evs, e.outcome ≠ .current .outOfRange ∧ e.outcome ≠ .key .outOfRange := by
    intro it₀ hp hr
    clear h
    induction hr with
    | nil => exact ⟨hp, by simp⟩
    | cons h1 _ ih =>
      obtain ⟨hp₁, hout⟩ := h1.placed hp (hs _ (by simp))
      obtain ⟨hp', hall⟩ := ih (fun e he => hs e (by simp [he])) hp₁
      exact ⟨hp', List.forall_mem_cons.2 ⟨hout, hall⟩⟩
  obtain ⟨hp, hall⟩ := hrun (.init search format chunkSize) h
  exact ⟨⟨hp.nonneg, hp.le⟩, hall, fun _ _ _ _ _ _ _ hsv hv hc => hp.valid_current hsv hv hc⟩

/-! ## Calls on a fixed table -/

/-- Call methods one after the other, on one table. -/
def iterCalls (sp : Space) (php : Serializer υ) (w : World υ) :
    Iterator υ → List IterCall → Option (List (IterEvent υ) × Iterator υ)
  | it, [] => some ([], it)
  | it, c :: cs =>
    match c.run sp php it w with
    | .ok (o, it') _ => (iterCalls sp php w it' cs).map fun r => (⟨it, w, c, o⟩ :: r.1, r.2)
    | .error _ _ => none

/-- Calls on one table are a run of the iterator. -/
theorem iterCalls_run {cs : List IterCall} {evs : List (IterEvent υ)}
    (h : iterCalls sp php w it cs = some (evs, it')) : Run (IterStep sp php) it evs it' := by
  induction cs generalizing it evs with
  | nil =>
    cases h
    exact .nil
  | cons c cs ih =>
    rw [iterCalls] at h
    split at h
    next o it₁ w₁ hr =>
      obtain ⟨⟨evs₁, it₂⟩, h₁, heq⟩ := Option.map_eq_some_iff.1 h
      cases heq
      exact .cons ⟨rfl, w₁, hr⟩ (ih h₁)
    next => cases h

/-- So a run with a property is found by making the calls. -/
theorem iterCalls_any (sp : Space) (php : Serializer υ) (w : World υ) (it : Iterator υ)
    (cs : List IterCall) (f : List (IterEvent υ) × Iterator υ → Bool)
    (h : (iterCalls sp php w it cs).any f = true) :
    ∃ evs it', Run (IterStep sp php) it evs it' ∧ f (evs, it') = true := by
  cases hr : iterCalls sp php w it cs with
  | none =>
    rw [hr] at h
    cases h
  | some r =>
    rw [hr] at h
    exact ⟨r.1, r.2, iterCalls_run hr, h⟩

namespace Small

/-- The small cache with the number 1 stored under `"a"`. -/
def filled : World Bytes :=
  match storeA.run pool Small.php (start (env none)) with
  | .ok _ w => w
  | .error _ w => w

/-- An iterator over all entries that gives their keys. -/
def iterator : Iterator Bytes := .init .all 2 0

end Small

/-- The calls of a loop over the small table. -/
theorem iterRun_placed_small : ∃ evs it,
    Run (IterStep Small.sp Small.php) Small.iterator evs it ∧ evs.length = 6 ∧
      it.stackIdx ≤ it.stack.data.length := by
  obtain ⟨evs, it, hrun, hs⟩ := iterCalls_any Small.sp Small.php Small.filled
    Small.iterator [.rewind, .valid, .key, .current, .next, .valid]
    (fun r => decide (r.1.length = 6 ∧ ∀ e ∈ r.1, e.Sound Small.sp)) (by decide +kernel)
  obtain ⟨hlen, hs⟩ := of_decide_eq_true hs
  exact ⟨evs, it, hrun, hlen, (iterRun_placed hrun hs).1.2⟩

/-- A second `next` at the last item takes the index out of the stack, and `current` reads there. -/
theorem iterRun_not_placed : ∃ evs it,
    Run (IterStep Small.sp Small.php) Small.iterator evs it ∧
      ¬ it.stackIdx ≤ it.stack.data.length ∧ ∃ e ∈ evs, e.outcome = .current .outOfRange := by
  obtain ⟨evs, it, hrun, hs⟩ := iterCalls_any Small.sp Small.php Small.filled
    Small.iterator [.rewind, .next, .next, .current]
    (fun r => decide (¬ r.2.stackIdx ≤ r.2.stack.data.length) &&
      r.1.any fun e => match e.outcome with
        | .current .outOfRange => true
        | _ => false) (by decide +kernel)
  obtain ⟨hidx, hout⟩ := Bool.and_eq_true_iff.1 hs
  obtain ⟨e, he, hout⟩ := List.any_eq_true.1 hout
  refine ⟨evs, it, hrun, of_decide_eq_true hidx, e, he, ?_⟩
  split at hout
  next heq => exact heq
  next => cases hout

end ImmutableCache
