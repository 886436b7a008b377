import ImmutableCache.Cache.Locks
import ImmutableCache.Iterator.Chunk

/-!
# User code under a lock

A serializer's function may run user code, which must not find a lock held, since it could call the
cache again (what such a call does is not modelled, see `callback`). A store serializes before it
takes a lock, and a fetch releases its lock before it unserializes. An iterator that is asked for the
values unserializes them under the global lock: `immutable_cache_iterator_item_ctor` is called inside
the loop over the slots (`callbacks_unlocked_iff`).
-/

namespace ImmutableCache

open Bail

section

variable {υ α β : Type} {w w' : World υ} {pool : Pool} {sp : Space} {php : Serializer υ}
  {it it' : Iterator υ} {p : Nat}

/-! ## The calls of serializer functions -/

/-- The calls of serializer functions since `w`. -/
def World.callbacksSince (w w' : World υ) : List (Callback υ) :=
  w'.callbacks.drop w.callbacks.length

/-- Since `w`, serializer functions have been called only as `C` allows. -/
def Calls (C : Callback υ → Prop) (w w' : World υ) : Prop :=
  ∃ new, w'.callbacks = w.callbacks ++ new ∧ ∀ c ∈ new, C c

/-- The program calls serializer functions only as `C` allows in the state at its start. -/
def CallsOnly (C : World υ → Callback υ → Prop) (x : Op υ α) : Prop :=
  ∀ w : World υ, Wp x w (fun _ => Calls (C w) w) (Calls (C w) w)

/-- The program calls serializer functions only with the locks that are held at its start. -/
abbrev Outside (x : Op υ α) : Prop := CallsOnly (fun w c => c.held = w.held) x

/-- The program calls no serializer function. -/
abbrev Silent (x : Op υ α) : Prop := Keeps World.callbacks x

variable {C D : Callback υ → Prop}

instance : IsPreorder (World υ) (Calls C) where
  refl w := ⟨[], (List.append_nil _).symm, fun _ h => absurd h List.not_mem_nil⟩
  trans := by
    rintro w w₁ w' ⟨new, h, hall⟩ ⟨new', h', hall'⟩
    refine ⟨new ++ new', by rw [h', h, List.append_assoc], fun c hc => ?_⟩
    rcases List.mem_append.1 hc with hc | hc
    · exact hall c hc
    · exact hall' c hc

namespace Calls

/-- Where nothing is called, everything called is allowed. -/
theorem of_eq (h : w'.callbacks = w.callbacks) : Calls C w w' :=
  ⟨[], by rw [h, List.append_nil], fun _ h => absurd h List.not_mem_nil⟩

/-- One call that is allowed. -/
theorem one {c : Callback υ} (hc : C c) (h : w'.callbacks = w.callbacks ++ [c]) : Calls C w w' :=
  ⟨[c], h, fun _ hd => List.mem_singleton.1 hd ▸ hc⟩

/-- Calls that are allowed, and then more of them. -/
theorem trans {w₁ : World υ} (h : Calls C w w₁) (h' : Calls C w₁ w') : Calls C w w' :=
  trans_of (Calls C) h h'

/-- What `C` allows may be allowed by `D`. -/
theorem mono (h : Calls C w w') (hCD : ∀ c, C c → D c) : Calls D w w' := by
  obtain ⟨new, hnew, hall⟩ := h
  exact ⟨new, hnew, fun c hc => hCD c (hall c hc)⟩

/-- The calls since `w` are those that are allowed. -/
theorem since (h : Calls C w w') : ∀ c ∈ w.callbacksSince w', C c := by
  obtain ⟨new, hnew, hall⟩ := h
  rw [World.callbacksSince, hnew, List.drop_left]
  exact hall

/-- A silent program calls nothing. -/
theorem of_silent {x : Op υ α} (h : Silent x) : Within (Calls C) x := fun w =>
  (h w).mono (fun _ _ => .of_eq) fun _ => .of_eq

end Calls

namespace CallsOnly

variable {C D : World υ → Callback υ → Prop} {x : Op υ α}

/-- A silent program calls only what is allowed. -/
theorem of_silent (h : Silent x) : CallsOnly C x := fun w =>
  (h w).mono (fun _ _ => .of_eq) fun _ => .of_eq

/-- The first part does not change what is allowed. -/
theorem bind {f : α → Op υ β} (hx : CallsOnly C x) (hC : Keeps C x) (hf : ∀ a, CallsOnly C (f a)) :
    CallsOnly C (x >>= f) := by
  intro w
  rw [wp_bind]
  refine ((hx w).and (hC w)).mono (fun a w₁ h => ?_) fun _ h => h.1
  have hlater := hf a w₁
  rw [h.2] at hlater
  exact hlater.mono (fun _ _ => h.1.trans) fun _ => h.1.trans

/-- A silent program after another one adds no calls. -/
theorem bind_silent {f : α → Op υ β} (hx : CallsOnly C x) (hf : ∀ a, Silent (f a)) :
    CallsOnly C (x >>= f) := by
  intro w
  rw [wp_bind]
  refine (hx w).mono (fun a w₁ h => ?_) fun _ => id
  exact (Calls.of_silent (hf a) w₁).mono (fun _ _ => h.trans) fun _ => h.trans

/-- A function of the result adds no calls. -/
theorem map {f : α → β} (hx : CallsOnly C x) : CallsOnly C (f <$> x) := by
  intro w
  rw [wp_map]
  exact hx w

/-- What `C` allows may be allowed by `D`. -/
theorem mono (hx : CallsOnly C x) (hCD : ∀ w c, C w c → D w c) : CallsOnly D x := fun w =>
  (hx w).mono (fun _ _ h => h.mono (hCD w)) fun _ h => h.mono (hCD w)

end CallsOnly

/-! ## The operations that serialize and unserialize outside the locks -/

/-- A program that changes only locks, allocations and the allocator is silent. -/
theorem Silent.of_rest {x : Op υ α} (h : Keeps World.rest x) : Silent x :=
  h.of_eq (fun r => r.2.1) fun _ => rfl

/-- The parts of an operation that lock and allocate call nothing. -/
theorem permits_silent : Permits fun w w' : World υ => w'.callbacks = w.callbacks :=
  ⟨Silent.of_rest Keeps.emalloc, fun l msg => Silent.of_rest (Keeps.acquire l msg),
    fun l => Silent.of_rest (Keeps.unlock l)⟩

/-- `immutable_cache_cache_find` is silent. -/
theorem Silent.cacheFind (key t : Nat) : Silent (cacheFind sp key t : Op υ (Option Nat)) := by
  refine Keeps.get.bind fun _ => Keeps.bind (permits_silent.acquire _ _) fun _ =>
    .ite (Keeps.bind (.of_modifyGet fun w => ?_) fun _ =>
      Keeps.bind (permits_silent.unlock _) fun _ => .pure _) (.pure _)
  unfold rlockedFind
  dsimp only
  split <;> dsimp only <;> split <;> rfl

namespace CallsOnly

variable {C : World υ → Callback υ → Prop} {x : Op υ α}

/-- A call of a serializer's function, if it is allowed in every state. -/
theorem callback {serializer : Serializer υ} {entry : Option Nat}
    (h : ∀ w, C w ⟨serializer, entry, w.held⟩) : CallsOnly C (callback serializer entry) := by
  intro w
  simp only [ImmutableCache.callback, wp_bind, wp_modify]
  have hcall : Calls (C w) w
      { w with callbacks := w.callbacks ++ [⟨serializer, entry, w.held⟩] } := .one (h w) rfl
  exact (Calls.of_silent permits_silent.emalloc _).mono (fun _ _ => hcall.trans)
    fun _ => hcall.trans

/-- A serialization, with the locks that are held. -/
abbrev serializing (w : World υ) (c : Callback υ) : Prop := c.held = w.held ∧ c.entry = none

/-- A balanced program keeps what `serializing` allows. -/
theorem keeps_serializing (h : Balanced x) : Keeps serializing x :=
  h.of_eq (fun held c => c.held = held ∧ c.entry = none) fun _ => rfl

/-- A balanced program keeps the locks that a call is compared with. -/
theorem keeps_held (h : Balanced x) : Keeps (fun w (c : Callback υ) => c.held = w.held) x :=
  h.of_eq (fun held c => c.held = held) fun _ => rfl

/-- Several calls of `serialize`. -/
theorem serializeN (serializer : Serializer υ) (n : Nat) :
    CallsOnly serializing (serializeN serializer n) := by
  induction n with
  | zero => exact of_silent (.pure _)
  | succ n ih =>
    exact (callback fun _ => ⟨rfl, rfl⟩).bind (keeps_serializing (Balanced.callback _ _)) fun _ => ih

/-- `immutable_cache_persist` calls only `serialize`, with the locks that it began with. -/
theorem persist (depth : Nat) (orig : Entry) :
    CallsOnly serializing (persist pool sp php depth orig) := by
  refine bind (of_silent .get) .get fun w =>
    bind (of_silent (Silent.of_rest (Keeps.emallocN _))) (keeps_serializing (Balanced.emallocN _))
      fun _ => (serializeN _ _).bind_silent fun _ => Keeps.bind (.of_modify fun _ => rfl) fun _ => ?_
  refine .ite (Keeps.bind (Silent.of_rest (Keeps.smaMalloc _)) fun r => ?_) (.pure none)
  cases r with
  | some p => exact Silent.of_rest (Keeps.persistInto _ p _)
  | none => exact .pure none

/-- `immutable_cache_cache_store` calls only `serialize`, with the locks that it began with. -/
theorem cacheStore (depth key : Nat) (val : Zval) (t : Nat) :
    CallsOnly serializing (cacheStore pool sp php depth key val t) := by
  refine (persist _ _).bind_silent fun r => ?_
  cases r with
  | none => exact .pure false
  | some p =>
    have hinsert : Silent (modifyGet (wlockedInsertExclusive sp p) : Op υ Bool) := by
      refine .of_modifyGet fun w => ?_
      unfold wlockedInsertExclusive
      dsimp only
      split <;> rfl
    have hfree : Silent (do smaFree pool p; pure false : Op υ Bool) :=
      Keeps.bind (Silent.of_rest (Keeps.smaFree p)) fun _ => .pure false
    refine Keeps.get.bind fun w => Keeps.bind (permits_silent.cacheWlock _) fun _ => .ite ?_ hfree
    exact (hinsert.ensuring (permits_silent.cacheWunlock _)).bind fun _ => .ite (.pure true) hfree

/-- `immutable_cache_cache_fetch` calls `unserialize` after it has released its lock. -/
theorem cacheFetch (key t : Nat) : Outside (cacheFetch sp php key t) := by
  refine bind (of_silent (.cacheFind key t)) (keeps_held (Balanced.cacheFind key t)) fun r => ?_
  cases r with
  | none => exact of_silent (.pure none)
  | some p =>
    refine map (bind (of_silent .get) .get fun w => ?_)
    dsimp only
    split
    · refine bind_silent ?_ fun _ => .pure _
      exact callback fun _ => rfl
    · exact of_silent (.pure _)

end CallsOnly

/-! ## The iterator -/

/-- The value is a serialized string. -/
def Zval.isPtr : Zval → Bool
  | .ptr _ => true
  | _ => false

/-- The iterator is asked for the values, and that of the entry `p` is in serialized form. -/
def Iterator.unserializes (it : Iterator υ) (w : World υ) (p : Nat) : Bool :=
  it.format.testBit 2 && (entryAt w.shm p).val.isPtr

/-- While the iterator makes the items for the entries, from the allocation numbered `m` on, it comes
to an entry that it unserializes. -/
def World.ComesToUnserialize (w : World υ) (it : Iterator υ) : List Nat → Nat → Prop
  | [], _ => False
  | p :: ps, m =>
    if it.unserializes w p then w.HeapFrom m 3
    else w.HeapFrom m 5 ∧ w.ComesToUnserialize it ps (m + 5)

/-- The request is a fetch of an iterator that gets the lock and comes to an entry in its chunk that
it unserializes. -/
def Request.UnserializesLocked (r : Request υ) (w : World υ) : Prop :=
  match r.call with
  | .iteratorFetch it => w.env.lockOk w.lockTries = true ∧
      w.ComesToUnserialize it (it.chunk r.sp w) w.emallocs
  | _ => False

/-- Make the items for the entries. -/
def itemCtors (sp : Space) (php : Serializer υ) (it : Iterator υ) : List Nat → Op υ Unit
  | [] => pure ()
  | p :: ps => do
    forget (itemCtor sp php it p)
    itemCtors sp php it ps

/-- The items of a list of entries are constructed one after the other. -/
theorem itemCtors_append (ps qs : List Nat) :
    itemCtors sp php it (ps ++ qs) = (do itemCtors sp php it ps; itemCtors sp php it qs) := by
  induction ps with
  | nil => rfl
  | cons p ps ih =>
    rw [List.cons_append, itemCtors, itemCtors, ih, bind_assoc]

/-- The construction of items depends on the search and the format only. -/
theorem Iterator.Alike.itemCtors (h : it.Alike it') :
    itemCtors sp php it' = itemCtors sp php it := by
  funext ps
  induction ps with
  | nil => rfl
  | cons p ps ih =>
    rw [ImmutableCache.itemCtors, ImmutableCache.itemCtors, ih, itemCtor, itemCtor, h.1]

/-- Along a chain the iterator makes the items of the matching entries. -/
theorem forget_fetchChain (fuel : Nat) (head : Option Nat) :
    forget (fetchChain sp php fuel head it) w =
      itemCtors sp php it (it.select sp w (walk w.shm fuel head)) w := by
  induction fuel generalizing head it w with
  | zero => cases head <;> rfl
  | succ fuel ih =>
    cases head with
    | none => rfl
    | some p =>
      have hnext {it' : Iterator υ} {w₁ : World υ} (halike : it.Alike it') (hs : w.Same w₁) :
          forget (fetchChain sp php fuel (entryAt w.shm p).next it') w₁ =
            itemCtors sp php it (it.select sp w (walk w.shm fuel (nextAt w.shm p))) w₁ := by
        rw [ih, halike.itemCtors, halike.select, hs.select, hs.shm]
        rfl
      rw [walk, Iterator.select, List.filter_cons]
      by_cases hm : it.searchMatch (entryKey sp w.shm (entryAt w.shm p)) = true
      · have hstep : fetchChain sp php (fuel + 1) (some p) it w = (do
            let item ← itemCtor sp php it p
            let r ← fetchChain sp php fuel (entryAt w.shm p).next
              { it with stack := it.stack.push item }
            pure (r.1 + 1, r.2) : Op υ (Nat × Iterator υ)) w := by
          show (if it.searchMatch (entryKey sp w.shm (entryAt w.shm p)) = true then _ else _ :
            Op υ (Nat × Iterator υ)) w = _
          rw [if_pos hm]
        rw [if_pos hm, forget_congr hstep]
        refine forget_bind rfl fun item w₁ hrun => ?_
        rw [forget_bind_pure]
        obtain ⟨hs, -⟩ := (wp_itemCtor p).of_ok hrun
        exact hnext ⟨rfl, rfl, rfl, rfl⟩ hs
      · have hstep : fetchChain sp php (fuel + 1) (some p) it w =
            fetchChain sp php fuel (entryAt w.shm p).next it w := by
          show (if it.searchMatch (entryKey sp w.shm (entryAt w.shm p)) = true then _ else _ :
            Op υ (Nat × Iterator υ)) w = _
          rw [if_neg hm]
        rw [if_neg hm, forget_congr hstep]
        exact hnext (.refl it) (.refl w)

/-- Over the slots the iterator makes the items of the entries in its chunk. -/
theorem forget_fetchSlots (fuel count : Nat) :
    forget (fetchSlots sp php fuel count it) w = itemCtors sp php it
      (it.between sp w it.slotIdx (it.chunkEndFrom sp w fuel count it.slotIdx)) w := by
  induction fuel generalizing count it w with
  | zero =>
    rw [Iterator.chunkEndFrom, Iterator.between_self]
    rfl
  | succ fuel ih =>
    rw [Iterator.chunkEndFrom]
    by_cases hc : count ≤ it.chunkSize ∧ it.slotIdx < w.slots.length
    · have hstep : fetchSlots sp php (fuel + 1) count it w = (do
          let r ← fetchChain sp php w.header.nentries (w.slots.getD it.slotIdx none) it
          fetchSlots sp php fuel (count + r.1) { r.2 with slotIdx := r.2.slotIdx + 1 } :
            Op υ (Nat × Iterator υ)) w := by
        show (if count ≤ it.chunkSize ∧ it.slotIdx < w.slots.length then _ else _ :
          Op υ (Nat × Iterator υ)) w = _
        rw [if_pos hc]
      rw [if_pos hc, forget_congr hstep, ← Iterator.between_append (m := it.slotIdx + 1) (by omega)
        (Iterator.le_chunkEndFrom _ _ _ _ _ _), Iterator.between_succ, itemCtors_append]
      refine forget_bind (forget_fetchChain _ _) fun r w₁ hrun => ?_
      obtain ⟨hs, s, hr, hlen, -⟩ := (wp_fetchChain _ _).of_ok hrun
      obtain ⟨n, it₁⟩ := r
      dsimp only at hr hlen ⊢
      subst hr hlen
      have halike : it.Alike { it with stack := s, slotIdx := it.slotIdx + 1 } :=
        ⟨rfl, rfl, rfl, rfl⟩
      rw [ih, halike.itemCtors, halike.chunkEndFrom, hs.chunkEndFrom, halike.between,
        Iterator.between, hs.matching, ← Iterator.between]
      rfl
    · have hstep : fetchSlots sp php (fuel + 1) count it w =
          (pure (count, it) : Op υ (Nat × Iterator υ)) w := by
        show (if count ≤ it.chunkSize ∧ it.slotIdx < w.slots.length then _ else _ :
          Op υ (Nat × Iterator υ)) w = _
        rw [if_neg hc]
      rw [if_neg hc, forget_congr hstep, Iterator.between_self]
      rfl

/-! ## Calls under the lock of the iterator -/

/-- Further serializer functions have been called since `w`, or none. -/
abbrev Further (w w' : World υ) : Prop := Calls (fun _ => True) w w'

/-- A call comes after those that there have been. -/
theorem further_callback (serializer : Serializer υ) (entry : Option Nat) :
    Within Further (callback serializer entry) :=
  CallsOnly.callback (C := fun _ _ => True) fun _ => trivial

/-- The construction of an item only adds calls. -/
theorem further_itemCtor (it : Iterator υ) (p : Nat) : Within Further (itemCtor sp php it p) :=
  within_itemCtor (Calls.of_silent permits_silent.emalloc) (fun _ _ => further_callback _ _) sp it p

/-- So does the construction of several items. -/
theorem further_itemCtors (ps : List Nat) : Within Further (itemCtors sp php it ps) := by
  induction ps with
  | nil => exact .pure _
  | cons p ps ih => exact (further_itemCtor it p).map.bind fun _ => ih

/-- Since `w` a serializer function has been called with the locks that were held then. -/
def CallsHere (w w' : World υ) : Prop :=
  ∃ new, w'.callbacks = w.callbacks ++ new ∧ ∃ c ∈ new, c.held = w.held

/-- A call that has been made stays in the list. -/
theorem CallsHere.further {w₁ : World υ} (h : CallsHere w w₁) (h' : Further w₁ w') :
    CallsHere w w' := by
  obtain ⟨new, hnew, c, hc, hheld⟩ := h
  obtain ⟨new', hnew', -⟩ := h'
  exact ⟨new ++ new', by rw [hnew', hnew, List.append_assoc], c, List.mem_append_left _ hc, hheld⟩

/-- If `C` holds then a serializer function has been called since `w`, with the locks that were held
then; else none has been called. -/
def CallsIff (C : Prop) (w w' : World υ) : Prop :=
  C ∧ CallsHere w w' ∨ ¬ C ∧ w'.callbacks = w.callbacks

/-- What comes after the calls may call further functions. -/
theorem CallsHere.wp_bind {x : Op υ α} {f : α → Op υ β} (hx : Wp x w (fun _ => CallsHere w) (CallsHere w))
    (hf : ∀ a, Within Further (f a)) : Wp (x >>= f) w (fun _ => CallsHere w) (CallsHere w) := by
  rw [Bail.wp_bind]
  refine hx.mono (fun a w₁ h => ?_) fun _ => id
  exact (hf a w₁).mono (fun _ _ => h.further) fun _ => h.further

/-- A serializer's function is called with the locks that are held. -/
theorem CallsHere.wp_callback (serializer : Serializer υ) (entry : Option Nat) :
    Wp (callback serializer entry) w (fun _ => CallsHere w) (CallsHere w) := by
  refine CallsHere.wp_bind ?_ fun _ => Calls.of_silent permits_silent.emalloc
  rw [wp_modify]
  exact ⟨_, rfl, _, List.mem_singleton_self _, rfl⟩

/-- Fetching the value of a serialized entry calls `unserialize`. -/
theorem CallsHere.wp_entryFetchZval (h : (entryAt w.shm p).val.isPtr = true) :
    Wp (entryFetchZval sp php p) w (fun _ => CallsHere w) (CallsHere w) := by
  rw [entryFetchZval, Bail.wp_bind, wp_get]
  dsimp only
  split
  next => exact CallsHere.wp_bind (CallsHere.wp_callback _ _) fun _ => .pure _
  next hno =>
    cases hval : (entryAt w.shm p).val with
    | ptr s => exact absurd hval (hno s)
    | _ =>
      rw [hval] at h
      cases h

/-- An item whose value is unserialized. -/
theorem wp_itemCtor_unserializes (h : it.unserializes w p = true) : Wp (itemCtor sp php it p) w
    (fun _ w' => w.HeapFrom w.emallocs 3 ∧ CallsHere w w')
    (CallsIff (w.HeapFrom w.emallocs 3) w) := by
  rw [Iterator.unserializes, Bool.and_eq_true] at h
  obtain ⟨hformat, hptr⟩ := h
  rw [itemCtor, wp_bind]
  refine wp_emallocN.mono (fun _ w₁ h₁ => ?_) fun w₁ h₁ => ?_
  · obtain ⟨rfl, hall⟩ := h₁
    rw [if_pos hformat]
    refine (CallsHere.wp_bind (w := { w with emallocs := w.emallocs + 3 }) ?_ fun value => ?_).mono
      (fun _ _ h => ⟨hall, h⟩) fun _ h => .inl ⟨hall, h⟩
    · rw [wp_map]
      exact CallsHere.wp_entryFetchZval hptr
    · exact (within_emallocN (Calls.of_silent permits_silent.emalloc) _).bind fun _ =>
        Within.get.bind fun _ => .pure _
  · refine .inr ⟨not_heapFrom h₁.2, ?_⟩
    rw [h₁.1]

/-- An entry that is not in serialized form is read without a call. -/
theorem wp_entryFetchZval_silent (h : (entryAt w.shm p).val.isPtr = false) :
    Wp (entryFetchZval sp php p) w (fun _ w' => w' = w) fun _ => False := by
  rw [entryFetchZval, wp_bind, wp_get]
  dsimp only
  split
  next s hval =>
    rw [hval] at h
    cases h
  next => rfl

/-- An item whose value is not unserialized. -/
theorem wp_itemCtor_silent (h : it.unserializes w p = false) : Wp (itemCtor sp php it p) w
    (fun _ w' => w' = { w with emallocs := w.emallocs + 5 } ∧ w.HeapFrom w.emallocs 5)
    fun w' => w'.callbacks = w.callbacks ∧ ¬ w.HeapFrom w.emallocs 5 := by
  have hsplit : w.HeapFrom w.emallocs 5 ↔
      w.HeapFrom w.emallocs 3 ∧ w.HeapFrom (w.emallocs + 3) 2 :=
    heapFrom_add (a := 3) (b := 2)
  rw [itemCtor, wp_bind]
  refine wp_emallocN.mono (fun _ w₁ h₁ => ?_) fun w₁ h₁ => ?_
  · obtain ⟨rfl, hthree⟩ := h₁
    have hlast {f : Unit → Op υ (Item υ)} (hf : ∀ s, Wp (f ()) s (fun _ s' => s' = s) fun _ => False) :
        Wp (emallocN 2 >>= f) { w with emallocs := w.emallocs + 3 }
          (fun _ w' => w' = { w with emallocs := w.emallocs + 5 } ∧ w.HeapFrom w.emallocs 5)
          fun w' => w'.callbacks = w.callbacks ∧ ¬ w.HeapFrom w.emallocs 5 := by
      rw [wp_bind]
      refine wp_emallocN.mono (fun _ w₂ h₂ => ?_) fun w₂ h₂ => ?_
      · obtain ⟨rfl, htwo⟩ := h₂
        exact (hf _).mono (fun _ _ h => ⟨h, hsplit.2 ⟨hthree, htwo⟩⟩) fun _ => False.elim
      · exact ⟨by rw [h₂.1], fun hall => not_heapFrom (w := w) h₂.2 (hsplit.1 hall).2⟩
    dsimp only
    split
    next hformat =>
      rw [Iterator.unserializes, hformat, Bool.true_and] at h
      rw [wp_bind, wp_map]
      refine Wp.mono (wp_entryFetchZval_silent h) (fun _ w₂ h₂ => ?_) fun _ => False.elim
      subst h₂
      exact hlast fun _ => rfl
    next => exact hlast fun _ => rfl
  · exact ⟨by rw [h₁.1], fun hall => not_heapFrom h₁.2 (hsplit.1 hall).1⟩

/-- What the calls depend on. -/
theorem comesToUnserialize_congr (henv : w'.env = w.env) (hshm : w'.shm = w.shm) :
    w'.ComesToUnserialize = w.ComesToUnserialize := by
  have hheap : w'.HeapFrom = w.HeapFrom := by
    funext m n
    rw [World.HeapFrom, World.HeapFrom, henv]
  funext it ps
  induction ps with
  | nil => rfl
  | cons p ps ih =>
    funext m
    rw [World.ComesToUnserialize, World.ComesToUnserialize, ih, hheap, Iterator.unserializes,
      Iterator.unserializes, hshm]

/-- Whether an iterator comes to unserialize depends on the search and the format only. -/
theorem Iterator.Alike.comesToUnserialize (h : it.Alike it') :
    w.ComesToUnserialize it' = w.ComesToUnserialize it := by
  funext ps
  induction ps with
  | nil => rfl
  | cons p ps ih =>
    funext m
    rw [World.ComesToUnserialize, World.ComesToUnserialize, ih, unserializes, unserializes, h.1]

/-- The items of several entries: a serializer function is called if the iterator comes to an entry
that it unserializes, and else none is. -/
theorem wp_itemCtors (ps : List Nat) : Wp (itemCtors sp php it ps) w
    (fun _ => CallsIff (w.ComesToUnserialize it ps w.emallocs) w)
    (CallsIff (w.ComesToUnserialize it ps w.emallocs) w) := by
  induction ps generalizing w with
  | nil => exact .inr ⟨id, rfl⟩
  | cons p ps ih =>
    rw [itemCtors, wp_bind, ← wp_forget, World.ComesToUnserialize]
    cases h : it.unserializes w p with
    | true =>
      rw [if_pos rfl]
      refine (wp_itemCtor_unserializes h).mono (fun _ w₁ h₁ => ?_) fun _ => id
      exact (further_itemCtors ps w₁).mono (fun _ _ h₂ => .inl ⟨h₁.1, h₁.2.further h₂⟩)
        fun _ h₂ => .inl ⟨h₁.1, h₁.2.further h₂⟩
    | false =>
      rw [if_neg Bool.false_ne_true]
      refine (wp_itemCtor_silent h).mono (fun _ w₁ h₁ => ?_) fun w₁ h₁ => ?_
      · obtain ⟨rfl, hall⟩ := h₁
        rw [and_iff_right hall]
        have hlater := ih (w := { w with emallocs := w.emallocs + 5 })
        have hcongr : { w with emallocs := w.emallocs + 5 }.ComesToUnserialize =
            w.ComesToUnserialize := comesToUnserialize_congr rfl rfl
        rw [hcongr] at hlater
        exact hlater
      · exact .inr ⟨fun h => h₁.2 h.1, h₁.1⟩

/-- The loop over the slots calls `unserialize` exactly if it comes to an entry of its chunk that it
unserializes. -/
theorem wp_fetchSlots_callbacks (fuel count : Nat) : Wp (fetchSlots sp php fuel count it) w
    (fun _ => CallsIff (w.ComesToUnserialize it
      (it.between sp w it.slotIdx (it.chunkEndFrom sp w fuel count it.slotIdx)) w.emallocs) w)
    (CallsIff (w.ComesToUnserialize it
      (it.between sp w it.slotIdx (it.chunkEndFrom sp w fuel count it.slotIdx)) w.emallocs) w) := by
  refine wp_forget.2 ?_
  rw [Wp, forget_fetchSlots]
  exact wp_itemCtors _

/-- Under one more lock. -/
theorem CallsIff.since {C : Prop} {l : Lock} {w₁ : World υ} (h : CallsIff C w₁ w')
    (hheld : w₁.held = l :: w.held) (hcalls : w₁.callbacks = w.callbacks) :
    (∀ c ∈ w.callbacksSince w', c.held = w.held) ↔ ¬ C := by
  obtain ⟨hc, new, hnew, c, hmem, hh⟩ | ⟨hc, hnew⟩ := h
  · refine iff_of_false (fun hall => ?_) (not_not_intro hc)
    rw [World.callbacksSince, hnew, hcalls, List.drop_left] at hall
    have hself := hall c hmem
    rw [hh, hheld] at hself
    exact List.cons_ne_self _ _ hself
  · refine iff_of_true (fun c hmem => ?_) hc
    rw [World.callbacksSince, hnew, hcalls, List.drop_length] at hmem
    cases hmem

/-- `immutable_cache_iterator_fetch_active`. -/
theorem wp_fetchActive_callbacks : Wp (fetchActive sp php it) w
    (fun _ w' => (∀ c ∈ w.callbacksSince w', c.held = w.held) ↔
      ¬ (w.env.lockOk w.lockTries = true ∧ w.ComesToUnserialize it (it.chunk sp w) w.emallocs))
    fun w' => (∀ c ∈ w.callbacksSince w', c.held = w.held) ↔
      ¬ (w.env.lockOk w.lockTries = true ∧ w.ComesToUnserialize it (it.chunk sp w) w.emallocs) := by
  have hrefused {w' : World υ} (hok : w.env.lockOk w.lockTries = false)
      (h : w'.callbacks = w.callbacks) : (∀ c ∈ w.callbacksSince w', c.held = w.held) ↔
      ¬ (w.env.lockOk w.lockTries = true ∧ w.ComesToUnserialize it (it.chunk sp w) w.emallocs) := by
    refine iff_of_true (Calls.of_eq h).since fun hno => ?_
    rw [hok] at hno
    exact Bool.false_ne_true hno.1
  have hsilent := (Silent.of_rest (Keeps.acquire .global "Failed to acquire read lock") w)
  simp only [fetchActive, rlock, wp_bind, wp_ite]
  refine (wp_acquire_cases.and hsilent).mono (fun ok w₁ h₁ => ?_) fun w₁ h₁ => hrefused h₁.1.1 h₁.2
  obtain ⟨⟨rfl, hok, rfl⟩ | ⟨rfl, hok, -⟩, hcalls⟩ := h₁
  · rw [if_pos rfl, and_iff_right hok]
    simp only [wp_ensuring, wp_bind, wp_get, wp_pure, unlock, wp_modify]
    have halike : it.Alike { it with stack := it.stack.popAll it.stack.data.length } :=
      ⟨rfl, rfl, rfl, rfl⟩
    have hlocked : w.Same { w with
        lockTries := w.lockTries + 1, held := .global :: w.held } := rfl
    have hslots : Wp (fetchSlots sp php (w.slots.length - it.slotIdx) 0
        { it with stack := it.stack.popAll it.stack.data.length })
        { w with lockTries := w.lockTries + 1, held := .global :: w.held } _ _ :=
      wp_fetchSlots_callbacks _ _
    rw [halike.comesToUnserialize, comesToUnserialize_congr hlocked.env hlocked.shm,
      halike.chunkEndFrom, hlocked.chunkEndFrom, halike.between, Iterator.between, hlocked.matching,
      ← Iterator.between] at hslots
    exact hslots.mono (fun _ _ h => h.since rfl rfl) fun _ h => h.since rfl rfl
  · rw [if_neg Bool.false_ne_true]
    exact hrefused hok hcalls

end

/-! ## A small cache with an object -/

namespace Small

/-- The small process with an object of a class at 300. -/
def objectSpace : Space :=
  space (objects ++ [(300, .other)]) (by decide)
    (fun x hx t ht => by fin_cases hx <;> cases ht <;> decide) (by decide)

/-- Store the object under `"a"`. -/
def storeObject : Request Bytes := ⟨objectSpace, 0, .store 104 (.object 300) 0⟩

/-- The store of the object is legal in every state. -/
theorem storeObject_legal (w : World Bytes) : storeObject.Legal pool zend w := by
  refine ⟨space_on rfl rfl rfl, [97], fun p hp => view_req hp w, ?_, by decide, view_req (by decide) w⟩
  exact readStr_eq_some.2 ⟨⟨false, 0, [97]⟩, view_req (by decide) w, .inl rfl, rfl⟩

/-- The small cache with the object stored under `"a"`. -/
def stored : World Bytes := final (storeObject.run pool php) (start (env none))

/-- Fetch an iterator that is asked for the values. -/
def fetchValues : Request Bytes := ⟨objectSpace, 0, .iteratorFetch (.init .all 4 0)⟩

end Small

/-! ## The requests -/

variable {υ : Type} {w : World υ} {pool : Pool} {php : Serializer υ}

/-- A request that is executed leads to its final state. -/
theorem Step.final (pool : Pool) (php : Serializer υ) {z : Zend} {r : Request υ}
    (h : r.Legal pool z w) : ∃ o, Step pool z php w ⟨w, r, o⟩ (Bail.final (r.run pool php) w) := by
  unfold Bail.final
  cases hr : r.run pool php w with
  | ok o w' => exact ⟨some o, rfl, h, by rw [hr]; exact ⟨rfl, rfl⟩⟩
  | error u w' => exact ⟨none, rfl, h, by rw [hr]; exact ⟨rfl, rfl⟩⟩

/-- The requests other than the fetch of an iterator. -/
theorem Request.outside {r : Request υ} (h : ∀ it, r.call ≠ .iteratorFetch it) :
    Outside (r.run pool php) := by
  have hsilent : Permits fun w w' : World υ => w'.callbacks = w.callbacks := permits_silent
  unfold Request.run
  cases hc : r.call with
  | store key val t => exact ((CallsOnly.cacheStore _ key val t).mono fun _ _ h => h.1).map
  | fetch key t => exact (CallsOnly.cacheFetch key t).map
  | find key t => exact (CallsOnly.of_silent (.cacheFind key t)).map
  | exist key => exact (CallsOnly.of_silent (hsilent.cacheExists r.sp key)).map
  | stat key => exact (CallsOnly.of_silent (hsilent.cacheStat r.sp key)).map
  | info limited => exact (CallsOnly.of_silent (hsilent.cacheInfo limited)).map
  | smaInfo limited => exact (CallsOnly.of_silent (hsilent.smaInfo pool limited)).map
  | iteratorFetch it => exact absurd hc (h it)
  | iteratorTotals it => exact (CallsOnly.of_silent (hsilent.iteratorTotals r.sp it)).map

/-- A process that calls an operation without holding a lock holds none whenever a serializer's
function is called, whatever the state of the cache is and whichever allocations and locks fail, if
and only if the operation is not a fetch of an iterator that unserializes a value. -/
theorem callbacks_unlocked_iff (r : Request υ) (pool : Pool) (php : Serializer υ) (w : World υ)
    (hheld : w.held = []) :
    (∀ c ∈ w.callbacksSince (final (r.run pool php) w), c.held = []) ↔
      ¬ r.UnserializesLocked w := by
  rw [← hheld]
  have hfinal (h : Wp (r.run pool php) w
      (fun _ w' => (∀ c ∈ w.callbacksSince w', c.held = w.held) ↔ ¬ r.UnserializesLocked w)
      fun w' => (∀ c ∈ w.callbacksSince w', c.held = w.held) ↔ ¬ r.UnserializesLocked w) :
      (∀ c ∈ w.callbacksSince (final (r.run pool php) w), c.held = w.held) ↔
        ¬ r.UnserializesLocked w := wp_final.1 h
  cases hc : r.call with
  | iteratorFetch it =>
    refine hfinal ?_
    rw [Request.run, Request.UnserializesLocked, hc]
    exact (wp_map _).2 wp_fetchActive_callbacks
  | store _ _ _ | fetch _ _ | find _ _ | exist _ | stat _ | info _ | smaInfo _ | iteratorTotals _ =>
    have houtside : Outside (r.run pool php) := by
      refine Request.outside fun it h => ?_
      rw [hc] at h
      cases h
    have hno : ¬ r.UnserializesLocked w := by
      rw [Request.UnserializesLocked, hc]
      exact id
    exact hfinal ((houtside w).mono (fun _ _ h => iff_of_true h.since hno)
      fun _ h => iff_of_true h.since hno)

/-- The store of an object in the small cache calls a serializer's function, without a lock. -/
theorem callbacks_unlocked_iff_small :
    (Small.start (Small.env none)).callbacksSince Small.stored ≠ [] ∧
      ∀ c ∈ (Small.start (Small.env none)).callbacksSince Small.stored, c.held = [] :=
  ⟨by decide +kernel,
    (callbacks_unlocked_iff Small.storeObject Small.pool Small.php (Small.start (Small.env none))
      (by decide +kernel)).2 id⟩

/-- The iterator unserializes the stored object under the global lock. -/
theorem fetchValues_locked : ∃ o, Created Small.pool (Small.start (Small.env none)) ∧
    Step Small.pool Small.zend Small.php (Small.start (Small.env none))
      ⟨Small.start (Small.env none), Small.storeObject, o⟩ Small.stored ∧
    Small.stored.held = [] ∧
    Small.fetchValues.Legal Small.pool Small.zend Small.stored ∧
    ¬ ∀ c ∈ Small.stored.callbacksSince
      (final (Small.fetchValues.run Small.pool Small.php) Small.stored), c.held = [] := by
  obtain ⟨o, hstep⟩ := Step.final Small.pool Small.php
    (Small.storeObject_legal (Small.start (Small.env none)))
  exact ⟨o, Small.created, hstep, by decide +kernel, ⟨Small.space_on rfl rfl rfl, trivial⟩,
    by decide +kernel⟩

end ImmutableCache
