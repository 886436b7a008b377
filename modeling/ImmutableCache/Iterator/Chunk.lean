import ImmutableCache.Cache.Entries
import ImmutableCache.Iterator.Fetch

/-!
# What a fetch reads

The matching entries of a table lie in its slots, and in each slot in the order of the chain. A
fetch takes those of a range of slots, which ends with the first slot that brings their number over
the chunk size, or with the last slot (`Iterator.chunk`). `wp_fetchActive` says that the stack then
holds their items.
-/

namespace ImmutableCache

open Bail

variable {υ : Type} {sp : Space} {php : Serializer υ} {w w' : World υ} {it it' : Iterator υ}

namespace Iterator

/-- The matching entries of a list. -/
def select (it : Iterator υ) (sp : Space) (w : World υ) (ps : List Nat) : List Nat :=
  ps.filter fun p => it.searchMatch (entryKey sp w.shm (entryAt w.shm p))

/-- The matching entries in the chain of slot `s`. -/
def matching (it : Iterator υ) (sp : Space) (w : World υ) (s : Nat) : List Nat :=
  it.select sp w (w.chain s)

/-- The item for the entry at `p`. -/
def itemOf (it : Iterator υ) (sp : Space) (php : Serializer υ) (w : World υ) (p : Nat) : Item υ :=
  let e := entryAt w.shm p
  let f {α : Type} (i : Nat) (a : α) : Option α := if it.format.testBit i then some a else none
  { key := e.key
    value := {
      type := f 0 "user", key := f 1 e.key
      value := f 2 (unpersist sp w.shm (w.serializer.getD php) e.val).2
      numHits := f 3 e.nhits, creationTime := f 5 e.ctime, accessTime := f 7 e.atime
      memSize := f 9 e.memSize } }

/-- The slot with which the chunk ends that begins at slot `s`, when it holds `count` entries
already. -/
def chunkEndFrom (it : Iterator υ) (sp : Space) (w : World υ) : Nat → Nat → Nat → Nat
  | 0, _, s => s
  | fuel + 1, count, s =>
    if count ≤ it.chunkSize ∧ s < w.slots.length then
      it.chunkEndFrom sp w fuel (count + (it.matching sp w s).length) (s + 1)
    else s

/-- The first slot that the next chunk does not read. -/
def chunkEnd (it : Iterator υ) (sp : Space) (w : World υ) : Nat :=
  it.chunkEndFrom sp w (w.slots.length - it.slotIdx) 0 it.slotIdx

/-- The matching entries in the slots from `s` to `e`. -/
def between (it : Iterator υ) (sp : Space) (w : World υ) (s e : Nat) : List Nat :=
  (List.range' s (e - s)).flatMap (it.matching sp w)

/-- The entries of the next chunk. -/
def chunk (it : Iterator υ) (sp : Space) (w : World υ) : List Nat :=
  it.between sp w it.slotIdx (it.chunkEnd sp w)

/-- All the matching entries of the table. -/
def all (it : Iterator υ) (sp : Space) (w : World υ) : List Nat :=
  it.between sp w 0 w.slots.length

/-- An iterator over the same entries, which gives the same items. -/
def Alike (it it' : Iterator υ) : Prop :=
  it'.format = it.format ∧ it'.chunkSize = it.chunkSize ∧ it'.regex = it.regex ∧
    it'.searchHash = it.searchHash

namespace Alike

/-- An iterator is like itself. -/
theorem refl (it : Iterator υ) : it.Alike it := ⟨rfl, rfl, rfl, rfl⟩

/-- Likeness is transitive. -/
theorem trans {it'' : Iterator υ} (h : it.Alike it') (h' : it'.Alike it'') : it.Alike it'' :=
  ⟨h'.1.trans h.1, h'.2.1.trans h.2.1, h'.2.2.1.trans h.2.2.1, h'.2.2.2.trans h.2.2.2⟩

variable (h : it.Alike it')

include h

/-- Alike iterators match the same keys. -/
theorem searchMatch : it'.searchMatch = it.searchMatch := by
  funext key
  rw [Iterator.searchMatch, Iterator.searchMatch, h.2.2.1, h.2.2.2]

/-- They select the same entries of a chain. -/
theorem select (sp : Space) (w : World υ) : it'.select sp w = it.select sp w := by
  funext ps
  rw [Iterator.select, Iterator.select, h.searchMatch]

/-- They match the same entries of a slot. -/
theorem matching (sp : Space) (w : World υ) : it'.matching sp w = it.matching sp w := by
  funext s
  rw [Iterator.matching, Iterator.matching, h.select]

/-- They match the same entries between two slots. -/
theorem between (sp : Space) (w : World υ) (s e : Nat) :
    it'.between sp w s e = it.between sp w s e := by
  rw [Iterator.between, Iterator.between, h.matching]

/-- Their chunks end at the same slot. -/
theorem chunkEndFrom (sp : Space) (w : World υ) :
    it'.chunkEndFrom sp w = it.chunkEndFrom sp w := by
  funext fuel
  induction fuel with
  | zero => rfl
  | succ fuel ih =>
    funext count s
    rw [Iterator.chunkEndFrom, Iterator.chunkEndFrom, ih, h.matching, h.2.1]

/-- From the same slot they fetch the same chunk. -/
theorem chunk {sp : Space} {w : World υ} (hs : it'.slotIdx = it.slotIdx) :
    it'.chunk sp w = it.chunk sp w := by
  rw [Iterator.chunk, Iterator.chunk, h.between, Iterator.chunkEnd, Iterator.chunkEnd,
    h.chunkEndFrom, hs]

/-- They make the same items. -/
theorem itemOf (sp : Space) (php : Serializer υ) (w : World υ) :
    it'.itemOf sp php w = it.itemOf sp php w := by
  funext p
  rw [Iterator.itemOf, Iterator.itemOf, h.1]

end Alike

/-! ## The end of a chunk -/

/-- The end of a chunk does not come before its beginning. -/
theorem le_chunkEndFrom (it : Iterator υ) (sp : Space) (w : World υ) (fuel count s : Nat) :
    s ≤ it.chunkEndFrom sp w fuel count s := by
  induction fuel generalizing count s with
  | zero => exact le_rfl
  | succ fuel ih =>
    rw [chunkEndFrom]
    split
    · have := ih (count + (it.matching sp w s).length) (s + 1)
      omega
    · exact le_rfl

/-- A chunk ends within the table. -/
theorem chunkEndFrom_le (fuel count s : Nat) (h : s ≤ w.slots.length) :
    it.chunkEndFrom sp w fuel count s ≤ w.slots.length := by
  induction fuel generalizing count s with
  | zero => exact h
  | succ fuel ih =>
    rw [chunkEndFrom]
    split
    next hc => exact ih _ _ hc.2
    next => exact h

/-- There is nothing between a slot and itself. -/
theorem between_self (s : Nat) : it.between sp w s s = [] := by simp [between]

/-- A range of slots is read one part after the other. -/
theorem between_append {s m e : Nat} (h1 : s ≤ m) (h2 : m ≤ e) :
    it.between sp w s m ++ it.between sp w m e = it.between sp w s e := by
  have hr : List.range' s (e - s) = List.range' s (m - s) ++ List.range' m (e - m) := by
    have h1 : s + (m - s) = m := by omega
    have h2 : m - s + (e - m) = e - s := by omega
    rw [← h2, ← List.range'_append_1, h1]
  rw [between, between, between, hr, List.flatMap_append]

/-- Between a slot and the next one are the entries of the slot. -/
theorem between_succ (s : Nat) : it.between sp w s (s + 1) = it.matching sp w s := by
  simp [between]

/-- A chunk that ends before the last slot is larger than the chunk size. -/
theorem chunkEndFrom_stop (it : Iterator υ) (sp : Space) (w : World υ) (fuel count s : Nat)
    (hf : w.slots.length - s ≤ fuel) :
    w.slots.length ≤ it.chunkEndFrom sp w fuel count s ∨
      it.chunkSize < count + (it.between sp w s (it.chunkEndFrom sp w fuel count s)).length := by
  induction fuel generalizing count s with
  | zero => exact .inl (by rw [chunkEndFrom]; omega)
  | succ fuel ih =>
    rw [chunkEndFrom]
    split
    next hc =>
      refine (ih (count + (it.matching sp w s).length) (s + 1) (by omega)).imp_right fun h => ?_
      have hle := it.le_chunkEndFrom sp w fuel (count + (it.matching sp w s).length) (s + 1)
      rw [← between_append (m := s + 1) (by omega) hle, between_succ, List.length_append]
      omega
    next hc =>
      rw [between_self]
      simp only [List.length_nil]
      omega

variable (it sp w)

/-- The end of a chunk does not come before the slot of the iterator. -/
theorem le_chunkEnd : it.slotIdx ≤ it.chunkEnd sp w := it.le_chunkEndFrom sp w _ _ _

/-- A chunk that begins within the table ends within it. -/
theorem chunkEnd_le (h : it.slotIdx ≤ w.slots.length) : it.chunkEnd sp w ≤ w.slots.length :=
  chunkEndFrom_le _ _ _ h

/-- An empty chunk is the last one. -/
theorem le_chunkEnd_of_nil (h : it.chunk sp w = []) : w.slots.length ≤ it.chunkEnd sp w := by
  refine (it.chunkEndFrom_stop sp w _ 0 it.slotIdx le_rfl).resolve_right ?_
  change ¬ it.chunkSize < 0 + (it.chunk sp w).length
  rw [h]
  exact Nat.not_lt_zero _

/-- There is nothing after the last slot. -/
theorem chunk_of_le (h : w.slots.length ≤ it.slotIdx) : it.chunk sp w = [] := by
  have hend : it.chunkEnd sp w = it.slotIdx := by
    rw [chunkEnd, Nat.sub_eq_zero_of_le h]
    rfl
  rw [chunk, hend, between_self]

/-- A chunk that is not empty moves the iterator on. -/
theorem lt_chunkEnd (h : it.chunk sp w ≠ []) : it.slotIdx < it.chunkEnd sp w := by
  refine lt_of_le_of_ne (it.le_chunkEnd sp w) fun heq => h ?_
  rw [chunk, ← heq, between_self]

end Iterator

/-! ## The fetch -/

/-- The items are those of the shared memory. -/
theorem World.Same.itemOf (h : w.Same w') : it.itemOf sp php w' = it.itemOf sp php w := by
  rw [h]
  rfl

/-- The chains are those of the shared memory. -/
theorem World.Same.chain_eq (h : w.Same w') : w'.chain = w.chain := by
  rw [h]
  rfl

/-- The entries selected of a chain are those of the shared memory. -/
theorem World.Same.select (h : w.Same w') : it.select sp w' = it.select sp w := by
  funext ps
  rw [Iterator.select, Iterator.select, h.shm]

/-- The matching entries of a slot are those of the shared memory. -/
theorem World.Same.matching (h : w.Same w') : it.matching sp w' = it.matching sp w := by
  funext s
  rw [Iterator.matching, Iterator.matching, h.chain_eq, h.select]

/-- The end of a chunk depends on the shared memory only. -/
theorem World.Same.chunkEndFrom (h : w.Same w') :
    it.chunkEndFrom sp w' = it.chunkEndFrom sp w := by
  have hslots : w'.slots = w.slots := by rw [h]
  funext fuel
  induction fuel with
  | zero => rfl
  | succ fuel ih =>
    funext count s
    rw [Iterator.chunkEndFrom, Iterator.chunkEndFrom, ih, h.matching, hslots]

/-- A chunk depends on the shared memory only. -/
theorem World.Same.chunk (h : w.Same w') : it.chunk sp w' = it.chunk sp w := by
  have hslots : w'.slots = w.slots := by rw [h]
  rw [Iterator.chunk, Iterator.chunk, Iterator.between, Iterator.between, h.matching,
    Iterator.chunkEnd, Iterator.chunkEnd, h.chunkEndFrom, hslots]

/-- `immutable_cache_cache_entry_fetch_zval` unpersists the value of the entry. -/
theorem wp_entryFetchZval (p : Nat) : Wp (entryFetchZval sp php p) w (fun r w' => w.Same w' ∧
    r = unpersist sp w.shm (w.serializer.getD php) (entryAt w.shm p).val) fun _ => True := by
  simp only [entryFetchZval, wp_bind, wp_get]
  split
  · rw [wp_bind]
    exact (Harmless.callback _ _ w).mono (fun _ w₁ h₁ => ⟨h₁, rfl⟩) fun _ _ => trivial
  · exact ⟨.refl w, rfl⟩

/-- `immutable_cache_iterator_item_ctor` makes the item of the entry. -/
theorem wp_itemCtor (p : Nat) : Wp (itemCtor sp php it p) w
    (fun item w' => w.Same w' ∧ item = it.itemOf sp php w p) fun _ => True := by
  simp only [itemCtor, wp_bind]
  refine (Harmless.emallocN 3 w).mono (fun _ w₁ h₁ => ?_) fun _ _ => trivial
  have hser : w₁.serializer = w.serializer := by rw [h₁]
  split
  next hbit =>
    simp only [wp_bind, wp_map]
    refine (wp_entryFetchZval p).mono (fun v w₂ h₂ => ?_) fun _ => id
    obtain ⟨h₂, rfl⟩ := h₂
    refine (Harmless.emallocN 2 w₂).mono (fun _ w₃ h₃ => ?_) fun _ _ => trivial
    have h₃ := (h₁.trans h₂).trans h₃
    simp only [wp_get, wp_pure, h₃.shm, h₁.shm, hser, Iterator.itemOf, if_pos hbit, and_true]
    exact h₃
  next hbit =>
    simp only [wp_bind, wp_pure]
    refine (Harmless.emallocN 2 w₁).mono (fun _ w₂ h₂ => ?_) fun _ _ => trivial
    have h₂ := h₁.trans h₂
    simp only [wp_get, h₂.shm, Iterator.itemOf, if_neg hbit, and_true]
    exact h₂

/-- The loop over a chain puts the items of its matching entries on the stack. -/
theorem wp_fetchChain (fuel : Nat) (head : Option Nat) :
    Wp (fetchChain sp php fuel head it) w (fun r w' => w.Same w' ∧ ∃ s,
      r.2 = { it with stack := s } ∧ r.1 = (it.select sp w (walk w.shm fuel head)).length ∧
        s.data = it.stack.data ++
          (it.select sp w (walk w.shm fuel head)).map (it.itemOf sp php w)) fun _ => True := by
  induction fuel generalizing head it w with
  | zero =>
    have hdone : Wp (pure (0, it) : Op υ (Nat × Iterator υ)) w (fun r w' => w.Same w' ∧ ∃ s,
        r.2 = { it with stack := s } ∧ r.1 = 0 ∧ s.data = it.stack.data ++ []) fun _ => True :=
      ⟨.refl w, it.stack, rfl, rfl, (List.append_nil _).symm⟩
    cases head <;> exact hdone
  | succ fuel ih =>
    cases head with
    | none => exact ⟨.refl w, it.stack, rfl, rfl, (List.append_nil _).symm⟩
    | some p =>
      simp only [fetchChain, wp_bind, wp_get, walk, Iterator.select, List.filter_cons]
      split
      next hm =>
        simp only [wp_bind]
        refine (wp_itemCtor p).mono (fun item w₁ h₁ => ?_) fun _ => id
        obtain ⟨h₁, rfl⟩ := h₁
        refine (ih _).mono (fun r w₂ h₂ => ?_) fun _ => id
        obtain ⟨h₂, s, hr, hlen, hdata⟩ := h₂
        have halike : it.Alike { it with stack := it.stack.push (it.itemOf sp php w p) } :=
          ⟨rfl, rfl, rfl, rfl⟩
        rw [halike.select, h₁.select, h₁.shm] at hlen hdata
        rw [halike.itemOf, h₁.itemOf, Stack.push_data, List.append_assoc] at hdata
        exact ⟨h₁.trans h₂, s, hr, congrArg (· + 1) hlen, hdata⟩
      next hm => exact ih _

/-- The loop over the slots puts the items of a chunk on the stack, and stops at its end. -/
theorem wp_fetchSlots (fuel count : Nat) :
    Wp (fetchSlots sp php fuel count it) w (fun r w' => w.Same w' ∧ ∃ s,
      let e := it.chunkEndFrom sp w fuel count it.slotIdx
      let ps := it.between sp w it.slotIdx e
      r.2 = { it with stack := s, slotIdx := e } ∧ r.1 = count + ps.length ∧
        s.data = it.stack.data ++ ps.map (it.itemOf sp php w)) fun _ => True := by
  induction fuel generalizing count it w with
  | zero =>
    refine ⟨.refl w, it.stack, rfl, ?_, ?_⟩
    · simp [Iterator.chunkEndFrom, Iterator.between_self]
    · simp [Iterator.chunkEndFrom, Iterator.between_self]
  | succ fuel ih =>
    simp only [fetchSlots, wp_bind, wp_get]
    split
    next hc =>
      simp only [wp_bind]
      refine (wp_fetchChain _ _).mono (fun r w₁ h₁ => ?_) fun _ => id
      obtain ⟨h₁, s, hr, hlen, hdata⟩ := h₁
      obtain ⟨n, it₁⟩ := r
      dsimp only at hr hlen hdata ⊢
      subst hr hlen
      refine (ih _).mono (fun r w₂ h₂ => ?_) fun _ => id
      obtain ⟨h₂, s', hr, hlen', hdata'⟩ := h₂
      change s.data = it.stack.data ++ (it.matching sp w it.slotIdx).map _ at hdata
      have halike : it.Alike { it with stack := s, slotIdx := it.slotIdx + 1 } := ⟨rfl, rfl, rfl, rfl⟩
      rw [halike.chunkEndFrom, h₁.chunkEndFrom] at hr hlen' hdata'
      rw [halike.between, Iterator.between, h₁.matching, ← Iterator.between] at hlen' hdata'
      rw [halike.itemOf, h₁.itemOf, hdata] at hdata'
      rw [Iterator.chunkEndFrom, if_pos hc]
      refine ⟨h₁.trans h₂, s', hr, ?_, ?_⟩
      -- the slot at the index, and then the slots after it
      all_goals rw [← Iterator.between_append (m := it.slotIdx + 1) (by omega)
        (Iterator.le_chunkEndFrom _ _ _ _ _ _), Iterator.between_succ]
      · rw [List.length_append, ← Nat.add_assoc]
        exact hlen'
      · rw [List.map_append, ← List.append_assoc]
        exact hdata'
    next hc =>
      refine ⟨.refl w, it.stack, ?_, ?_, ?_⟩
      all_goals simp [Iterator.chunkEndFrom, if_neg hc, Iterator.between_self]

/-- A fetch pops what the size of the stack tells it to, and pushes the items of the next chunk if it
gets the lock. -/
theorem wp_fetchActive_popAll : Wp (fetchActive sp php it) w (fun r w' => w.Same w' ∧ ∃ s,
    let rest := (it.stack.popAll it.stack.data.length).data
    (w.env.lockOk w.lockTries = true ∧ r.1 = (it.chunk sp w).length ∧
      r.2 = { it with stack := s, slotIdx := it.chunkEnd sp w, stackIdx := 0 } ∧
      s.data = rest ++ (it.chunk sp w).map (it.itemOf sp php w)) ∨
    w.env.lockOk w.lockTries = false ∧ r = (0, { it with stack := s }) ∧ s.data = rest)
    fun _ => True := by
  simp only [fetchActive, rlock, wp_bind]
  refine Harmless.wp_acquire.mono (fun ok w₁ h₁ => ?_) fun _ _ => trivial
  obtain ⟨h₁, rfl⟩ := h₁
  split
  next hok =>
    simp only [wp_ensuring, wp_bind, wp_get, unlock, wp_modify]
    have hslots : w₁.slots = w.slots := by rw [h₁]
    refine (wp_fetchSlots _ _).mono (fun r w₂ h₂ => ?_) fun _ _ => trivial
    obtain ⟨h₂, s, hr, hcount, hdata⟩ := h₂
    have halike : it.Alike { it with stack := it.stack.popAll it.stack.data.length } :=
      ⟨rfl, rfl, rfl, rfl⟩
    rw [halike.chunkEndFrom, h₁.chunkEndFrom, hslots] at hr hcount hdata
    rw [halike.between, Iterator.between, h₁.matching, ← Iterator.between] at hcount hdata
    rw [halike.itemOf, h₁.itemOf] at hdata
    rw [Nat.zero_add] at hcount
    refine ⟨(h₁.trans h₂).trans rfl, s, .inl ⟨hok, hcount, ?_, hdata⟩⟩
    dsimp only
    rw [hr]
    rfl
  next hok => exact ⟨h₁, _, .inr ⟨by simpa using hok, rfl, rfl⟩⟩

/-- A fetch empties the stack, and pushes the items of the next chunk if it gets the lock. -/
theorem wp_fetchActive (hlen : it.stack.data.length < 2 ^ 31) :
    Wp (fetchActive sp php it) w (fun r w' => w.Same w' ∧ ∃ s,
      (w.env.lockOk w.lockTries = true ∧ r.1 = (it.chunk sp w).length ∧
        r.2 = { it with stack := s, slotIdx := it.chunkEnd sp w, stackIdx := 0 } ∧
        s.data = (it.chunk sp w).map (it.itemOf sp php w)) ∨
      w.env.lockOk w.lockTries = false ∧ r = (0, { it with stack := s }) ∧ s.data = [])
      fun _ => True := by
  have hempty := Stack.popAll_data hlen le_rfl
  refine wp_fetchActive_popAll.mono (fun r w₁ h₁ => ?_) fun _ => id
  rwa [hempty] at h₁

end ImmutableCache
