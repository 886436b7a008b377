import ImmutableCache.Cache.Ops
import ImmutableCache.Lib.Chain
import ImmutableCache.Persist.Copy

/-!
# The chained table

`Table z shm slots es`: the slots and chains hold exactly the entries `es`, pairs of an address and
the bytes of its key, in the order in which they were inserted. The chain of a slot is the sublist
of the entries whose key hashes to it. No two entries have the same key, so the table is the
partial map of the association list `es`; the walks of the lookups and of the insertion find an
entry by the bytes of its key.
-/

namespace ImmutableCache

variable {z : Zend} {sp : Space} {P P' : Nat → Prop} {shm shm' shm₁ : Mem}
  {slots slots' : List (Option Nat)} {es : List (Nat × Bytes)} {p q key h fuel : Nat}
  {k k' : Bytes} {head place : Option Nat} {ps : List Nat}

/-! ## What changes in a published entry -/

/-- Only `next`, `nhits` and `atime` differ, and `next` only if it was `NULL`. -/
structure Entry.Touched (e e' : Entry) : Prop where
  eq : e' = { e with next := e'.next, nhits := e'.nhits, atime := e'.atime }
  next : e.next = none ∨ e'.next = e.next

/-- Nothing has been changed. -/
theorem Entry.Touched.refl (e : Entry) : e.Touched e := ⟨rfl, .inr rfl⟩

/-- Two changes, one after the other. -/
theorem Entry.Touched.trans {e e₁ e' : Entry} (h : e.Touched e₁) (h' : e₁.Touched e') :
    e.Touched e' := by
  refine ⟨?_, ?_⟩
  · rw [h'.eq, h.eq]
  · rcases h.next with hn | hn
    · exact .inl hn
    · rcases h'.next with hn' | hn'
      · exact .inl (hn.symm.trans hn')
      · exact .inr (hn'.trans hn)

/-- At the addresses in `P` nothing changes but these three fields of entries. -/
def Evolves (P : Nat → Prop) (shm shm' : Mem) : Prop :=
  ∀ q, P q → shm' q = shm q ∨
    ∃ e e', shm q = some (.entry e) ∧ shm' q = some (.entry e') ∧ e.Touched e'

namespace Evolves

/-- Nothing has been changed. -/
theorem refl (P : Nat → Prop) (shm : Mem) : Evolves P shm shm := fun _ _ => .inl rfl

/-- Two changes, one after the other. -/
theorem trans (h : Evolves P shm shm₁) (h' : Evolves P shm₁ shm') : Evolves P shm shm' := by
  intro q hq
  rcases h q hq with h1 | ⟨e, e₁, h1, h2, h3⟩
  · rw [← h1]
    exact h' q hq
  rcases h' q hq with h4 | ⟨e₁', e', h4, h5, h6⟩
  · exact .inr ⟨e, e₁, h1, h4.trans h2, h3⟩
  · obtain rfl : e₁ = e₁' := by simpa [h2] using h4
    exact .inr ⟨e, e', h1, h5, h3.trans h6⟩

/-- At fewer addresses. -/
theorem anti (h : Evolves P shm shm') (hP : ∀ q, P' q → P q) : Evolves P' shm shm' :=
  fun q hq => h q (hP q hq)

/-- Strings and tables stay. -/
theorem retains (h : Evolves P shm shm') : Retains P shm shm' := by
  intro q o hq hne ho
  rcases h q hq with h1 | ⟨e, e', h1, -, -⟩
  · exact h1.trans ho
  · rw [h1] at ho
    exact absurd (Option.some.inj ho).symm (hne e)

/-- An entry stays an entry. -/
theorem entry (h : Evolves P shm shm') (hp : P p) {e : Entry} (he : shm p = some (.entry e)) :
    ∃ e', shm' p = some (.entry e') ∧ e.Touched e' := by
  rcases h p hp with h1 | ⟨e₁, e', h1, h2, h3⟩
  · exact ⟨e, h1.trans he, .refl e⟩
  · obtain rfl : e = e₁ := by simpa [he] using h1
    exact ⟨e', h2, h3⟩

/-- Writing to one of the three fields. -/
theorem writeEntry {e e' : Entry} (he : shm p = some (.entry e)) (ht : e.Touched e') :
    Evolves P shm (writeEntry shm p e') := by
  intro q _
  by_cases hq : q = p
  · subst hq
    exact .inr ⟨e, e', he, by simp [ImmutableCache.writeEntry], ht⟩
  · exact .inl (by simp [ImmutableCache.writeEntry, hq])

end Evolves

/-! ## The table -/

/-- The `next` of the entry at `p`. -/
def nextAt (shm : Mem) (p : Nat) : Option Nat := (entryAt shm p).next

/-- There is an entry at `p`, whose key is a frozen string with the bytes `k` in `P`. -/
def HasKey (z : Zend) (P : Nat → Prop) (shm : Mem) (p : Nat) (k : Bytes) : Prop :=
  ∃ e, shm p = some (.entry e) ∧ P e.key ∧ FrozenStr z shm e.key k

/-- The chain of slot `s` in a table with `n` slots. -/
def chainOf (z : Zend) (n : Nat) (es : List (Nat × Bytes)) (s : Nat) : List Nat :=
  (es.filter fun x => z.hash x.2 % n = s).map Prod.fst

/-- The slots hold the entries `es`, whose keys lie in `P`. -/
structure Table (z : Zend) (P : Nat → Prop) (shm : Mem) (slots : List (Option Nat))
    (es : List (Nat × Bytes)) : Prop where
  nslots : 0 < slots.length
  nodup : (es.map Prod.fst).Nodup
  keys : (es.map Prod.snd).Nodup
  entry : ∀ x ∈ es, HasKey z P shm x.1 x.2
  chain : ∀ s < slots.length, Chain (nextAt shm) (slots.getD s none) (chainOf z slots.length es s)

/-- The entry that the table binds the key `k` to. -/
def bound (es : List (Nat × Bytes)) (k : Bytes) : Option Nat :=
  (es.find? fun x => x.2 = k).map Prod.fst

/-- The entry at an address. -/
theorem entryAt_eq {e : Entry} (h : shm p = some (.entry e)) : entryAt shm p = e := by
  rw [entryAt, h]

@[simp] theorem entryAt_writeEntry_self (e : Entry) : entryAt (writeEntry shm p e) p = e :=
  entryAt_eq (Function.update_self _ _ _)

/-- A write to one entry leaves the others alone. -/
theorem entryAt_writeEntry_of_ne {q : Nat} (e : Entry) (h : q ≠ p) :
    entryAt (writeEntry shm p e) q = entryAt shm q := by
  rw [entryAt, entryAt, writeEntry, Function.update_of_ne h]

/-- An entry keeps its key. -/
theorem HasKey.evolves (hk : HasKey z P shm p k) (hp : P p) (h : Evolves P shm shm') :
    HasKey z P shm' p k := by
  obtain ⟨e, he, hkey, o, ho, hfr⟩ := hk
  obtain ⟨e', he', ht⟩ := h.entry hp he
  have hkey' : e'.key = e.key := by rw [ht.eq]
  exact ⟨e', he', hkey' ▸ hkey, o, hkey' ▸ h.retains hkey (by simp) ho, hfr⟩

/-- A key is bound to the entry that was inserted with it. -/
theorem bound_eq_some (hn : (es.map Prod.snd).Nodup) : bound es k = some p ↔ (p, k) ∈ es := by
  induction es with
  | nil => simp [bound]
  | cons x es ih =>
    rw [List.map_cons, List.nodup_cons] at hn
    rw [bound, List.find?_cons, List.mem_cons]
    by_cases hx : x.2 = k
    · simp only [hx, decide_true, Option.map_some, Option.some.injEq]
      constructor
      · rintro rfl
        exact .inl (Prod.ext rfl hx.symm)
      · rintro (rfl | hmem)
        · rfl
        · exact absurd (List.mem_map.2 ⟨_, hmem, hx.symm⟩) hn.1
    · simp only [hx, decide_false]
      refine (ih hn.2).trans ⟨.inr, ?_⟩
      rintro (rfl | hmem)
      · exact absurd rfl hx
      · exact hmem

/-- A key that no entry has is not bound. -/
theorem bound_eq_none : bound es k = none ↔ ∀ x ∈ es, x.2 ≠ k := by
  simp [bound]

/-- A new entry at the end binds its own key, if that was free. -/
theorem bound_append (hfree : bound es k = none) :
    bound (es ++ [(p, k)]) = Function.update (bound es) k (some p) := by
  funext k'
  rw [bound, List.find?_append]
  by_cases hk : k' = k
  · subst hk
    have hnone : es.find? (fun x => x.2 = k') = none := by simpa [bound] using hfree
    simp [hnone]
  · have hk' : k ≠ k' := fun h => hk h.symm
    simp [bound, hk, hk']

/-! ## The walks -/

/-- The walk of a lookup finds the first entry of the chain with the key. -/
theorem findEntry_eq (hc : Chain (nextAt shm) head ps) (hf : ps.length ≤ fuel) :
    findEntry sp shm key h fuel head =
      ps.find? fun p => keyEquals sp shm (entryAt shm p) key h := by
  induction ps generalizing fuel head with
  | nil =>
    rw [Chain.nil_iff.1 hc]
    cases fuel <;> rfl
  | cons p ps ih =>
    obtain ⟨rfl, hc⟩ := hc
    obtain ⟨fuel, rfl⟩ := Nat.exists_eq_add_of_le' (Nat.zero_lt_of_lt hf)
    rw [findEntry, List.find?_cons]
    split
    next he => rw [he]
    next he =>
      rw [Bool.eq_false_iff.2 he]
      exact ih hc (Nat.le_of_succ_le_succ hf)

/-- The walk of the insertion comes to the end of the chain if no entry has the key. -/
theorem insertPlace_eq (hc : Chain (nextAt shm) head ps) (hf : ps.length ≤ fuel) :
    insertPlace sp shm key h fuel place head =
      if ps.any fun p => keyEquals sp shm (entryAt shm p) key h then none
      else some (ps.getLast?.or place) := by
  induction ps generalizing fuel head place with
  | nil =>
    rw [Chain.nil_iff.1 hc]
    cases fuel <;> rfl
  | cons p ps ih =>
    obtain ⟨rfl, hc⟩ := hc
    obtain ⟨fuel, rfl⟩ := Nat.exists_eq_add_of_le' (Nat.zero_lt_of_lt hf)
    rw [insertPlace, List.any_cons]
    split
    next he => simp [he]
    next he =>
      rw [Bool.eq_false_iff.2 he, Bool.false_or]
      refine (ih hc (Nat.le_of_succ_le_succ hf)).trans ?_
      cases ps with
      | nil => rfl
      | cons q ps => simp [List.getLast?_cons]

/-! ## Keys -/

/-- Reading a frozen string of the shared segments. -/
theorem FrozenStr.zstr (h : FrozenStr z shm p k) (hp : sp.shared p = true) :
    (sp.zstr shm p).h = z.hash k ∧ (sp.zstr shm p).val = k := by
  obtain ⟨o, ho, -, hh, rfl⟩ := h
  rw [Space.zstr, Space.deref_shared hp, ho]
  exact ⟨hh, rfl⟩

/-- The hash of a string that can be read. -/
theorem keyHash_eq {rd : Mem} (hext : Extends rd (sp.deref shm))
    (hk : readStr sp.zend rd key = some k) :
    keyHash sp shm key = sp.zend.hash k ∧ (sp.zstr shm key).val = k := by
  obtain ⟨o, ho, hh, rfl⟩ := readStr_eq_some.1 hk
  have hz : sp.zstr shm key = o := by rw [Space.zstr, hext ho]
  rw [keyHash, hz, Zend.zstrHash]
  refine ⟨?_, rfl⟩
  split
  next hne => exact hh.resolve_left hne
  · rfl

/-- The comparison of hash, length and bytes is the comparison of the bytes. -/
theorem keyEquals_eq (hP : ∀ p, P p → sp.shared p = true) (he : HasKey sp.zend P shm p k')
    (hk : (sp.zstr shm key).val = k) :
    keyEquals sp shm (entryAt shm p) key (sp.zend.hash k) = decide (k' = k) := by
  obtain ⟨e, he, hp, hfr⟩ := he
  obtain ⟨h1, h2⟩ := hfr.zstr (hP _ hp)
  rw [keyEquals, entryAt_eq he, h1, h2, hk]
  by_cases hkk : k' = k
  · simp [hkk]
  · simp [hkk]

namespace Table

/-- A chain is no longer than the table. -/
theorem length_chainOf_le (z : Zend) (n : Nat) (es : List (Nat × Bytes)) (s : Nat) :
    (chainOf z n es s).length ≤ es.length := by
  rw [chainOf, List.length_map]
  exact List.length_filter_le _ _

/-- Among the entries of the chain of its slot, a key finds the entry it is bound to. -/
theorem find?_chainOf (ht : Table sp.zend P shm slots es) (hP : ∀ p, P p → sp.shared p = true)
    (hk : (sp.zstr shm key).val = k) :
    ((chainOf sp.zend slots.length es (sp.zend.hash k % slots.length)).find? fun p =>
      keyEquals sp shm (entryAt shm p) key (sp.zend.hash k)) = bound es k := by
  rw [chainOf, List.find?_map, List.find?_filter, bound]
  refine congrArg _ (List.find?_congr fun x hx => ?_)
  rw [Function.comp_apply, keyEquals_eq hP (ht.entry x hx) hk]
  by_cases hxk : x.2 = k
  · simp [hxk]
  · simp [hxk]

/-- The lookups find the entry that the key is bound to. -/
theorem findEntry (ht : Table sp.zend P shm slots es) (hP : ∀ p, P p → sp.shared p = true)
    (hk : (sp.zstr shm key).val = k) (hf : es.length ≤ fuel) :
    findEntry sp shm key (sp.zend.hash k) fuel
      (slots.getD (sp.zend.hash k % slots.length) none) = bound es k := by
  rw [findEntry_eq (ht.chain _ (Nat.mod_lt _ ht.nslots))
    ((length_chainOf_le _ _ _ _).trans hf)]
  exact ht.find?_chainOf hP hk

/-- The insertion finds the end of the chain if the key is free. -/
theorem insertPlace (ht : Table sp.zend P shm slots es) (hP : ∀ p, P p → sp.shared p = true)
    (hk : (sp.zstr shm key).val = k) (hf : es.length ≤ fuel) :
    insertPlace sp shm key (sp.zend.hash k) fuel none
      (slots.getD (sp.zend.hash k % slots.length) none) =
      if (bound es k).isSome then none
      else some (chainOf sp.zend slots.length es (sp.zend.hash k % slots.length)).getLast? := by
  have hany : ((chainOf sp.zend slots.length es (sp.zend.hash k % slots.length)).any fun p =>
      keyEquals sp shm (entryAt shm p) key (sp.zend.hash k)) = (bound es k).isSome := by
    rw [← ht.find?_chainOf hP hk, Bool.eq_iff_iff, List.find?_isSome, List.any_eq_true]
  rw [insertPlace_eq (ht.chain _ (Nat.mod_lt _ ht.nslots))
    ((length_chainOf_le _ _ _ _).trans hf), hany, Option.or_none]

/-- The chain of the slot of a new entry at the end. -/
theorem chainOf_append (z : Zend) (n : Nat) (es : List (Nat × Bytes)) (p : Nat) (k : Bytes)
    (s : Nat) : chainOf z n (es ++ [(p, k)]) s =
      if z.hash k % n = s then chainOf z n es s ++ [p] else chainOf z n es s := by
  rw [chainOf, List.filter_append, List.map_append, ← chainOf]
  split
  next h => simp [h]
  next h => simp [h]

/-- The chain of a slot holds the entries whose hash leads to it. -/
theorem mem_chainOf {n s : Nat} :
    p ∈ chainOf z n es s ↔ ∃ k, (p, k) ∈ es ∧ z.hash k % n = s := by
  simp [chainOf]

/-- Each of them once. -/
theorem nodup_chainOf (ht : Table z P shm slots es) (s : Nat) :
    (chainOf z slots.length es s).Nodup :=
  ht.nodup.sublist (List.filter_sublist.map _)

/-- Nothing but the `next` fields of the entries matters to the chains. -/
theorem of_evolves (ht : Table z P shm slots es) (hP : ∀ x ∈ es, P x.1) (h : Evolves P shm shm')
    (hn : ∀ x ∈ es, nextAt shm' x.1 = nextAt shm x.1) : Table z P shm' slots es where
  nslots := ht.nslots
  nodup := ht.nodup
  keys := ht.keys
  entry x hx := (ht.entry x hx).evolves (hP x hx) h
  chain s hs := (ht.chain s hs).congr fun p hp => by
    obtain ⟨k, hk, -⟩ := mem_chainOf.1 hp
    exact hn _ hk

/-- At more addresses. -/
theorem mono (ht : Table z P shm slots es) (hP : ∀ q, P q → P' q) : Table z P' shm slots es where
  nslots := ht.nslots
  nodup := ht.nodup
  keys := ht.keys
  entry x hx := (ht.entry x hx).imp fun _ he => ⟨he.1, hP _ he.2.1, he.2.2⟩
  chain := ht.chain

end Table

/-- A write to an entry changes its `next` only. -/
theorem nextAt_writeEntry (shm : Mem) (p : Nat) (e : Entry) :
    nextAt (writeEntry shm p e) = Function.update (nextAt shm) p e.next := by
  funext q
  by_cases hq : q = p
  · subst hq
    simp [nextAt, entryAt, writeEntry]
  · simp [nextAt, entryAt, writeEntry, hq]

/-- Linking a new entry with a free key at the end of its chain. -/
theorem Table.linkEntry (ht : Table z P shm slots es) (hP : ∀ x ∈ es, P x.1)
    (hnew : HasKey z P shm p k) (hp : P p) (hnext : nextAt shm p = none)
    (hfresh : p ∉ es.map Prod.fst) (hfree : bound es k = none) {r : Mem × List (Option Nat)}
    (hr : r = linkEntry shm slots (z.hash k % slots.length) p
      (chainOf z slots.length es (z.hash k % slots.length)).getLast?) :
    Table z P r.1 r.2 (es ++ [(p, k)]) ∧ Evolves P shm r.1 ∧ r.2.length = slots.length := by
  have hnodup : ((es ++ [(p, k)]).map Prod.fst).Nodup := by
    rw [List.map_append]
    refine List.nodup_append.2 ⟨ht.nodup, by simp, ?_⟩
    rintro a ha b hb rfl
    obtain rfl : a = p := by simpa using hb
    exact hfresh ha
  have hkeys : ((es ++ [(p, k)]).map Prod.snd).Nodup := by
    rw [List.map_append]
    refine List.nodup_append.2 ⟨ht.keys, by simp, ?_⟩
    intro a ha b hb hab
    obtain ⟨x, hx, rfl⟩ := List.mem_map.1 ha
    obtain rfl : b = k := by simpa using hb
    exact bound_eq_none.1 hfree x hx hab
  have hs : z.hash k % slots.length < slots.length := Nat.mod_lt _ ht.nslots
  rcases List.eq_nil_or_concat (chainOf z slots.length es (z.hash k % slots.length)) with
    hc | ⟨xs, q, hc⟩
  · -- the slot is empty
    rw [hc, List.getLast?_nil, ImmutableCache.linkEntry] at hr
    subst hr
    have hlen : (slots.set (z.hash k % slots.length) (some p)).length = slots.length :=
      List.length_set
    refine ⟨{ nslots := by rw [hlen]; exact ht.nslots, nodup := hnodup, keys := hkeys
              entry := ?_, chain := ?_ }, .refl P shm, hlen⟩
    · intro x hx
      rcases List.mem_append.1 hx with hx | hx
      · exact ht.entry x hx
      · obtain rfl := List.mem_singleton.1 hx
        exact hnew
    · intro s hs'
      rw [hlen] at hs' ⊢
      rw [chainOf_append]
      split
      next h =>
        subst h
        rw [hc]
        simpa [List.getD_eq_getElem?_getD, hs] using Chain.singleton hnext
      next h =>
        simpa [List.getD_eq_getElem?_getD, List.getElem?_set_ne h] using ht.chain s hs'
  · -- `q` is the last entry of the chain
    rw [hc, List.concat_eq_append, List.getLast?_append, List.getLast?_singleton,
      Option.some_or, ImmutableCache.linkEntry] at hr
    subst hr
    rw [List.concat_eq_append] at hc
    have hnd := ht.nodup_chainOf (z.hash k % slots.length)
    have hch := ht.chain _ hs
    rw [hc] at hnd hch
    obtain ⟨kq, hq, hqs⟩ := mem_chainOf.1 (show q ∈ chainOf z slots.length es
      (z.hash k % slots.length) by rw [hc]; simp)
    obtain ⟨e, he, -⟩ := ht.entry _ hq
    have heq : entryAt shm q = e := entryAt_eq he
    have hqn : e.next = none := by
      have := hch.next_last
      rwa [nextAt, heq] at this
    have hqp : p ≠ q := by
      rintro rfl
      exact hfresh (List.mem_map.2 ⟨_, hq, rfl⟩)
    have hev : Evolves P shm (writeEntry shm q { entryAt shm q with next := some p }) := by
      rw [heq]
      exact .writeEntry he ⟨rfl, .inl hqn⟩
    have hnx : ∀ x, x ≠ q → nextAt (writeEntry shm q { entryAt shm q with next := some p }) x =
        nextAt shm x := fun x hx => by rw [nextAt_writeEntry, Function.update_of_ne hx]
    refine ⟨{ nslots := ht.nslots, nodup := hnodup, keys := hkeys, entry := ?_, chain := ?_ }, hev,
      rfl⟩
    · intro x hx
      rcases List.mem_append.1 hx with hx | hx
      · exact (ht.entry x hx).evolves (hP x hx) hev
      · obtain rfl := List.mem_singleton.1 hx
        exact hnew.evolves hp hev
    · intro s hs'
      dsimp only
      rw [chainOf_append]
      split
      next h =>
        subst h
        rw [hc]
        refine hch.append (fun x hx => hnx x ?_) ?_ ?_
        · rintro rfl
          exact (List.nodup_append.1 hnd).2.2 x hx x (by simp) rfl
        · rw [nextAt_writeEntry, Function.update_self]
        · rw [hnx p hqp, hnext]
      next h =>
        -- `q` is in no other chain
        refine (ht.chain s hs').congr fun x hx => hnx x ?_
        rintro rfl
        obtain ⟨k', hk', hks⟩ := mem_chainOf.1 hx
        obtain rfl : kq = k' := congrArg Prod.snd
          (List.inj_on_of_nodup_map ht.nodup hq hk' rfl)
        exact h (hqs.symm.trans hks)

end ImmutableCache
