import ImmutableCache.Cache.Persist

/-!
# Storing

`immutable_cache_cache_store` publishes a draft if its key is free: the table then holds one entry
more, at the end of its chain, and the draft's block is published. Otherwise the draft is freed.
-/

namespace ImmutableCache

open Bail

variable {υ : Type} {z : Zend} {pool : Pool} {sp : Space} {shm : Mem} {rd rd' rd₁ : Mem}
  {es : List (Nat × Bytes)} {w w' w₁ : World υ} {live : Nat → Option Nat} {php : Serializer υ}
  {depth key p q sz t : Nat} {val v v' : Zval} {orig : Entry} {k : Bytes} {c : Ctxt}

/-- In the memory `rd'`, the value `v` of an entry sized at `c` stands for the value that `orig` has
in `rd`: it reads the same, or it is the serialized string. -/
def Represents (sp : Space) (rd rd' : Mem) (depth : Nat) (c : Ctxt) (orig v : Zval) : Prop :=
  if c.useSerialization then
    ∃ q buf, v = .ptr q ∧ c.serializedStr = some buf ∧ readStr sp.zend rd' q = some buf
  else ∃ a, readZval sp.zend rd (readHt sp.zend rd depth) orig = some a ∧
    readZval sp.zend rd' (readHt sp.zend rd' depth) v = some a

/-- What represents a value does so in a larger memory. -/
theorem Represents.mono (h : Represents sp rd rd₁ depth c v v') (hext : Extends rd₁ rd') :
    Represents sp rd rd' depth c v v' := by
  unfold Represents at h ⊢
  split
  next hu =>
    rw [if_pos hu] at h
    obtain ⟨q, buf, hv, hbuf, hs⟩ := h
    exact ⟨q, buf, hv, hbuf, hext.readStr hs⟩
  next hu =>
    rw [if_neg hu] at h
    obtain ⟨a, ha, ha'⟩ := h
    exact ⟨a, ha, hext.readZval (fun p a => hext.readHt le_rfl p a) _ a ha'⟩

/-- Linking an entry writes only a `next`. -/
theorem nhits_linkEntry {slots : List (Option Nat)} {s q : Nat} {place : Option Nat}
    {r : Mem × List (Option Nat)} (hr : linkEntry shm slots s p place = r) :
    (entryAt r.1 q).nhits = (entryAt shm q).nhits := by
  subst hr
  cases place with
  | none => rfl
  | some p' =>
    simp only [linkEntry]
    by_cases hq : q = p'
    · rw [hq, entryAt_writeEntry_self]
    · rw [entryAt_writeEntry_of_ne _ hq]

/-- Writing an entry that is already there. -/
theorem writeEntry_self {e : Entry} (h : shm p = some (.entry e)) : writeEntry shm p e = shm := by
  rw [writeEntry, ← h, Function.update_eq_self]

/-- A frozen string that a process reads in the shared segments. -/
theorem FrozenStr.of_deref (hq : sp.shared q = true)
    (h : FrozenStr z (sp.deref shm) q k) : FrozenStr z shm q k := by
  obtain ⟨o, ho, hh⟩ := h
  rw [Space.deref_shared hq] at ho
  exact ⟨o, ho, hh⟩

/-- The hash of a frozen string in the shared segments. -/
theorem FrozenStr.keyHash (h : FrozenStr sp.zend shm q k) (hq : sp.shared q = true) :
    keyHash sp shm q = sp.zend.hash k := by
  rw [ImmutableCache.keyHash, Zend.zstrHash, (h.zstr hq).1, if_pos (sp.zend.hash_ne_zero k)]

namespace Draft

variable (h : Draft pool sp php depth es live orig k w c p sz w')
  (hinv : w.Inv pool sp.zend es live)

include h hinv

/-- The entry of a draft. -/
theorem entry : ∃ kp v,
    w'.shm p = some (.entry { orig with key := kp, val := v, memSize := c.size }) ∧
    (∀ q, Pub w'.shm (es ++ [(p, k)]) q ↔ PubOr w.shm es p c.size q) ∧
    PubOr w.shm es p c.size kp ∧ FrozenStr sp.zend (sp.deref w'.shm) kp k ∧
    CopiedVal sp (PubOr w.shm es p c.size) (view sp w.shm es) w'.shm depth c orig.val v := by
  obtain ⟨kp, v, hp, hkp, hfr, hval⟩ := h.copied.entry
  refine ⟨kp, v, hp, fun q => ?_, hkp, hfr, hval⟩
  have hpub : Pub w'.shm es q ↔ Pub w.shm es q := Pub.congr fun x hx => by
    rw [((h.kept hinv).2.evolves.entryAt (hinv.pub_entry hx)).eq]
  rw [Pub.append, entryAt_eq hp, hpub, PubOr]

/-- The block of a draft is in the shared segments. -/
theorem pubOr_shared (hon : sp.On pool sp.zend) (hq : PubOr w.shm es p c.size q) :
    sp.shared q = true := by
  rw [hon.shared]
  rcases hq with hq | ⟨h1, h2⟩
  · exact hinv.pub_shared hq
  · have := h.room
    exact h.sma.containsPointer (Function.update_self _ _ _) h1 (by omega)

/-- With the draft, everything in the published blocks is frozen. -/
theorem frozen : AllFrozen sp.zend (Pub w'.shm (es ++ [(p, k)])) w'.shm := by
  obtain ⟨-, -, -, hpub, -⟩ := h.entry hinv
  obtain ⟨hinv', hle⟩ := h.kept hinv
  intro q o hq ho
  rcases (hpub q).1 hq with hq | ⟨h1, h2⟩
  · exact (hinv'.frozen q o (hle.pub hinv hq) ho).mono
      (fun q hq => hq.mono (List.prefix_append _ _)) (Extends.refl _).retains
  · exact (h.copied.frozen q o h1 h2 ho).mono (fun q hq => (hpub q).2 hq)
      (Extends.refl _).retains

/-- What the value of a draft stands for. -/
theorem represents (hon : sp.On pool sp.zend) :
    Represents sp (view sp w.shm es) (view sp w'.shm (es ++ [(p, k)])) depth c orig.val
      (entryAt w'.shm p).val := by
  obtain ⟨kp, v, hp, hpub, -, -, hval⟩ := h.entry hinv
  have hsh : ∀ q, Pub w'.shm (es ++ [(p, k)]) q → sp.shared q = true :=
    fun q hq => h.pubOr_shared hinv hon ((hpub q).1 hq)
  rw [entryAt_eq hp]
  unfold CopiedVal at hval
  unfold Represents
  split
  next hu =>
    rw [if_pos hu] at hval
    obtain ⟨q, buf, hv, hq, hbuf, hstr⟩ := hval
    exact ⟨q, buf, hv, hbuf, readStr_view hsh ((hpub q).2 hq) hstr.read⟩
  next hu =>
    rw [if_neg hu] at hval
    obtain ⟨hfr, a, ha, ha'⟩ := hval
    refine ⟨a, ha, readZval_view hsh ?_ (hfr.mono (fun q hq => (hpub q).2 hq)
      (Extends.refl _).retains) ha'⟩
    exact fun q a hq hr => readHt_view (h.frozen hinv) hsh hq hr

/-- A draft has an encoder if it is in serialized form. -/
theorem encoder_iff :
    (w'.encoder p).isSome = true ↔ ∃ q, (entryAt w'.shm p).val = .ptr q := by
  obtain ⟨kp, v, hp, hpub, -, -, hval⟩ := h.entry hinv
  have henc : w'.encoder p = if c.useSerialization then some (w.serializer.getD php) else none := by
    have hs := h.same
    rw [hs]
    exact Function.update_self _ _ _
  rw [entryAt_eq hp, henc]
  unfold CopiedVal at hval
  split
  next hu =>
    rw [if_pos hu] at hval
    obtain ⟨q, -, rfl, -⟩ := hval
    simp
  next hu =>
    rw [if_neg hu] at hval
    obtain ⟨hfr, -⟩ := hval
    simp only [Option.isSome_none, Bool.false_eq_true, false_iff, not_exists]
    rintro q rfl
    exact hfr

/-- The walk of the insertion, at the end of its chain or at the entry with the key. -/
theorem insertPlace (hon : sp.On pool sp.zend) :
    keyHash sp w'.shm (entryAt w'.shm p).key = sp.zend.hash k ∧
      ImmutableCache.insertPlace sp w'.shm (entryAt w'.shm p).key (sp.zend.hash k)
        w'.header.nentries none (w'.headOf (sp.zend.hash k)) =
      if (bound es k).isSome then none
      else some (chainOf sp.zend w'.slots.length es
        (sp.zend.hash k % w'.slots.length)).getLast? := by
  obtain ⟨kp, v, hp, -, hkp, hfr, -⟩ := h.entry hinv
  obtain ⟨hinv', -⟩ := h.kept hinv
  have hsh := h.pubOr_shared hinv hon hkp
  have hstr := hfr.of_deref hsh
  have hkey : (entryAt w'.shm p).key = kp := by rw [entryAt_eq hp]
  rw [hkey]
  refine ⟨hstr.keyHash hsh, ?_⟩
  refine hinv'.table.insertPlace (fun q hq => ?_) (hstr.zstr hsh).2 hinv'.nentries.ge
  rw [hon.shared]
  exact hinv'.pub_shared hq

/-- The new table, with the draft at the end of its chain. -/
theorem table (hon : sp.On pool sp.zend) (hnext : orig.next = none) (hfree : bound es k = none)
    {r : Mem × List (Option Nat)}
    (hr : r = linkEntry w'.shm w'.slots (sp.zend.hash k % w'.slots.length) p
      (chainOf sp.zend w'.slots.length es (sp.zend.hash k % w'.slots.length)).getLast?) :
    Table sp.zend (Pub w'.shm (es ++ [(p, k)])) r.1 r.2 (es ++ [(p, k)]) ∧
      Evolves (Pub w'.shm (es ++ [(p, k)])) w'.shm r.1 ∧ r.2.length = w'.slots.length := by
  obtain ⟨kp, v, hp, hpub, hkp, hfr, -⟩ := h.entry hinv
  obtain ⟨hinv', -⟩ := h.kept hinv
  have hmono := fun q (hq : Pub w'.shm es q) => hq.mono (List.prefix_append es [(p, k)])
  refine (hinv'.table.mono hmono).linkEntry (fun x hx => hmono _ (hinv'.pub_entry hx)) ?_ ?_ ?_
    (hinv.not_entry h.free) hfree hr
  · exact ⟨_, hp, (hpub kp).2 hkp, hfr.of_deref (h.pubOr_shared hinv hon hkp)⟩
  · have := h.copied.nonempty
    exact (hpub p).2 (.inr ⟨le_rfl, by omega⟩)
  · rw [nextAt, entryAt_eq hp]
    exact hnext

/-- Inserting a draft whose key is bound changes nothing. -/
theorem insert_bound (hon : sp.On pool sp.zend) (hb : bound es k ≠ none) :
    wlockedInsertExclusive sp p w' = (false, w') := by
  obtain ⟨hhash, hplace⟩ := h.insertPlace hinv hon
  unfold wlockedInsertExclusive
  dsimp only
  rw [hhash, hplace, if_pos (Option.isSome_iff_ne_none.2 hb)]

/-- Inserting a draft whose key is free publishes it. -/
theorem insert_free (hon : sp.On pool sp.zend) (hnext : orig.next = none) (hhit : orig.nhits = 0)
    (hfree : bound es k = none) :
    ∃ w₂, wlockedInsertExclusive sp p w' = (true, w₂) ∧
      w₂.Inv pool sp.zend (es ++ [(p, k)]) (Function.update live p (some sz)) ∧
      w'.Le es w₂ (es ++ [(p, k)]) ∧ w₂.encoder p = w'.encoder p ∧
      Represents sp (view sp w.shm es) (view sp w₂.shm (es ++ [(p, k)])) depth c orig.val
        (entryAt w₂.shm p).val := by
  obtain ⟨hhash, hplace⟩ := h.insertPlace hinv hon
  obtain ⟨kp, v, hp, hpub, -⟩ := h.entry hinv
  obtain ⟨hinv', -⟩ := h.kept hinv
  unfold wlockedInsertExclusive
  dsimp only
  rw [hhash, hplace, hfree, if_neg (by simp)]
  dsimp only
  have hself : writeEntry w'.shm p { entryAt w'.shm p with next := none } = w'.shm := by
    rw [entryAt_eq hp]
    refine writeEntry_self ?_
    rw [hp, ← hnext]
  rw [hself]
  generalize hr : linkEntry w'.shm w'.slots (w'.slotOf (sp.zend.hash k)) p
    (chainOf sp.zend w'.slots.length es (sp.zend.hash k % w'.slots.length)).getLast? = r
  obtain ⟨ht, hev, hlen⟩ := h.table hinv hon hnext hfree hr.symm
  have hpos : ∀ x ∈ es ++ [(p, k)], 0 < (entryAt w'.shm x.1).memSize := by
    intro x hx
    rcases List.mem_append.1 hx with hx | hx
    · exact hinv'.nonempty x hx
    · obtain rfl := List.mem_singleton.1 hx
      rw [entryAt_eq hp]
      exact h.copied.nonempty
  -- entries keep their blocks and their values
  have hat : ∀ x ∈ es ++ [(p, k)], (entryAt w'.shm x.1).Touched (entryAt r.1 x.1) :=
    fun x hx => hev.entryAt (.entry hx (hpos x hx))
  have hsize : ∀ x ∈ es ++ [(p, k)], (entryAt r.1 x.1).memSize = (entryAt w'.shm x.1).memSize :=
    fun x hx => by rw [(hat x hx).eq]
  have hval : ∀ x ∈ es ++ [(p, k)], (entryAt r.1 x.1).val = (entryAt w'.shm x.1).val :=
    fun x hx => by rw [(hat x hx).eq]
  have hpub' : Pub r.1 (es ++ [(p, k)]) = Pub w'.shm (es ++ [(p, k)]) :=
    funext fun q => propext (Pub.congr hsize)
  have hmem : (p, k) ∈ es ++ [(p, k)] := by simp
  have hhits : ∀ x ∈ es ++ [(p, k)], (entryAt r.1 x.1).nhits = (entryAt w'.shm x.1).nhits :=
    fun x hx => nhits_linkEntry hr
  refine ⟨_, rfl, ?_, ?_, rfl, ?_⟩
  · refine { sma := h.sma, table := ?_, nentries := ?_, ninserts := ?_, memSize := ?_, nhits := ?_
             block := ?_, nonempty := ?_, frozen := ?_, encoder := ?_ }
    · rw [hpub']
      exact ht
    · simp [hinv'.nentries]
    · simp [hinv'.ninserts]
    · rw [List.map_congr_left hsize, List.map_append, List.sum_append, ← hinv'.memSize]
      simp
    · rw [List.map_congr_left hhits, List.map_append, List.sum_append, ← hinv'.nhits]
      simp [entryAt_eq hp, hhit]
    · intro x hx
      rw [hsize x hx]
      rcases List.mem_append.1 hx with hx | hx
      · exact hinv'.block x hx
      · obtain rfl := List.mem_singleton.1 hx
        rw [entryAt_eq hp]
        exact ⟨sz, Function.update_self _ _ _, h.room⟩
    · intro x hx
      rw [hsize x hx]
      exact hpos x hx
    · rw [hpub']
      exact (h.frozen hinv).evolves hev
    · intro x hx
      rw [hval x hx]
      rcases List.mem_append.1 hx with hx | hx
      · exact hinv'.encoder x hx
      · obtain rfl := List.mem_singleton.1 hx
        exact h.encoder_iff hinv
  · refine ⟨List.prefix_append _ _, ?_, hlen, ⟨[], rfl, by simp⟩, rfl, fun _ _ => rfl, rfl⟩
    exact hev.anti fun q hq => hq.mono (List.prefix_append _ _)
  · rw [hval _ hmem]
    exact (h.represents hinv hon).mono (view_mono (fun q hq => by rwa [hpub']) hev.retains)

end Draft

/-! ## The operation -/

/-- The entry that `immutable_cache_persist` produces, if it does. -/
def persisted (pool : Pool) (sp : Space) (php : Serializer υ) (depth : Nat) (orig : Entry)
    (w : World υ) : Option Nat :=
  match persist pool sp php depth orig w with
  | .ok r _ => r
  | .error _ _ => none

/-- The state `w'` after a store that has added the entry at `p`, sized at `c`. -/
structure Added (pool : Pool) (sp : Space) (php : Serializer υ) (depth : Nat)
    (es : List (Nat × Bytes)) (live : Nat → Option Nat) (w : World υ) (orig : Entry) (k : Bytes)
    (c : Ctxt) (p : Nat) (w' : World υ) : Prop where
  produced : persisted pool sp php depth orig w = some p
  free : bound es k = none
  sized : persistSize sp php w.serializer depth w.shm w.serializations orig = (true, c)
  inv : ∃ sz, live p = none ∧
    w'.Inv pool sp.zend (es ++ [(p, k)]) (Function.update live p (some sz))
  le : w.Le es w' (es ++ [(p, k)])
  value : Represents sp (view sp w.shm es) (view sp w'.shm (es ++ [(p, k)])) depth c orig.val
    (entryAt w'.shm p).val
  encoder : w'.encoder p = if c.useSerialization then some (w.serializer.getD php) else none

/-- An entry that has been added stays so. -/
theorem Added.of_same (h : Added pool sp php depth es live w orig k c p w₁) (hs : w₁.Same w') :
    Added pool sp php depth es live w orig k c p w' where
  produced := h.produced
  free := h.free
  sized := h.sized
  inv := h.inv.imp fun _ h => ⟨h.1, hs.inv h.2⟩
  le := h.le.of_same hs
  value := by
    rw [hs.shm]
    exact h.value
  encoder := by
    rw [hs]
    exact h.encoder

/-- The state after a store that has not added an entry: as it was, unless the block of the draft
could not be freed because the lock could not be acquired. -/
def Rejected (pool : Pool) (z : Zend) (es : List (Nat × Bytes)) (live : Nat → Option Nat)
    (w w' : World υ) : Prop :=
  Kept pool z es live w w' ∧ Untouched es w w' ∨
    Leaked pool z es live w w' ∧ ∃ n, w.env.lockOk n = false

/-- Freeing a draft that has not been published. -/
theorem Draft.wp_smaFree (h : Draft pool sp php depth es live orig k w c p sz w')
    (hinv : w.Inv pool z es live) :
    Wp (smaFree pool p) w' (fun _ w₂ => Rejected pool z es live w w₂)
      fun w₂ => Leaked pool z es live w w₂ ∧ ∃ n, w.env.lockOk n = false := by
  obtain ⟨hinv', hle⟩ := h.kept hinv
  have henv : w'.env = w.env := hle.env
  have hne : ∀ x ∈ es, x.1 ≠ p := by
    rintro x hx rfl
    exact hinv.not_entry h.free (List.mem_map_of_mem hx)
  have hfreed : ∀ q ∈ [p], ¬ Pub w'.shm es q := by
    intro q hq hpub
    obtain rfl := List.mem_singleton.1 hq
    obtain ⟨x, hx, b, hb, h1, h2⟩ := hinv'.pub_block hpub
    have := hinv'.sma.apart (Function.update_self _ _ _) hb (hne x hx).symm
    have := h.copied.nonempty
    have := h.room
    omega
  -- the payload of the draft stays allocated
  have hleak : ∀ {s w₂}, pool.Ok s (Function.update live p (some sz)) →
      { w' with sma := s, freed := p :: w'.freed }.Same w₂ → Leaked pool z es live w w₂ := by
    intro s w₂ hok hs
    obtain ⟨h1, h2⟩ : Kept pool z es (Function.update live p (some sz)) w'
        { w' with sma := s, freed := p :: w'.freed } :=
      hinv'.frame (fun _ _ => rfl) hok (fun _ _ => rfl) (fun _ _ => rfl) ⟨[p], rfl, hfreed⟩
        rfl rfl rfl rfl
    exact ⟨p, sz, h.free, hs.inv h1, (hle.trans hinv h2).of_same hs⟩
  refine (ImmutableCache.wp_smaFree hinv'.sma (Function.update_self _ _ _)).mono
    (fun _ w₂ h₂ => ?_) fun w₂ h₂ => ⟨hleak hinv'.sma h₂.1, henv ▸ h₂.2⟩
  obtain ⟨s, hs, hok | ⟨hok, hlock⟩⟩ := h₂
  · refine .inl ⟨?_, (h.untouched hinv).freed hs⟩
    have hlive : Function.update (Function.update live p (some sz)) p none = live := by
      rw [Function.update_idem, ← h.free, Function.update_eq_self]
    rw [hlive] at hok
    obtain ⟨h1, h2⟩ : Kept pool z es live w' { w' with sma := s, freed := p :: w'.freed } :=
      hinv'.frame (fun _ _ => rfl) hok (fun x hx => (Function.update_of_ne (hne x hx) _ _).symm)
        (fun _ _ => rfl) ⟨[p], rfl, hfreed⟩ rfl rfl rfl rfl
    exact ⟨hs.inv h1, (hle.trans hinv h2).of_same hs⟩
  · exact .inr ⟨hleak hok hs, henv ▸ hlock⟩

/-- `immutable_cache_cache_store`. -/
theorem wp_cacheStore (hinv : w.Inv pool sp.zend es live) (hon : sp.On pool sp.zend)
    (hw : WellEntry sp (view sp w.shm es) depth (initEntry key val t) k) :
    Wp (cacheStore pool sp php depth key val t) w
      (fun r w' =>
        r = true ∧ (∃ c p, Added pool sp php depth es live w (initEntry key val t) k c p w') ∨
        r = false ∧ Rejected pool sp.zend es live w w' ∧ ((∀ n, w.env.lockOk n = true) →
          persisted pool sp php depth (initEntry key val t) w = none ∨ bound es k ≠ none))
      fun w' => Kept pool sp.zend es live w w' ∨ Leaked pool sp.zend es live w w' ∧
        (CopyAborts pool sp php depth (initEntry key val t) w ∨ ∃ n, w.env.lockOk n = false) := by
  rw [cacheStore, wp_bind]
  refine (wp_persist hinv hon hw).eq.mono (fun r w₁ h₁ => ?_) fun _ h =>
    h.2.imp_right (And.imp_right .inl)
  obtain ⟨hrun, ⟨rfl, hs⟩ | ⟨p, c, sz, rfl, hd⟩⟩ := h₁
  · exact .inr ⟨rfl, .inl ⟨hinv.kept hs, hs.untouched⟩, fun _ => .inl (by rw [persisted, hrun])⟩
  have henv : w₁.env = w.env := (hd.kept hinv).2.env
  simp only [wp_bind, wp_get]
  refine (wp_cacheWlock (w := w₁) _).mono (fun ok w₂ h₂ => ?_) fun w₂ h₂ => ?_
  · obtain ⟨hs, hlocks⟩ := h₂
    have hd := hd.of_same hs
    cases ok with
    | false =>
      simp only [Bool.false_eq_true, if_false, wp_bind]
      refine (hd.wp_smaFree hinv).mono (fun _ w₃ h₃ => ?_) fun _ h => .inr (h.imp_right .inr)
      refine .inr ⟨rfl, h₃, fun hall => ?_⟩
      obtain hno | ⟨n, hno⟩ := hlocks
      · cases hno
      · rw [henv, hall n] at hno
        cases hno
    | true =>
      simp only [if_true, wp_bind, wp_ensuring, wp_modifyGet, cacheWunlock, unlock, wp_modify]
      by_cases hb : bound es k = none
      · obtain ⟨w₃, hins, hinv₃, hle₃, henc, hval⟩ := hd.insert_free hinv hon rfl rfl hb
        rw [hins]
        have hadded : Added pool sp php depth es live w (initEntry key val t) k c p w₃ :=
          { produced := by rw [persisted, hrun], free := hb, sized := hd.sized
            inv := ⟨sz, hd.free, hinv₃⟩, le := (hd.kept hinv).2.trans hinv hle₃
            value := hval, encoder := by
              rw [henc, hd.same]
              exact Function.update_self _ _ _ }
        exact .inl ⟨rfl, c, p, hadded.of_same rfl⟩
      · rw [hd.insert_bound hinv hon hb]
        simp only [Bool.false_eq_true, if_false, wp_bind]
        have hunlock {ls : List Lock} : w₂.Same { w₂ with held := ls } := rfl
        refine ((hd.of_same hunlock).wp_smaFree hinv).mono (fun _ w₃ h₃ => ?_)
          fun _ h => .inr (h.imp_right .inr)
        exact .inr ⟨rfl, h₃, fun _ => .inr hb⟩
  · obtain ⟨hs, hlock⟩ := h₂
    exact .inr ⟨⟨p, sz, hd.free, (hd.of_same hs).kept hinv⟩, .inr (henv ▸ hlock)⟩

end ImmutableCache
