import ImmutableCache.Cache.Inv

/-!
# Persisting into the cache

What `immutable_cache_persist` does to the cache: it makes a draft, an entry in a fresh block that
nothing points to (`Draft`), or leaves the table as it was. A bailout in the middle of the copy
leaves the fresh block behind (`Leaked`).
-/

namespace ImmutableCache

open Bail

variable {υ : Type} {z : Zend} {pool : Pool} {sp : Space} {shm : Mem}
  {es : List (Nat × Bytes)} {w w' w₁ : World υ} {live : Nat → Option Nat} {php : Serializer υ}
  {depth p sz n : Nat} {orig : Entry} {k : Bytes} {c : Ctxt}

/-- The table holds the same entries, and the same blocks are allocated. -/
def Kept (pool : Pool) (z : Zend) (es : List (Nat × Bytes)) (live : Nat → Option Nat)
    (w w' : World υ) : Prop :=
  w'.Inv pool z es live ∧ w.Le es w' es

/-- The table holds the same entries, and one more block is allocated, which nothing points to. -/
def Leaked (pool : Pool) (z : Zend) (es : List (Nat × Bytes)) (live : Nat → Option Nat)
    (w w' : World υ) : Prop :=
  ∃ p sz, live p = none ∧ Kept pool z es (Function.update live p (some sz)) w w'

/-- The slots, the header and what is published are as they were. -/
structure Untouched (es : List (Nat × Bytes)) (w w' : World υ) : Prop where
  slots : w'.slots = w.slots
  header : w'.header = w.header
  shm : ∀ q, Pub w.shm es q → w'.shm q = w.shm q

/-- What leaves the segments and the memory alone keeps the entries. -/
theorem World.Inv.kept (h : w.Inv pool z es live) (hs : w.Same w') : Kept pool z es live w w' :=
  ⟨hs.inv h, hs.le⟩

/-- Two passages that keep the entries keep them together. -/
theorem Kept.trans (h : Kept pool z es live w w₁) (hinv : w.Inv pool z es live)
    (h' : Kept pool z es live w₁ w') : Kept pool z es live w w' :=
  ⟨h'.1, h.2.trans hinv h'.2⟩

/-- Nothing is lost when locks are taken or request memory is allocated afterwards. -/
theorem Kept.of_same (h : Kept pool z es live w w₁) (hs : w₁.Same w') :
    Kept pool z es live w w' := ⟨hs.inv h.1, h.2.of_same hs⟩

/-- The same for the slots, the header and what is published. -/
theorem Untouched.of_same (h : Untouched es w w₁) (hs : w₁.Same w') : Untouched es w w' where
  slots := by
    rw [hs]
    exact h.slots
  header := by
    rw [hs]
    exact h.header
  shm q hq := hs.shm ▸ h.shm q hq

/-- Freeing a block that is not published. -/
theorem Untouched.freed (h : Untouched es w w₁) {s : Sma} {ps : List Nat}
    (hs : { w₁ with sma := s, freed := ps }.Same w') : Untouched es w w' :=
  have hw : Untouched es w { w₁ with sma := s, freed := ps } := ⟨h.slots, h.header, h.shm⟩
  hw.of_same hs

/-- Locks and request memory touch none of these. -/
theorem World.Same.untouched (hs : w.Same w') : Untouched es w w' :=
  .of_same ⟨rfl, rfl, fun _ _ => rfl⟩ hs

/-- An address is published, or lies in the block of `n` bytes at `p`. -/
def PubOr (shm : Mem) (es : List (Nat × Bytes)) (p n q : Nat) : Prop :=
  Pub shm es q ∨ p ≤ q ∧ q < p + n

/-- The state `w'` with a draft of `orig` at `p`, sized at `c`, in a payload of `sz` bytes. -/
structure Draft (pool : Pool) (sp : Space) (php : Serializer υ) (depth : Nat)
    (es : List (Nat × Bytes)) (live : Nat → Option Nat) (orig : Entry) (k : Bytes) (w : World υ)
    (c : Ctxt) (p sz : Nat) (w' : World υ) : Prop where
  sized : persistSize sp php w.serializer depth w.shm w.serializations orig = (true, c)
  free : live p = none
  room : c.size ≤ sz
  sma : pool.Ok w'.sma (Function.update live p (some sz))
  copied : Copied sp (PubOr w.shm es p c.size) (view sp w.shm es) depth c orig k p
    (w.shm.clear p c.size) w'.shm
  same : { w with
    sma := w'.sma
    shm := w'.shm
    encoder := Function.update w.encoder p
      (if c.useSerialization then some (w.serializer.getD php) else none) }.Same w'

/-- An entry that has been drafted stays so. -/
theorem Draft.of_same
    (h : Draft pool sp php depth es live orig k w c p sz w₁) (hs : w₁.Same w') :
    Draft pool sp php depth es live orig k w c p sz w' := by
  have hsma := hs.sma
  have hshm := hs.shm
  refine ⟨h.sized, h.free, h.room, hsma ▸ h.sma, hshm ▸ h.copied, ?_⟩
  rw [hsma, hshm]
  exact h.same.trans hs

/-- A block that has just been cleared is empty. -/
theorem Mem.clear_in {q : Nat} (h1 : p ≤ q) (h2 : q < p + n) : shm.clear p n q = none :=
  if_pos ⟨h1, h2⟩

/-- Clearing a block leaves the rest of the memory alone. -/
theorem Mem.clear_out {q : Nat} (h : q < p ∨ p + n ≤ q) : shm.clear p n q = shm q :=
  if_neg (by omega)

/-- Clearing a fresh block does not touch what is published. -/
theorem World.Inv.clear (h : w.Inv pool z es live) {s : Sma} (hp : live p = none) (hn : n ≤ sz)
    (hok : pool.Ok s (Function.update live p (some sz))) {q : Nat} (hq : Pub w.shm es q) :
    q < p ∨ p + n ≤ q := by
  by_contra hcon
  exact h.not_pub hp hok hn (by omega) (by omega) hq

/-- A block that is left behind. -/
theorem World.Inv.leak (h : w.Inv pool z es live) {s : Sma} (hp : live p = none) (hn : n ≤ sz)
    (hok : pool.Ok s (Function.update live p (some sz)))
    (hs : { w with sma := s, shm := w.shm.clear p n }.Same w') : Leaked pool z es live w w' := by
  have hne : ∀ x ∈ es, x.1 ≠ p := by
    rintro x hx rfl
    exact h.not_entry hp (List.mem_map_of_mem hx)
  have hkept : Kept pool z es (Function.update live p (some sz)) w
      { w with sma := s, shm := w.shm.clear p n } :=
    h.frame (fun q hq => Mem.clear_out (h.clear hp hn hok hq)) hok
      (fun x hx => Function.update_of_ne (hne x hx) _ _) (fun _ _ => rfl) ⟨[], rfl, by simp⟩
      rfl rfl rfl rfl
  exact ⟨p, sz, hp, hkept.of_same hs⟩

namespace Draft

variable (h : Draft pool sp php depth es live orig k w c p sz w')

include h

/-- Drafting an entry writes nothing outside its block. -/
theorem outside {q : Nat} (hq : q < p ∨ p + c.size ≤ q) : w'.shm q = w.shm q :=
  (h.copied.outside q hq).trans (Mem.clear_out hq)

/-- A draft does not change the table. -/
theorem kept (hinv : w.Inv pool z es live) :
    Kept pool z es (Function.update live p (some sz)) w w' := by
  have hne : ∀ x ∈ es, x.1 ≠ p := by
    rintro x hx rfl
    exact hinv.not_entry h.free (List.mem_map_of_mem hx)
  have hs := h.same
  refine hinv.frame (fun q hq => h.outside (hinv.clear h.free h.room h.sma hq)) h.sma
    (fun x hx => Function.update_of_ne (hne x hx) _ _) (fun x hx => ?_) ?_ ?_ ?_ ?_ ?_
  · rw [hs]
    exact Function.update_of_ne (hne x hx) _ _
  · exact ⟨[], by rw [hs]; rfl, by simp⟩
  all_goals rw [hs]

/-- A draft touches nothing that is published. -/
theorem untouched (hinv : w.Inv pool z es live) : Untouched es w w' where
  slots := by rw [h.same]
  header := by rw [h.same]
  shm q hq := h.outside (hinv.clear h.free h.room h.sma hq)

end Draft

/-! ## Bailouts of the copy -/

/-- The part of `immutable_cache_persist` before the copy: the sizing, and the allocation of a block
for what it has sized. -/
def persistReserve (pool : Pool) (sp : Space) (php : Serializer υ) (depth : Nat) (orig : Entry) :
    Op υ (Option (Nat × Ctxt)) := do
  let w ← get
  let r := persistSize sp php w.serializer depth w.shm w.serializations orig
  let c := r.2
  emallocN (c.emallocs - (c.serializations - w.serializations))
  serializeN (w.serializer.getD php) (c.serializations - w.serializations)
  modify fun w => { w with
    warnings := w.warnings ++ c.warnings
    thrown := w.thrown + c.exception.toNat + w.handled c.warnings.length }
  if r.1 then
    match ← smaMalloc pool c.size with
    | some p => pure (some (p, c))
    | none => pure none
  else pure none

/-- When `immutable_cache_persist` has allocated a block, one of the allocations in the request heap
for the memo entries of the copy fails. -/
def CopyAborts (pool : Pool) (sp : Space) (php : Serializer υ) (depth : Nat) (orig : Entry)
    (w : World υ) : Prop :=
  ∃ p c w₁, persistReserve pool sp php depth orig w = .ok (some (p, c)) w₁ ∧
    ∃ i < (persistFill sp depth c (w₁.shm.clear p c.size) p orig).2.emallocs - c.emallocs,
      w₁.env.emallocOk (w₁.emallocs + i) = false

/-- A sequence of allocations bails out at one that fails. -/
theorem emallocN_error {k : Nat} (h : emallocN k w = .error () w') :
    ∃ i < k, w.env.emallocOk (w.emallocs + i) = false := by
  induction k generalizing w with
  | zero => cases h
  | succ k ih =>
    cases hok : w.env.emallocOk w.emallocs with
    | false => exact ⟨0, by omega, hok⟩
    | true =>
      have hstep : emallocN (k + 1) w = emallocN k { w with emallocs := w.emallocs + 1 } := by
        change EStateM.bind emalloc (fun _ => emallocN k) w = _
        have he : emalloc w = .ok () { w with emallocs := w.emallocs + 1 } := by
          change (if w.env.emallocOk w.emallocs = true then _ else _ : Op υ Unit) _ = _
          rw [if_pos hok]
          rfl
        rw [EStateM.bind, he]
      rw [hstep] at h
      obtain ⟨i, hi, hfail⟩ := ih h
      refine ⟨i + 1, by omega, ?_⟩
      rwa [Nat.add_assoc, Nat.add_comm 1 i] at hfail

/-- The rest of `immutable_cache_persist`: the copy into the block at `p`. -/
def persistInto (sp : Space) (depth : Nat) (orig : Entry) (ser : Serializer υ) (p : Nat)
    (c : Ctxt) : Op υ (Option Nat) := do
  modify fun w => { w with shm := w.shm.clear p c.size }
  let f := persistFill sp depth c (← get).shm p orig
  emallocN (f.2.emallocs - c.emallocs)
  modify fun w => { w with
    shm := f.2.shm
    encoder := Function.update w.encoder f.1 (if c.useSerialization then some ser else none) }
  pure (some f.1)

/-- Copying into the block changes nothing but the memory and the locks. -/
theorem Keeps.persistInto (ser : Serializer υ) (p : Nat) (c : Ctxt) :
    Keeps World.rest (persistInto sp depth orig ser p c) := by
  refine Keeps.bind (.of_modify fun _ => rfl) fun _ => Keeps.get.bind fun _ => ?_
  exact (Keeps.emallocN _).bind fun _ => Keeps.bind (.of_modify fun _ => rfl) fun _ => .pure _

/-- `immutable_cache_persist` in its two parts. -/
theorem wp_persist_iff {Q : Option Nat → World υ → Prop} {E : World υ → Prop} :
    Wp (persist pool sp php depth orig) w Q E ↔
      Wp (persistReserve pool sp php depth orig) w (fun r w' =>
        match r with
        | some (p, c) => Wp (persistInto sp depth orig (w.serializer.getD php) p c) w' Q E
        | none => Q none w') E := by
  simp only [persist, persistReserve, wp_bind, wp_get, wp_modify, wp_ite]
  refine iff_of_eq (congrArg₂ (Wp _ w) (funext₂ fun _ w₁ => ?_) rfl)
  refine congrArg₂ (Wp _ w₁) (funext₂ fun _ w₂ => ?_) rfl
  split
  · refine congrArg₂ (Wp _ _) (funext₂ fun r w₃ => ?_) rfl
    cases r <;> rfl
  · rfl

/-- The sizing and the allocation: nothing, or a fresh block for the entry sized at `c`. -/
theorem wp_persistReserve (hinv : w.Inv pool z es live)
    (hw : WellEntry sp (view sp w.shm es) depth orig k) :
    Wp (persistReserve pool sp php depth orig) w
      (fun r w' => r = none ∧ w.Same w' ∨ ∃ p c s sz, r = some (p, c) ∧
        persistSize sp php w.serializer depth w.shm w.serializations orig = (true, c) ∧
        { w with sma := s }.Same w' ∧ c.size ≤ sz ∧ live p = none ∧
        pool.Ok s (Function.update live p (some sz)))
      w.Same := by
  have hext : Extends (view sp w.shm es) (sp.deref w.shm) := extends_view fun _ _ _ _ ho => ho
  simp only [persistReserve, wp_bind, wp_get]
  generalize hr : persistSize sp php w.serializer depth w.shm w.serializations orig = r
  obtain ⟨ok, c⟩ := r
  refine (Harmless.emallocN _ w).mono (fun _ w₁ h₁ => ?_) fun _ => id
  refine (Harmless.serializeN _ _ w₁).mono (fun _ w₂ h₂ => ?_) fun _ h => h₁.trans h
  have h₂ := h₁.trans h₂
  simp only [wp_modify, wp_ite]
  generalize hw₃ : { w₂ with
    warnings := w₂.warnings ++ c.warnings
    thrown := w₂.thrown + c.exception.toNat + w₂.handled c.warnings.length } = w₃
  have h₃ : w.Same w₃ := hw₃ ▸ h₂.trans rfl
  cases ok with
  | false => exact .inl ⟨rfl, h₃⟩
  | true =>
    obtain ⟨hstored, hsize⟩ := persistSize_stored hw hext hr
    rw [if_pos rfl, wp_bind]
    have hok₃ : pool.Ok w₃.sma live := by
      rw [h₃.sma]
      exact hinv.sma
    have hn : c.size + blockSize + 8 ≤ 2 ^ 64 := by
      have hL := layout
      omega
    refine (wp_smaMalloc hn hok₃).mono (fun r w₄ h₄ => ?_) fun _ h => h₃.trans h
    obtain ⟨hs, rfl⟩ | ⟨p, s, sz, rfl, hs, hle, hlive, hok⟩ := Malloced.of_same h₃ h₄
    · exact .inl ⟨rfl, hs⟩
    · exact .inr ⟨p, c, s, sz, rfl, rfl, hs, hle, hlive, hok⟩

/-- The copy into a fresh block gives a draft, unless one of its allocations fails. -/
theorem wp_persistInto {s : Sma} (hinv : w.Inv pool z es live) (hon : sp.On pool z)
    (hw : WellEntry sp (view sp w.shm es) depth orig k)
    (hr : persistSize sp php w.serializer depth w.shm w.serializations orig = (true, c))
    (hs : { w with sma := s }.Same w₁) (hle : c.size ≤ sz) (hlive : live p = none)
    (hok : pool.Ok s (Function.update live p (some sz))) :
    Wp (persistInto sp depth orig (w.serializer.getD php) p c) w₁
      (fun r w' => r = some p ∧ Draft pool sp php depth es live orig k w c p sz w')
      (fun w' => Leaked pool z es live w w' ∧
        ∃ i < (persistFill sp depth c (w₁.shm.clear p c.size) p orig).2.emallocs - c.emallocs,
          w₁.env.emallocOk (w₁.emallocs + i) = false) := by
  have hext : Extends (view sp w.shm es) (sp.deref w.shm) := extends_view fun _ _ _ _ ho => ho
  simp only [persistInto, wp_bind, wp_modify, wp_get]
  have hshm : w₁.shm = w.shm := hs.shm
  have hroom : ∀ q, p ≤ q → q < p + c.size →
      w₁.shm.clear p c.size q = none ∧ PubOr w.shm es p c.size q :=
    fun q h1 h2 => ⟨Mem.clear_in h1 h2, .inr ⟨h1, h2⟩⟩
  have hsource : Source sp (PubOr w.shm es p c.size) (view sp w.shm es) := by
    refine hinv.source hon (fun q => .inl) fun q hq => ?_
    rw [hon.shared]
    rcases hq with hq | ⟨h1, h2⟩
    · exact hinv.pub_shared hq
    · exact hok.containsPointer (Function.update_self _ _ _) h1 (by omega)
  have hext' : Extends (view sp w.shm es) (sp.deref (w₁.shm.clear p c.size)) := by
    refine extends_view fun q o hq _ ho => ?_
    rw [Mem.clear_out (hinv.clear hlive hle hok hq), hshm, ho]
  obtain ⟨hp, hcopied⟩ := persistFill_copied hsource hw hext hext' hr hroom
  generalize persistFill sp depth c (w₁.shm.clear p c.size) p orig = f at hp hcopied ⊢
  obtain ⟨fp, fc⟩ := f
  dsimp only at hp hcopied ⊢
  subst hp
  have h₁ : { w with sma := s, shm := w.shm.clear fp c.size }.Same
      { w₁ with shm := w₁.shm.clear fp c.size } := by
    rw [World.Same] at hs ⊢
    rw [hs]
  refine (Harmless.emallocN _ _).eq.mono (fun _ w₂ h₂ => ?_) fun w₂ h₂ => ?_
  swap
  · obtain ⟨i, hi, hfail⟩ := emallocN_error h₂.1
    exact ⟨hinv.leak hlive hle hok (h₁.trans h₂.2), i, hi, hfail⟩
  have h₂ := h₁.trans h₂.2
  refine ⟨rfl, hr, hlive, hle, ?_, ?_, ?_⟩
  · dsimp only
    rw [h₂.sma]
    exact hok
  · rw [hshm] at hcopied
    exact hcopied
  · rw [World.Same] at h₂ ⊢
    rw [h₂]

/-- `immutable_cache_persist` on a well-formed entry. -/
theorem wp_persist (hinv : w.Inv pool z es live) (hon : sp.On pool z)
    (hw : WellEntry sp (view sp w.shm es) depth orig k) :
    Wp (persist pool sp php depth orig) w
      (fun r w' => r = none ∧ w.Same w' ∨
        ∃ p c sz, r = some p ∧ Draft pool sp php depth es live orig k w c p sz w')
      (fun w' => Kept pool z es live w w' ∨
        Leaked pool z es live w w' ∧ CopyAborts pool sp php depth orig w) := by
  refine wp_persist_iff.2 ((wp_persistReserve hinv hw).eq.mono (fun r w₁ h₁ => ?_) fun _ h =>
    .inl (hinv.kept h.2))
  obtain ⟨hrun, ⟨rfl, hs⟩ | ⟨p, c, s, sz, rfl, hr, hs, hle, hlive, hok⟩⟩ := h₁
  · exact .inl ⟨rfl, hs⟩
  · refine (wp_persistInto hinv hon hw hr hs hle hlive hok).mono (fun r w₂ h₂ => ?_) fun w₂ h₂ => ?_
    · exact .inr ⟨p, c, sz, h₂⟩
    · exact .inr ⟨h₂.1, p, c, w₁, hrun, h₂.2⟩

/-- The copy does not abort if it has nothing to allocate. -/
theorem CopyAborts.copyAllocates (hinv : w.Inv pool z es live)
    (hw : WellEntry sp (view sp w.shm es) depth orig k) (h : CopyAborts pool sp php depth orig w) :
    CopyAllocates sp (view sp w.shm es) depth w.serializer orig := by
  obtain ⟨p, c, w₁, hrun, i, hi, -⟩ := h
  have hwp : Wp (persistReserve pool sp php depth orig) w _ _ := wp_persistReserve hinv hw
  unfold Wp at hwp
  rw [hrun] at hwp
  obtain ⟨hno, -⟩ | ⟨p', c', s, sz, hpc, hr, -⟩ := hwp
  · cases hno
  · cases hpc
    by_contra hn
    rw [persistFill_emallocs hw (extends_view fun _ _ _ _ ho => ho) hr hn] at hi
    omega

/-- An entry that `immutable_cache_persist` has produced is a draft. -/
theorem World.Inv.persist_draft (hinv : w.Inv pool z es live) (hon : sp.On pool z)
    (hw : WellEntry sp (view sp w.shm es) depth orig k)
    (h : persist pool sp php depth orig w = .ok (some p) w') :
    ∃ c sz, Draft pool sp php depth es live orig k w c p sz w' := by
  have hwp : Wp (persist pool sp php depth orig) w _ _ := wp_persist hinv hon hw
  unfold Wp at hwp
  rw [h] at hwp
  obtain ⟨hno, -⟩ | ⟨p', c, sz, hp, hd⟩ := hwp
  · cases hno
  · obtain rfl := Option.some.inj hp
    exact ⟨c, sz, hd⟩

end ImmutableCache
