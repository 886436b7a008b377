import ImmutableCache.Cache.Interleaving
import ImmutableCache.Cache.Publish
import Mathlib.Logic.Relation

/-!
# Calls that are executed alone

A store or a lookup that goes on step by step, while no other process makes a step, does what the
operation of `World` does at once (`Request.run_alone`): it comes to the same outcome and leaves the
same shared memory. So a run of whole requests is also one of processes that go step by step
(`Processes.of_requests`).

A store goes through the phases of `immutable_cache_cache_store`, and there is one lemma for each: the
allocation, the copy, the walk, the link and the release of a block that is not needed. The walks of
both models come to the same place because the number of entries in the header bounds the length of a
chain.
-/

namespace ImmutableCache

open Bail

variable {ι υ : Type} {z : Zend} {pool : Pool} {php : Serializer υ} {recursive : Bool}
  {es : List (Nat × Bytes)} {live : Nat → Option Nat} {v w w' w₁ : World υ} {pc pc' pc₁ : Pc υ}
  {r : Request υ} {c : Ctxt} {p h n : Nat} {k : Bytes}

/-! ## Steps without interruption -/

/-- The process that executes the call of `r` goes on from `pc` to `pc'`, and no other one does a
step. -/
def Request.Alone (recursive : Bool) (pool : Pool) (php : Serializer υ) (r : Request υ) (w : World υ)
    (pc : Pc υ) (w' : World υ) (pc' : Pc υ) : Prop :=
  Relation.ReflTransGen
    (fun x y : World υ × Pc υ => r.Moves recursive pool php x.1 x.2 y.1 y.2) (w, pc) (w', pc')

namespace Request.Alone

/-- The process has not gone on. -/
theorem refl : r.Alone recursive pool php w pc w pc := Relation.ReflTransGen.refl

/-- It makes one step, and goes on. -/
theorem step (h1 : r.Moves recursive pool php w pc w₁ pc₁)
    (h : r.Alone recursive pool php w₁ pc₁ w' pc') : r.Alone recursive pool php w pc w' pc' :=
  Relation.ReflTransGen.head h1 h

/-- It makes one step. -/
theorem single (h : r.Moves recursive pool php w pc w' pc') :
    r.Alone recursive pool php w pc w' pc' := .step h .refl

/-- It goes on twice. -/
theorem trans (h : r.Alone recursive pool php w pc w₁ pc₁)
    (h' : r.Alone recursive pool php w₁ pc₁ w' pc') : r.Alone recursive pool php w pc w' pc' :=
  Relation.ReflTransGen.trans h h'

end Request.Alone

/-- The process of `v` with the shared memory of `w`. -/
def World.sharing (v w : World υ) : World υ :=
  { v with sma := w.sma, shm := w.shm, header := w.header, slots := w.slots }

/-- The shared memory is the same. -/
theorem World.Same.sharing (h : w.Same w') : v.sharing w' = v.sharing w := by
  rw [h]
  rfl

/-- The memory `shm` with the content of `copy` in the block of `n` bytes at `p`. -/
def Mem.fill (shm copy : Mem) (p n : Nat) : Mem :=
  fun q => if p ≤ q ∧ q < p + n then copy q else shm q

namespace Mem

variable {shm copy : Mem}

/-- Nothing is copied. -/
theorem fill_zero : shm.fill copy p 0 = shm := funext fun _ => if_neg (by omega)

/-- One more byte is copied. -/
theorem fill_succ :
    shm.fill copy p (n + 1) = Function.update (shm.fill copy p n) (p + n) (copy (p + n)) := by
  funext q
  by_cases hq : q = p + n
  · rw [hq, Function.update_self]
    exact if_pos (by omega)
  · rw [Function.update_of_ne hq]
    exact if_congr (by omega) rfl rfl

/-- A block that is filled has the content of the copy. -/
theorem fill_eq (h : ∀ q, q < p ∨ p + n ≤ q → copy q = shm q) : shm.fill copy p n = copy := by
  funext q
  unfold fill
  split
  next => rfl
  next hq => exact (h q (by omega)).symm

end Mem

/-- Linking an entry writes only a `next`. -/
theorem memSize_linkEntry {shm : Mem} {slots : List (Option Nat)} {s q : Nat} {place : Option Nat} :
    (entryAt (linkEntry shm slots s p place).1 q).memSize = (entryAt shm q).memSize := by
  by_cases hq : place = some q
  · rw [hq, linkEntry, entryAt_writeEntry_self]
  · rw [entryAt, linkEntry_of_ne hq, ← entryAt]

/-- `immutable_cache_cache_wlocked_insert_exclusive` keeps the environment. -/
theorem wlockedInsertExclusive_env (sp : Space) (p : Nat) (w : World υ) :
    (wlockedInsertExclusive sp p w).2.env = w.env := by
  unfold wlockedInsertExclusive
  dsimp only
  split <;> rfl

/-- The hit or the miss of a lookup. -/
theorem rlockedFind_sharing {t : Nat} (sp : Space) (key : Nat)
    (hprotect : v.env.protectMemory = w.env.protectMemory) :
    (rlockedFind sp key t w).1 = rlockedFindNostat sp key w ∧
      (rlockedFind sp key t w).2.serializer = w.serializer ∧
      (rlockedFind sp key t (v.sharing w)).2 = v.sharing (rlockedFind sp key t w).2 := by
  have hfind : findEntry sp (v.sharing w).shm key (keyHash sp (v.sharing w).shm key)
      (v.sharing w).header.nentries ((v.sharing w).headOf (keyHash sp (v.sharing w).shm key)) =
      rlockedFindNostat sp key w := rfl
  unfold rlockedFind
  dsimp only
  rw [hfind]
  unfold rlockedFindNostat
  dsimp only
  generalize findEntry sp w.shm key (keyHash sp w.shm key) w.header.nentries
    (w.headOf (keyHash sp w.shm key)) = x
  have hv : (v.sharing w).env.protectMemory = w.env.protectMemory := hprotect
  cases x with
  | none =>
    dsimp only
    rw [hv]
    split <;> exact ⟨rfl, rfl, rfl⟩
  | some p =>
    dsimp only
    rw [hv]
    split <;> exact ⟨rfl, rfl, rfl⟩

/-! ## Allocation -/

/-- Where a store goes on after the allocation. -/
def Pc.malloced (c : Ctxt) (is : List Nat) : Option Nat → Pc υ
  | some p => .smaUnlock c (some p) is
  | none => .ret none (.stored false)

/-- Where it goes on after the copy. -/
def Pc.persisted : Option Nat → Pc υ
  | some p => .wlock p
  | none => .ret none (.stored false)

/-- Unless an attempt fails, a lock is acquired. -/
theorem wp_acquired {l : Lock} {msg : String} (hlock : ∀ n, w.env.lockOk n = true) :
    Wp (acquire l msg) w (fun ok w' => ok = true ∧ w.Same w') fun _ => True :=
  Harmless.wp_acquire.mono (fun _ _ h => ⟨h.2.trans (hlock _), h.1⟩) fun _ _ => trivial

namespace Request

variable (pool php recursive v r)

/-- The loop over the segments. -/
theorem alone_smaMallocLoop {last : Nat} (hlock : ∀ n, w.env.lockOk n = true) (is : List Nat) :
    Wp (smaMallocLoop pool c.size last is) w (fun o w' => r.Alone recursive pool php (v.sharing w)
      (.smaUnlock c none (is.filter (· ≠ last))) (v.sharing w') (.malloced c [] o)) fun _ => True := by
  induction is generalizing w with
  | nil => exact .single .smaNone
  | cons i is ih =>
    rw [smaMallocLoop, wp_ite]
    split
    next hi =>
      rw [List.filter_cons_of_neg (by simp [hi])]
      exact ih hlock
    next hi =>
      rw [List.filter_cons_of_pos (by simp [hi]), wp_bind]
      refine (wp_acquired hlock).mono (fun ok w₁ h₁ => ?_) fun _ _ => trivial
      obtain ⟨rfl, h₁⟩ := h₁
      simp only [if_true, smaTry, wp_bind, wp_get, wp_set, wp_pure]
      rw [← h₁.sharing (v := v)]
      generalize ha : w₁.sma.allocate i c.size = x
      obtain ⟨a, s⟩ := x
      cases a with
      | some a =>
        exact .step .smaNext (.step .smaLock (.step (.allocated ha) (.single .smaLast)))
      | none =>
        simp only [Option.map_none, unlock, wp_bind, wp_modify]
        have hlock₁ : ∀ n, w₁.env.lockOk n = true := h₁.env ▸ hlock
        refine (ih (by exact hlock₁)).mono (fun o w' h => ?_) fun _ => id
        exact .step .smaNext (.step .smaLock (.step (.notAllocated ha) h))

/-- `immutable_cache_sma_malloc`. -/
theorem alone_smaMalloc (hlock : ∀ n, w.env.lockOk n = true) :
    Wp (smaMalloc pool c.size) w (fun o w' => ∃ is, r.Alone recursive pool php (v.sharing w)
      (.smaMalloc c) (v.sharing w') (.malloced c is o)) fun _ => True := by
  simp only [smaMalloc, wp_bind, wp_get]
  refine (wp_acquired hlock).mono (fun ok w₁ h₁ => ?_) fun _ _ => trivial
  obtain ⟨rfl, h₁⟩ := h₁
  simp only [if_true, smaTry, wp_bind, wp_get, wp_set, wp_pure]
  rw [← h₁.sharing (v := v), ← h₁.sma]
  generalize ha : w₁.sma.allocate w₁.sma.last c.size = x
  obtain ⟨a, s⟩ := x
  cases a with
  | some a => exact ⟨_, .step .smaMalloc (.step .smaLock (.single (.allocated ha)))⟩
  | none =>
    simp only [Option.map_none, unlock, wp_bind, wp_modify]
    have hlock₁ : ∀ n, w₁.env.lockOk n = true := h₁.env ▸ hlock
    refine (alone_smaMallocLoop pool php recursive v r (by exact hlock₁) (List.range pool.num)).mono
      (fun o w' h => ?_) fun _ => id
    refine ⟨[], ?_⟩
    exact .step .smaMalloc (.step .smaLock (.step (.notAllocated ha) h))

/-! ## The copy -/

/-- Writing the content of `n` addresses of a block, one after the other. -/
theorem alone_write (copy : Mem) (hn : n ≤ c.size) :
    r.Alone recursive pool php w (.persistFill c p copy)
      { w with shm := w.shm.fill copy p n } (.persistFill c p copy) := by
  induction n with
  | zero =>
    rw [Mem.fill_zero]
    exact .refl
  | succ n ih =>
    rw [Mem.fill_succ]
    exact (ih (by omega)).trans (.single (.write (by omega) (by omega)))

/-- The copy into a block. -/
theorem alone_persistFill {copy : Mem} (hout : ∀ q, q < p ∨ p + c.size ≤ q → copy q = w.shm q) :
    r.Alone recursive pool php w (.persistFill c p copy) { w with shm := copy } (.wlock p) := by
  have hwrite : r.Alone recursive pool php w (.persistFill c p copy)
      { w with shm := w.shm.fill copy p c.size } (.persistFill c p copy) :=
    alone_write pool php recursive r copy le_rfl
  rw [Mem.fill_eq hout] at hwrite
  exact hwrite.trans (.single (.filled fun _ _ _ => rfl))

variable {key t : Nat} {val : Zval}

/-- The sizing and the allocation. -/
theorem alone_persistReserve (hcall : r.call = .store key val t)
    (hser : v.serializer = w.serializer) (hlock : ∀ n, w.env.lockOk n = true) :
    Wp (persistReserve pool r.sp php r.depth (initEntry key val t)) w
      (fun x w' => (x = none → r.Alone recursive pool php (v.sharing w) .persistSize (v.sharing w')
          (.ret none (.stored false))) ∧
        ∀ p c, x = some (p, c) → ∃ is, r.Alone recursive pool php (v.sharing w) .persistSize
          (v.sharing w') (.smaUnlock c (some p) is))
      fun _ => True := by
  simp only [persistReserve, wp_bind, wp_get]
  generalize hr : persistSize r.sp php w.serializer r.depth w.shm w.serializations
    (initEntry key val t) = x
  obtain ⟨ok, c⟩ := x
  refine (Harmless.emallocN _ w).mono (fun _ w₁ h₁ => ?_) fun _ _ => trivial
  refine (Harmless.serializeN _ _ w₁).mono (fun _ w₂ h₂ => ?_) fun _ _ => trivial
  have h₂ := h₁.trans h₂
  simp only [wp_modify, wp_ite]
  generalize hw₃ : { w₂ with
    warnings := w₂.warnings ++ c.warnings
    thrown := w₂.thrown + c.exception.toNat + w₂.handled c.warnings.length } = w₃
  have h₃ : w.Same w₃ := hw₃ ▸ h₂.trans rfl
  have hsize : persistSize r.sp php (v.sharing w).serializer r.depth (v.sharing w).shm
      w.serializations (initEntry key val t) = (ok, c) := by
    rw [← hr]
    exact congrArg (fun s => persistSize r.sp php s r.depth w.shm w.serializations _) hser
  cases ok with
  | false =>
    refine ⟨fun _ => ?_, fun p c' hx => by cases hx⟩
    rw [h₃.sharing]
    exact .single (.notSized hcall hsize)
  | true =>
    rw [if_pos rfl, wp_bind]
    have hlock₃ : ∀ n, w₃.env.lockOk n = true := h₃.env ▸ hlock
    refine (alone_smaMalloc pool php recursive v r hlock₃).mono (fun o w₄ h₄ => ?_) fun _ _ => trivial
    obtain ⟨is, h₄⟩ := h₄
    rw [h₃.sharing] at h₄
    have h₄ := (Alone.single (.sized hcall hsize)).trans h₄
    cases o with
    | none => exact ⟨fun _ => h₄, fun p c' hx => by cases hx⟩
    | some p =>
      constructor
      · intro hx
        cases hx
      · intro p' c' hx
        cases hx
        exact ⟨is, h₄⟩

/-- The copy writes nothing outside of its block. -/
theorem alone_persistInto (is : List Nat) {ser : Serializer υ} (hcall : r.call = .store key val t) :
    Wp (persistInto r.sp r.depth (initEntry key val t) ser p c) w
      (fun _ w' => (∀ q, q < p ∨ p + c.size ≤ q → w'.shm q = w.shm q) →
        r.Alone recursive pool php (v.sharing w) (.smaUnlock c (some p) is) (v.sharing w') (.wlock p))
      fun _ => True := by
  simp only [persistInto, wp_bind, wp_modify, wp_get]
  refine (Harmless.emallocN _ _).mono (fun _ w₁ h₁ hout => ?_) fun _ _ => trivial
  generalize hf : persistFill r.sp r.depth c (w.shm.clear p c.size) p (initEntry key val t) = f
    at h₁ hout ⊢
  have hw : v.sharing { w₁ with
      shm := f.2.shm
      encoder := Function.update w₁.encoder f.1 (if c.useSerialization then some ser else none) } =
      { v.sharing w with shm := f.2.shm } := by
    rw [h₁]
    rfl
  rw [hw]
  subst hf
  exact .step (.smaUnlock hcall) (alone_persistFill pool php recursive r hout)

/-- `immutable_cache_persist`. -/
theorem alone_persist (hinv : w.Inv pool z es live) (hon : r.sp.On pool z)
    (hwell : WellEntry r.sp (view r.sp w.shm es) r.depth (initEntry key val t) k)
    (hcall : r.call = .store key val t) (hser : v.serializer = w.serializer)
    (hlock : ∀ n, w.env.lockOk n = true) :
    Wp (persist pool r.sp php r.depth (initEntry key val t)) w
      (fun o w' => r.Alone recursive pool php (v.sharing w) .persistSize (v.sharing w') (.persisted o))
      fun _ => True := by
  refine wp_persist_iff.2 (((wp_persistReserve hinv hwell).and
    (alone_persistReserve pool php recursive v r hcall hser hlock)).mono (fun x w₁ h₁ => ?_)
    fun _ _ => trivial)
  obtain ⟨⟨rfl, -⟩ | ⟨p, c, s, sz, rfl, hr, hs, hle, hlive, hok⟩, hnone, hsome⟩ := h₁
  · exact hnone rfl
  · obtain ⟨is, hreserve⟩ := hsome p c rfl
    refine ((wp_persistInto hinv hon hwell hr hs hle hlive hok).and
      (alone_persistInto pool php recursive v r is hcall)).mono (fun o w₂ h₂ => ?_) fun _ _ => trivial
    obtain ⟨⟨rfl, hd⟩, hinto⟩ := h₂
    have hshm : w₁.shm = w.shm := hs.shm
    exact hreserve.trans (hinto fun q hq => hshm ▸ hd.outside hq)

/-! ## The insertion -/

/-- The walk along the chain, from `place` on: to an entry with the key, or to the end. -/
theorem alone_insertWalk {place head : Option Nat} {qs : List Nat} {fuel : Nat}
    (hc : Chain (nextAt w.shm) head qs) (hf : qs.length ≤ fuel)
    (hload : w.load (w.newHash r.sp p) place = head) :
    (insertPlace r.sp w.shm (entryAt w.shm p).key (w.newHash r.sp p) fuel place head = none →
      r.Alone recursive pool php w (.insert p h place) w (.wunlockFine p h false)) ∧
    ∀ place', insertPlace r.sp w.shm (entryAt w.shm p).key (w.newHash r.sp p) fuel place head =
        some place' → w.load (w.newHash r.sp p) place' = none ∧
      r.Alone recursive pool php w (.insert p h place) w (.insertNext p h place') := by
  induction qs generalizing place head fuel with
  | nil =>
    obtain rfl := Chain.nil_iff.1 hc
    have hend : insertPlace r.sp w.shm (entryAt w.shm p).key (w.newHash r.sp p) fuel place none =
        some place := by cases fuel <;> rfl
    rw [hend]
    constructor
    · intro hno
      cases hno
    · intro place' hplace
      cases hplace
      exact ⟨hload, .single (.insertEnd hload)⟩
  | cons q qs ih =>
    obtain ⟨rfl, hc⟩ := hc
    obtain ⟨fuel, rfl⟩ := Nat.exists_eq_add_of_le' (Nat.zero_lt_of_lt hf)
    rw [insertPlace]
    split
    next he =>
      refine ⟨fun _ => .step (.insertEntry hload) (.single (.insertFound he)), ?_⟩
      intro place' hno
      cases hno
    next he =>
      obtain ⟨hfound, hend⟩ := ih hc (Nat.le_of_succ_le_succ hf)
        (show w.load (w.newHash r.sp p) (some q) = _ from rfl)
      have hskip : r.Alone recursive pool php w (.insert p h place) w (.insert p h (some q)) :=
        .step (.insertEntry hload) (.single (.insertSkip (Bool.eq_false_iff.2 he)))
      exact ⟨fun hno => hskip.trans (hfound hno), fun place' hplace =>
        ⟨(hend place' hplace).1, hskip.trans (hend place' hplace).2⟩⟩

variable {orig : Entry} {sz : Nat}

/-- The link at the end of the chain, and the counters of the header. -/
theorem alone_insertLink {place : Option Nat} (hnext : (entryAt w.shm p).next = none)
    (hp : w.shm p = some (.entry (entryAt w.shm p)))
    (hload : w.load (w.newHash r.sp p) place = none) {l : Mem × List (Option Nat)}
    (hl : linkEntry w.shm w.slots (w.slotOf (w.newHash r.sp p)) p place = l) :
    r.Alone recursive pool php w (.insertNext p h place) { w with
      shm := l.1
      slots := l.2
      header := { w.header with
        memSize := w.header.memSize + (entryAt w.shm p).memSize
        nentries := w.header.nentries + 1
        ninserts := w.header.ninserts + 1 } } (.wunlockFine p h true) := by
  have hself : writeEntry w.shm p { entryAt w.shm p with next := w.load (w.newHash r.sp p) place } =
      w.shm := by
    rw [hload, ← hnext]
    exact writeEntry_self hp
  have hw : { w with shm := writeEntry w.shm p { entryAt w.shm p with
      next := w.load (w.newHash r.sp p) place } } = w := by rw [hself]
  have hmem : (entryAt l.1 p).memSize = (entryAt w.shm p).memSize := by rw [← hl, memSize_linkEntry]
  rw [← hmem]
  refine .step .insertNext ?_
  rw [hw]
  exact .step (.insertLink hl) (.step .insertMemSize (.step .insertNentries (.single .insertNinserts)))

/-- `immutable_cache_cache_wlocked_insert_exclusive`, for a draft. -/
theorem alone_insert (hinv : w.Inv pool r.sp.zend es live)
    (hd : Draft pool r.sp php r.depth es live orig k w c p sz w₁) (hnext : orig.next = none) :
    r.Alone recursive pool php (v.sharing w₁) (.insert p h none)
      (v.sharing (wlockedInsertExclusive r.sp p w₁).2)
      (.wunlockFine p h (wlockedInsertExclusive r.sp p w₁).1) := by
  obtain ⟨kp, val, hp, -⟩ := hd.entry hinv
  have hinv₁ := (hd.kept hinv).1
  have hchain := hinv₁.table.chain _ (Nat.mod_lt (w₁.newHash r.sp p) hinv₁.table.nslots)
  have hlen := (Table.length_chainOf_le r.sp.zend w₁.slots.length es
    (w₁.newHash r.sp p % w₁.slots.length)).trans hinv₁.nentries.ge
  obtain ⟨hfound, hend⟩ := alone_insertWalk pool php recursive r (w := v.sharing w₁) (p := p) (h := h)
    hchain hlen (show (v.sharing w₁).load ((v.sharing w₁).newHash r.sp p) none = _ from rfl)
  unfold wlockedInsertExclusive
  dsimp only
  generalize hx : insertPlace r.sp w₁.shm (entryAt w₁.shm p).key
    (keyHash r.sp w₁.shm (entryAt w₁.shm p).key) w₁.header.nentries none
    (w₁.headOf (keyHash r.sp w₁.shm (entryAt w₁.shm p).key)) = x
  cases x with
  | none => exact hfound hx
  | some place =>
    obtain ⟨hload, hplace⟩ := hend place hx
    have he : entryAt w₁.shm p = { orig with key := kp, val := val, memSize := c.size } :=
      entryAt_eq hp
    have hnext₁ : (entryAt w₁.shm p).next = none := he ▸ hnext
    have hself : writeEntry w₁.shm p { entryAt w₁.shm p with next := none } = w₁.shm := by
      rw [← hnext₁]
      exact writeEntry_self (he ▸ hp)
    dsimp only
    rw [hself]
    exact hplace.trans
      (alone_insertLink pool php recursive r (w := v.sharing w₁) hnext₁ (he ▸ hp) hload rfl)

/-! ## The store -/

/-- `immutable_cache_sma_free`. -/
theorem alone_smaFree (hlock : ∀ n, w.env.lockOk n = true) :
    Wp (smaFree pool p) w (fun _ w' => r.Alone recursive pool php (v.sharing w) (.freeLock p)
      (v.sharing w') (.ret (some p) (.stored false))) fun _ => True := by
  simp only [smaFree, wp_bind, wp_modify]
  generalize hseg : pool.segmentOf p = x
  cases x with
  | none =>
    simp only [wp_bind, wp_bailout]
    exact Wp.trivial _ _
  | some i =>
    simp only [wlock, wp_bind]
    refine (wp_acquired (w := { w with freed := p :: w.freed }) hlock).mono (fun ok w₁ h₁ => ?_)
      fun _ _ => trivial
    obtain ⟨rfl, h₁⟩ := h₁
    have hw : v.sharing w₁ = v.sharing w := h₁.sharing
    simp only [if_true, unlock, wp_bind, wp_modify]
    rw [← hw]
    exact .step .freeLock (.step (.freeDeallocate hseg) (.single .freeUnlock))

/-- `immutable_cache_cache_store`. -/
theorem alone_cacheStore (hinv : w.Inv pool r.sp.zend es live) (hon : r.sp.On pool r.sp.zend)
    (hwell : WellEntry r.sp (view r.sp w.shm es) r.depth (initEntry key val t) k)
    (hcall : r.call = .store key val t) (hser : v.serializer = w.serializer)
    (hlock : ∀ n, w.env.lockOk n = true) :
    Wp (cacheStore pool r.sp php r.depth key val t) w
      (fun ret w' => ∃ entry, r.Alone recursive pool php (v.sharing w) .persistSize (v.sharing w')
        (.ret entry (.stored ret)))
      fun _ => True := by
  rw [cacheStore, wp_bind]
  refine ((wp_persist hinv hon hwell).and (alone_persist pool php recursive v r hinv hon hwell hcall
    hser hlock)).mono (fun o w₁ h₁ => ?_) fun _ _ => trivial
  obtain ⟨⟨rfl, -⟩ | ⟨p, c, sz, rfl, hd⟩, h₁⟩ := h₁
  · exact ⟨none, h₁⟩
  have hlock₁ : ∀ n, w₁.env.lockOk n = true := (hd.kept hinv).2.env ▸ hlock
  simp only [wp_bind, wp_get]
  refine (wp_cacheWlock (w := w₁) _).mono (fun ok w₂ h₂ => ?_) fun _ _ => trivial
  obtain ⟨hs, rfl | ⟨n, hno⟩⟩ := h₂
  swap
  · rw [hlock₁ n] at hno
    cases hno
  have hlock₂ : ∀ n, w₂.env.lockOk n = true := hs.env ▸ hlock₁
  rw [← hs.sharing] at h₁
  have hinsert := h₁.trans (.step (.wlock hcall) (.step .wlockFine
    (alone_insert pool php recursive v r hinv (hd.of_same hs) rfl)))
  simp only [if_true, wp_bind, wp_ensuring, wp_modifyGet, cacheWunlock, unlock, wp_modify]
  have henv := wlockedInsertExclusive_env r.sp p w₂
  generalize wlockedInsertExclusive r.sp p w₂ = x at hinsert henv ⊢
  obtain ⟨ret, w₃⟩ := x
  have hlock₃ : ∀ n, w₃.env.lockOk n = true := henv ▸ hlock₂
  have hunlock := hinsert.trans (.single .wunlockFine)
  cases ret with
  | true => exact ⟨some p, hunlock.trans (.single .stored)⟩
  | false =>
    simp only [Bool.false_eq_true, if_false, wp_bind]
    refine (alone_smaFree pool php recursive v r (by exact hlock₃)).mono (fun _ w₄ h₄ => ?_)
      fun _ => id
    exact ⟨some p, hunlock.trans (.step .notStored h₄)⟩

/-! ## The lookups -/

/-- The walk of a lookup. -/
theorem alone_findWalk {head : Option Nat} {qs : List Nat} {fuel : Nat}
    (hkey : r.lookupKey = some key) (hc : Chain (nextAt w.shm) head qs) (hf : qs.length ≤ fuel) :
    r.Alone recursive pool php w (.find h head) w
      (.count h (findEntry r.sp w.shm key h fuel head) none
        (r.ticks recursive w.env.protectMemory (findEntry r.sp w.shm key h fuel head))) := by
  induction qs generalizing head fuel with
  | nil =>
    obtain rfl := Chain.nil_iff.1 hc
    have hend : findEntry r.sp w.shm key h fuel none = none := by cases fuel <;> rfl
    rw [hend]
    exact .single .missed
  | cons q qs ih =>
    obtain ⟨rfl, hc⟩ := hc
    obtain ⟨fuel, rfl⟩ := Nat.exists_eq_add_of_le' (Nat.zero_lt_of_lt hf)
    rw [findEntry]
    split
    next he => exact .single (.found hkey he)
    next he =>
      exact .step (.skip hkey (Bool.eq_false_iff.2 he))
        (.step .findNext (ih hc (Nat.le_of_succ_le_succ hf)))

/-- The steps of a lookup that has found its entry. -/
theorem alone_count (entry : Option Nat) (ticks : List Tick) (s : Lookups Unit υ) :
    r.Alone recursive pool php s.world (.count h entry (s.loaded ()) ticks)
      (ticks.foldl (fun s a => a.apply () s) s).world
      (.count h entry ((ticks.foldl (fun s a => a.apply () s) s).loaded ()) []) := by
  induction ticks generalizing s with
  | nil => exact .refl
  | cons a ticks ih =>
    -- only the results of `s` do not stand in the state of the process
    have hs : (a.apply () ⟨s.world, fun _ => s.loaded (), []⟩).world = (a.apply () s).world ∧
        (a.apply () ⟨s.world, fun _ => s.loaded (), []⟩).loaded () = (a.apply () s).loaded () := by
      cases a <;> exact ⟨rfl, rfl⟩
    have htick : r.Moves recursive pool php s.world (.count h entry (s.loaded ()) (a :: ticks))
        (a.apply () s).world (.count h entry ((a.apply () s).loaded ()) ticks) := by
      rw [← hs.1, ← hs.2]
      exact .tick rfl
    exact .step htick (ih (a.apply () s))

/-- The statistics of a lookup. -/
theorem alone_ticks (entry : Option Nat) (key t : Nat) :
    r.Alone recursive pool php w (.count h entry none
        (rlockedFindTicks recursive w.env.protectMemory t (rlockedFindNostat r.sp key w)))
      (rlockedFind r.sp key t w).2 (.count h entry none []) := by
  have hcount := alone_count pool php recursive r (h := h) entry
    (rlockedFindTicks recursive w.env.protectMemory t (rlockedFindNostat r.sp key w))
    ⟨w, fun _ => none, []⟩
  have hfold : (rlockedFindTicks recursive w.env.protectMemory t (rlockedFindNostat r.sp key w)).foldl
      (fun s a => a.apply () s) (⟨w, fun _ => none, []⟩ : Lookups Unit υ) =
      ⟨(rlockedFind r.sp key t w).2, fun _ => none, []⟩ :=
    foldl_rlockedFindTicks recursive r.sp key t () ⟨w, fun _ => none, []⟩ rfl
  rwa [hfold] at hcount

/-- A lookup without statistics. -/
theorem alone_find (hinv : w.Inv pool z es live) (hkey : r.lookupKey = some key) :
    r.Alone recursive pool php (v.sharing w) .rlock (v.sharing w)
      (.count (keyHash r.sp w.shm key) (rlockedFindNostat r.sp key w) none
        (r.ticks recursive v.env.protectMemory (rlockedFindNostat r.sp key w))) := by
  have hchain := hinv.table.chain _ (Nat.mod_lt (keyHash r.sp w.shm key) hinv.table.nslots)
  have hlen := (Table.length_chainOf_le z w.slots.length es
    (keyHash r.sp w.shm key % w.slots.length)).trans hinv.nentries.ge
  exact .step (.rlock hkey) (.step .findSlot
    (alone_findWalk pool php recursive r (w := v.sharing w) hkey hchain hlen))

/-- The return of a lookup. -/
theorem alone_answer {entry : Option Nat} {loaded : Option (Counter × Nat)} {o : Outcome υ}
    (h' : r.reply php w entry = some o) :
    r.Alone recursive pool php w (.count h entry loaded []) w (.ret entry o) :=
  .step .counted (.step .runlock (.single (.answer h')))

/-- `immutable_cache_cache_find`. -/
theorem alone_cacheFind (hinv : w.Inv pool z es live) (hkey : r.lookupKey = some key)
    (hticks : ∀ entry, r.ticks recursive v.env.protectMemory entry =
      rlockedFindTicks recursive v.env.protectMemory t entry)
    (hprotect : v.env.protectMemory = w.env.protectMemory) (hlock : ∀ n, w.env.lockOk n = true) :
    Wp (cacheFind r.sp key t) w
      (fun entry w' => w'.serializer = w.serializer ∧ ∀ o, r.reply php (v.sharing w') entry = some o →
        r.Alone recursive pool php (v.sharing w) .rlock (v.sharing w') (.ret entry o))
      fun _ => True := by
  simp only [cacheFind, rlock, wp_bind, wp_get]
  refine (wp_acquired hlock).mono (fun ok w₁ h₁ => ?_) fun _ _ => trivial
  obtain ⟨rfl, h₁⟩ := h₁
  simp only [if_true, wp_bind, wp_modifyGet, unlock, wp_modify, wp_pure]
  obtain ⟨hentry, hser, hshare⟩ := rlockedFind_sharing (t := t) r.sp key
    (hprotect.trans (congrArg Env.protectMemory h₁.env).symm)
  refine ⟨hser.trans (by rw [h₁]), fun o ho => ?_⟩
  rw [hentry] at ho ⊢
  have hfind := alone_find pool php recursive v r (h₁.inv hinv) hkey
  rw [hticks] at hfind
  rw [← h₁.sharing]
  refine hfind.trans ?_
  have hticks := alone_ticks pool php recursive r (w := v.sharing w₁)
    (h := keyHash r.sp w₁.shm key) (rlockedFindNostat r.sp key w₁) key t
  rw [hshare] at hticks
  exact hticks.trans (alone_answer pool php recursive r ho)

/-- `immutable_cache_cache_fetch`. -/
theorem alone_cacheFetch (hinv : w.Inv pool z es live) (hcall : r.call = .fetch key t)
    (hser : v.serializer = w.serializer) (hprotect : v.env.protectMemory = w.env.protectMemory)
    (hlock : ∀ n, w.env.lockOk n = true) :
    Wp (cacheFetch r.sp php key t) w
      (fun o w' => ∃ entry, r.Alone recursive pool php (v.sharing w) .rlock (v.sharing w')
        (.ret entry (.fetched o)))
      fun _ => True := by
  have hticks (entry : Option Nat) : r.ticks recursive v.env.protectMemory entry =
      rlockedFindTicks recursive v.env.protectMemory t entry := by rw [Request.ticks, hcall]
  rw [cacheFetch, wp_bind]
  refine (alone_cacheFind pool php recursive v r hinv (by rw [lookupKey, hcall]) hticks hprotect
    hlock).mono (fun entry w₁ h₁ => ?_) fun _ _ => trivial
  obtain ⟨hser₁, h₁⟩ := h₁
  rw [Request.reply, hcall] at h₁
  cases entry with
  | none => exact ⟨none, h₁ _ rfl⟩
  | some p =>
    have hreply := h₁ _ rfl
    have hv : (v.sharing w₁).serializer = w₁.serializer := hser.trans hser₁.symm
    rw [hv] at hreply
    simp only [entryFetchZval, wp_map, wp_bind, wp_get]
    split
    · simp only [wp_bind, wp_pure]
      refine (Harmless.callback _ _ w₁).mono (fun _ w₂ h₂ => ⟨some p, ?_⟩) fun _ _ => trivial
      rw [h₂.sharing]
      exact hreply
    · exact ⟨some p, hreply⟩

/-- `immutable_cache_cache_exists`. -/
theorem alone_cacheExists (hinv : w.Inv pool z es live) (hcall : r.call = .exist key)
    (hlock : ∀ n, w.env.lockOk n = true) :
    Wp (cacheExists r.sp key) w
      (fun ret w' => ∃ entry, r.Alone recursive pool php (v.sharing w) .rlock (v.sharing w')
        (.ret entry (.exist ret)))
      fun _ => True := by
  simp only [cacheExists, rlock, wp_bind, wp_get]
  refine (wp_acquired hlock).mono (fun ok w₁ h₁ => ?_) fun _ _ => trivial
  obtain ⟨rfl, h₁⟩ := h₁
  simp only [if_true, wp_bind, unlock, wp_get, wp_modify, wp_pure]
  have hticks (entry : Option Nat) : r.ticks recursive v.env.protectMemory entry = [] := by
    rw [Request.ticks, hcall]
  have hfind := alone_find pool php recursive v r (h₁.inv hinv) (by rw [lookupKey, hcall])
  rw [hticks] at hfind
  rw [← h₁.sharing]
  refine ⟨rlockedFindNostat r.sp key w₁, hfind.trans (alone_answer pool php recursive r ?_)⟩
  rw [Request.reply, hcall]

/-- A store or a lookup that returns is executed step by step, with the same outcome. -/
theorem run_alone (hinv : w.Inv pool z es live) (hlegal : r.Legal pool z w)
    (hstart : r.start = some pc) (hser : v.serializer = w.serializer)
    (hprotect : v.env.protectMemory = w.env.protectMemory) (hlock : ∀ n, w.env.lockOk n = true) :
    Wp (r.run pool php) w
      (fun o w' => ∃ entry, r.Alone recursive pool php (v.sharing w) pc (v.sharing w') (.ret entry o))
      fun _ => True := by
  obtain ⟨hon, hargs⟩ := hlegal
  have hz := hon.zend
  subst hz
  unfold Request.run
  unfold Request.start at hstart
  cases hcall : r.call with
  | store key val t =>
    rw [hcall] at hargs hstart
    cases hstart
    obtain ⟨k, hwell⟩ := hargs
    rw [hinv.view_eq] at hwell
    exact wp_map _ |>.2 (alone_cacheStore pool php recursive v r hinv hon hwell hcall hser hlock)
  | fetch key t =>
    rw [hcall] at hstart
    cases hstart
    exact wp_map _ |>.2 (alone_cacheFetch pool php recursive v r hinv hcall hser hprotect hlock)
  | find key t =>
    rw [hcall] at hstart
    cases hstart
    have hticks (entry : Option Nat) : r.ticks recursive v.env.protectMemory entry =
        rlockedFindTicks recursive v.env.protectMemory t entry := by rw [Request.ticks, hcall]
    refine wp_map _ |>.2 ((alone_cacheFind pool php recursive v r hinv (by rw [lookupKey, hcall]) hticks
      hprotect hlock).mono (fun entry w' h => ⟨entry, h.2 _ ?_⟩) fun _ => id)
    rw [Request.reply, hcall]
  | exist key =>
    rw [hcall] at hstart
    cases hstart
    exact wp_map _ |>.2 (alone_cacheExists pool php recursive v r hinv hcall hlock)
  | stat _ | info _ | smaInfo _ | iteratorFetch _ | iteratorTotals _ =>
    rw [hcall] at hstart
    cases hstart

end Request

/-- A store or a lookup has a key. -/
theorem Request.Legal.key_of_start (h : r.Legal pool z w) (hstart : r.start = some pc) :
    ∃ k, r.key w = some k := by
  have hcall := h.2
  unfold Request.start at hstart
  cases hc : r.call with
  | store key val t =>
    rw [hc] at hcall
    obtain ⟨k, hwell⟩ := hcall
    refine ⟨k, ?_⟩
    rw [Request.key, hc]
    exact hwell.key
  | fetch _ _ | find _ _ | exist _ =>
    rw [hc] at hcall
    exact hcall
  | stat _ | info _ | smaInfo _ | iteratorFetch _ | iteratorTotals _ =>
    rw [hc] at hstart
    cases hstart

/-! ## A small cache -/

namespace Small

/-- Ask whether there is something under `"a"`. -/
def existA : Request Bytes := ⟨sp, 0, .exist 104⟩

/-- The key of the question is `"a"`. -/
theorem existA_key (w : World Bytes) : existA.key w = some [97] := readStr_a w

/-- The question is legal in every state. -/
theorem existA_legal (w : World Bytes) : existA.Legal Small.pool zend w := ⟨on, [97], existA_key w⟩

/-- The store and then the question, asked twice, as whole requests. -/
theorem run_storeA : ∃ w w₁ w₂,
    storeA.run Small.pool Small.php (start (env none)) = .ok (.stored true) w ∧
    existA.run Small.pool Small.php w = .ok (.exist true) w₁ ∧
    existA.run Small.pool Small.php w₁ = .ok (.exist true) w₂ := by
  obtain ⟨ret, w, hstore, hret⟩ := of_gives (w := start (env none)) (f := fun ret => ret)
    (x := cacheStore Small.pool sp Small.php 0 104 (.long 1) 0) (by decide +kernel)
  obtain ⟨found, w₁, hfirst, hfound⟩ := of_gives (w := start (env none)) (f := fun ret => ret)
    (x := do
      let _ ← cacheStore Small.pool sp Small.php 0 104 (.long 1) 0
      cacheExists sp 104) (by decide +kernel)
  obtain ⟨again, w₂, hsecond, hagain⟩ := of_gives (w := start (env none)) (f := fun ret => ret)
    (x := do
      let _ ← cacheStore Small.pool sp Small.php 0 104 (.long 1) 0
      let _ ← cacheExists sp 104
      cacheExists sp 104) (by decide +kernel)
  rw [bind_eq_of_ok hstore] at hfirst hsecond
  rw [bind_eq_of_ok hfirst] at hsecond
  subst hret hfound hagain
  exact ⟨w, w₁, w₂, map_eq_ok hstore, map_eq_ok hfirst, map_eq_ok hsecond⟩

end Small

/-! ## Runs of whole requests -/

namespace Processes

variable [DecidableEq ι] {s : Processes ι υ} {i : ι} {pr : Process υ} {e : Event υ}
  {evs : List (Event υ)}

/-- A process goes on alone, if no other process holds a lock that it needs at the points in `P`, which
it does not leave. -/
theorem run_along {P : Pc υ → Prop} (halone : pr.req.Alone recursive pool php w pc w' pc')
    (hw : s.world = w) (hrun : s.running i = some { pr with pc := pc }) (hpc : P pc)
    (hkeep : ∀ {w w' pc pc'}, pr.req.Moves recursive pool php w pc w' pc' → P pc → P pc')
    (hfree : ∀ {pc}, P pc → s.Free recursive i pc) :
    ∃ is, Run (Step recursive pool z php) s is { s with
      world := w'
      running := Function.update s.running i (some { pr with pc := pc' }) } := by
  unfold Request.Alone at halone
  generalize hx : (w, pc) = x at halone
  induction halone using Relation.ReflTransGen.head_induction_on generalizing s w pc with
  | refl =>
    cases hx
    rw [← hw, ← hrun, Function.update_eq_self]
    exact ⟨[], .nil⟩
  | @head _ y h1 _ ih =>
    subst hx hw
    have hy : P y.2 := hkeep h1 hpc
    have hmove : Step recursive pool z php s i { s with
        world := y.1
        running := Function.update s.running i (some { pr with pc := y.2 }) } :=
      .move (p := { pr with pc := pc }) hrun h1 (hfree hy)
    obtain ⟨is, hrest⟩ := ih (s := { s with
        world := y.1
        running := Function.update s.running i (some { pr with pc := y.2 }) }) rfl
      (Function.update_self _ _ _) hy
      (fun hpc l m hl j hj q hq => hfree hpc l m hl j hj q ((Function.update_of_ne hj _ _).symm.trans hq))
      rfl
    rw [Function.update_idem] at hrest
    exact ⟨i :: is, .cons hmove hrest⟩

omit [DecidableEq ι] in
/-- While the other processes hold no locks, no lock is refused. -/
theorem free_of_idle (hothers : ∀ j q, j ≠ i → s.running j = some q → q.pc.holds recursive = [])
    (pc : Pc υ) : s.Free recursive i pc := by
  intro l m _ j hj q hq m' hm'
  rw [hothers j q hj hq] at hm'
  cases hm'

/-- It goes on until it returns. -/
theorem run_return_along {P : Pc υ → Prop} {entry : Option Nat} {o : Outcome υ}
    (hrun : s.running i = some pr)
    (halone : pr.req.Alone recursive pool php w pr.pc w' (.ret entry o)) (hw : s.world = w)
    (hpc : P pr.pc)
    (hkeep : ∀ {w w' pc pc'}, pr.req.Moves recursive pool php w pc w' pc' → P pc → P pc')
    (hfree : ∀ {pc}, P pc → s.Free recursive i pc) :
    ∃ is, Run (Step recursive pool z php) s is { s with
      world := w'
      running := Function.update s.running i none
      history := s.history ++ [.ret pr.id (entry, o)] } := by
  obtain ⟨is, hgo⟩ := run_along (z := z) halone hw hrun hpc hkeep hfree
  have hret : Step recursive pool z php
      { s with
        world := w'
        running := Function.update s.running i (some { pr with pc := .ret entry o }) } i
      { s with
        world := w'
        running := Function.update (Function.update s.running i (some { pr with pc := .ret entry o }))
          i none
        history := s.history ++ [.ret pr.id (entry, o)] } :=
    .ret (p := { pr with pc := .ret entry o }) (Function.update_self _ _ _) rfl
  rw [Function.update_idem] at hret
  exact ⟨is ++ [i], hgo.append (.cons hret .nil)⟩

/-- A process that goes on alone and returns, while the others hold no locks. -/
theorem run_return {entry : Option Nat} {o : Outcome υ} (hrun : s.running i = some pr)
    (halone : pr.req.Alone recursive pool php w pr.pc w' (.ret entry o)) (hw : s.world = w)
    (hothers : ∀ j q, j ≠ i → s.running j = some q → q.pc.holds recursive = []) :
    ∃ is, Run (Step recursive pool z php) s is { s with
      world := w'
      running := Function.update s.running i none
      history := s.history ++ [.ret pr.id (entry, o)] } :=
  run_return_along (P := fun _ => True) hrun halone hw trivial (fun _ h => h)
    fun {pc} _ => free_of_idle hothers pc

/-- A call that is made, goes on alone and returns. -/
theorem run_request (hinv : w.Inv pool z es live) (hlock : ∀ n, w.env.lockOk n = true)
    (hser : v.serializer = w.serializer) (hprotect : v.env.protectMemory = w.env.protectMemory)
    (hw : s.world = v.sharing w) (hi : s.running i = none)
    (hothers : ∀ j q, s.running j = some q → q.pc.holds recursive = [])
    (hlegal : r.Legal pool z w) (hstart : r.start = some pc) {o : Outcome υ}
    (hrun : r.run pool php w = .ok o w') :
    ∃ is k entry, r.key w = some k ∧ Run (Step recursive pool z php) s is { s with
      world := v.sharing w'
      history := s.history ++ [.call s.history.length (r, k), .ret s.history.length (entry, o)] } := by
  have hlegal' : r.Legal pool z { s.world with header := w.header } := by
    rw [hw]
    exact hlegal
  obtain ⟨k, hk⟩ := hlegal.key_of_start hstart
  have hk' : r.key { s.world with header := w.header } = some k := by
    rw [hw]
    exact hk
  obtain ⟨entry, halone⟩ := (Request.run_alone pool php recursive v r hinv hlegal hstart hser hprotect
    hlock).of_ok hrun
  let pr : Process υ := ⟨s.history.length, r, k, pc⟩
  let s₁ : Processes ι υ := { s with
    running := Function.update s.running i (some pr)
    history := s.history ++ [.call s.history.length (r, k)] }
  have hcall : Step recursive pool z php s i s₁ := .call hi hstart hlegal' hk'
  have hpr : s₁.running i = some pr := Function.update_self _ _ _
  obtain ⟨is, hgo⟩ := run_return (z := z) hpr halone hw
    fun j q hj hq => hothers j q ((Function.update_of_ne hj _ _).symm.trans hq)
  have hidle : Function.update s₁.running i none = s.running := by
    show Function.update (Function.update s.running i _) i none = _
    rw [Function.update_idem, ← hi, Function.update_eq_self]
  rw [hidle] at hgo
  refine ⟨i :: is, k, entry, hk, .cons hcall ?_⟩
  rw [List.append_cons]
  exact hgo

/-- A run of stores and lookups that return is also a run step by step, by one process. -/
theorem of_run (i : ι) (hinv : w.Inv pool z es live) (hlock : ∀ n, w.env.lockOk n = true)
    (hser : v.serializer = w.serializer) (hprotect : v.env.protectMemory = w.env.protectMemory)
    (hw : s.world = v.sharing w) (hidle : ∀ j, s.running j = none)
    (h : Run (ImmutableCache.Step pool z php) w evs w')
    (hreturns : ∀ e ∈ evs, e.req.start ≠ none ∧ e.outcome ≠ none) :
    ∃ is xs, Run (Step recursive pool z php) s is { s with
        world := v.sharing w', history := s.history ++ Linear.sequential s.history.length xs } ∧
      xs.map (fun x => (x.1.1, some x.2.2)) = evs.map fun e => (e.req, e.outcome) := by
  induction h generalizing es live s with
  | nil =>
    refine ⟨[], [], ?_, rfl⟩
    rw [← hw, Linear.sequential, List.append_nil]
    exact .nil
  | @cons w w₁ w' e evs h1 _ ih =>
    obtain ⟨hstart, hout⟩ := hreturns e (by simp)
    obtain ⟨pc, hstart⟩ := Option.ne_none_iff_exists'.1 hstart
    obtain ⟨o, hout⟩ := Option.ne_none_iff_exists'.1 hout
    obtain ⟨es₁, live₁, heff⟩ := h1.effect hinv
    obtain ⟨hinv₁, hle⟩ := heff.kept
    obtain ⟨-, hlegal, hrun⟩ := h1
    rw [hout] at hrun
    cases hr : e.req.run pool php w with
    | error _ _ =>
      rw [hr] at hrun
      cases hrun.1
    | ok o' w₂ =>
      rw [hr] at hrun
      obtain ⟨ho, rfl⟩ := hrun
      cases ho
      have hothers (j : ι) (q : Process υ) (hq : s.running j = some q) : q.pc.holds recursive = [] := by
        rw [hidle j] at hq
        cases hq
      obtain ⟨is, k, entry, -, hgo⟩ :=
        run_request hinv hlock hser hprotect hw (hidle i) hothers hlegal hstart hr
      let s₁ : Processes ι υ := { s with
        world := v.sharing w₁
        history := s.history ++
          [.call s.history.length (e.req, k), .ret s.history.length (entry, o)] }
      have henv : w₁.env = w.env := hle.env
      have hlen : s₁.history.length = s.history.length + 2 := List.length_append
      obtain ⟨js, xs, hrest, hxs⟩ := ih (s := s₁) hinv₁ (henv ▸ hlock) (hser.trans hle.serializer.symm)
        (hprotect.trans (congrArg Env.protectMemory henv).symm) rfl hidle
        fun e' he' => hreturns e' (by simp [he'])
      refine ⟨is ++ js, ((e.req, k), (entry, o)) :: xs, ?_, ?_⟩
      · have hgo := hgo.append hrest
        rw [hlen, List.append_assoc] at hgo
        exact hgo
      · rw [List.map_cons, List.map_cons, hxs, hout]

/-- A run of whole stores and lookups, none of which bails out and for which no lock is refused, is also
a run step by step: the calls return one after the other what they have returned, and leave the same
shared memory. -/
theorem of_requests (i : ι) {w₀ : World υ} (hc : Created pool w₀)
    (hlock : ∀ n, w₀.env.lockOk n = true) (h : Run (ImmutableCache.Step pool z php) w₀ evs w)
    (hreturns : ∀ e ∈ evs, e.req.start ≠ none ∧ e.outcome ≠ none) :
    ∃ is xs, Run (Step recursive pool z php) (start w₀ : Processes ι υ) is
        ⟨w₀.sharing w, fun _ => none, Linear.sequential 0 xs⟩ ∧
      xs.map (fun x => (x.1.1, some x.2.2)) = evs.map fun e => (e.req, e.outcome) := by
  obtain ⟨-, hdr, sz, hinv⟩ := hc.inv z
  exact of_run i hinv hlock rfl rfl rfl (fun _ => rfl) h hreturns

end Processes

namespace Small

/-- The store and the question, one after the other. -/
theorem of_requests_storeA : ∃ evs w,
    evs.map Event.outcome = [some (.stored true), some (.exist true)] ∧
    Run (Step Small.pool zend Small.php) (start (env none)) evs w ∧
    ∃ is xs, Run (Processes.Step false Small.pool zend Small.php)
        (Processes.start (start (env none)) : Processes Bool Bytes) is
        ⟨(start (env none)).sharing w, fun _ => none, Linear.sequential 0 xs⟩ ∧
      xs.map (fun x => (x.1.1, some x.2.2)) = evs.map fun e => (e.req, e.outcome) := by
  obtain ⟨w, w', -, hstore, hexist, -⟩ := run_storeA
  have hlock (n : Nat) : (start (env none)).env.lockOk n = true := by
    rw [start_env]
    rfl
  have hrun : Run (Step Small.pool zend Small.php) (start (env none))
      [⟨start (env none), storeA, some (.stored true)⟩, ⟨w, existA, some (.exist true)⟩] w' := by
    refine .cons ⟨rfl, storeA_legal _, ?_⟩ (.cons ⟨rfl, existA_legal _, ?_⟩ .nil)
    · rw [hstore]
      exact ⟨rfl, rfl⟩
    · rw [hexist]
      exact ⟨rfl, rfl⟩
  refine ⟨_, w', rfl, hrun, Processes.of_requests true created hlock hrun fun e he => ?_⟩
  simp only [List.mem_cons, List.not_mem_nil, or_false] at he
  rcases he with rfl | rfl
  · exact ⟨by simp [storeA, Request.start], by simp⟩
  · exact ⟨by simp [existA, Request.start], by simp⟩

open Processes in
/-- A process asks. Before it has its lock another one stores and asks too, and both find what has been
stored. -/
theorem overlapping (recursive : Bool) : ∃ is w e e₁ e₂,
    Run (Processes.Step recursive Small.pool zend Small.php)
      (Processes.start (start (env none)) : Processes Bool Bytes) is
      ⟨w, fun _ => none, [.call 0 (existA, [97]), .call 1 (storeA, [97]), .ret 1 (e, .stored true),
        .call 3 (existA, [97]), .ret 3 (e₁, .exist true), .ret 0 (e₂, .exist true)]⟩ := by
  obtain ⟨w, w₁, w₂, hstore, hfirst, hsecond⟩ := run_storeA
  obtain ⟨-, hdr, sz, hinv₀⟩ := created.inv zend
  have hlock₀ (n : Nat) : (start (env none)).env.lockOk n = true := by
    rw [start_env]
    rfl
  obtain ⟨es, live, heff⟩ := (Request.wp_run hinv₀ (storeA_legal _)).of_ok hstore
  obtain ⟨hinv, hle⟩ := heff.kept
  obtain ⟨es₁, live₁, heff₁⟩ := (Request.wp_run hinv (existA_legal _)).of_ok hfirst
  obtain ⟨hinv₁, hle₁⟩ := heff₁.kept
  have henv : w.env = (start (env none)).env := hle.env
  have henv₁ : w₁.env = (start (env none)).env := hle₁.env.trans henv
  let ask : Process Bytes := ⟨0, existA, [97], .rlock⟩
  let s₀ : Processes Bool Bytes := ⟨start (env none), Function.update (fun _ => none) false (some ask),
    [.call 0 (existA, [97])]⟩
  have hcall : Processes.Step recursive Small.pool zend Small.php
      (Processes.start (start (env none))) false s₀ :=
    .call rfl rfl (existA_legal { start (env none) with header := default }) (existA_key _)
  have hothers (j : Bool) (q : Process Bytes) (hq : s₀.running j = some q) :
      q.pc.holds recursive = [] := by
    cases j with
    | false =>
      cases hq
      rfl
    | true => cases hq
  obtain ⟨is, k, e, hk, hgo⟩ := run_request (s := s₀) (i := true) hinv₀ hlock₀ rfl rfl rfl rfl hothers
    (storeA_legal _) rfl hstore
  obtain rfl : k = [97] := Option.some.inj (hk.symm.trans (existA_key _))
  let s : Processes Bool Bytes := ⟨(start (env none)).sharing w, s₀.running,
    [.call 0 (existA, [97]), .call 1 (storeA, [97]), .ret 1 (e, .stored true)]⟩
  obtain ⟨is₁, k, e₁, hk, hgo₁⟩ := run_request (s := s) (i := true) hinv (henv ▸ hlock₀)
    hle.serializer.symm (congrArg Env.protectMemory henv).symm rfl rfl hothers (existA_legal _) rfl hfirst
  obtain rfl : k = [97] := Option.some.inj (hk.symm.trans (existA_key _))
  let s₁ : Processes Bool Bytes := ⟨(start (env none)).sharing w₁, s₀.running,
    [.call 0 (existA, [97]), .call 1 (storeA, [97]), .ret 1 (e, .stored true),
      .call 3 (existA, [97]), .ret 3 (e₁, .exist true)]⟩
  obtain ⟨e₂, halone⟩ := (Request.run_alone Small.pool Small.php recursive (start (env none)) existA
    hinv₁ (existA_legal w₁) rfl (hle₁.serializer.trans hle.serializer).symm
    (congrArg Env.protectMemory henv₁).symm (henv₁ ▸ hlock₀)).of_ok hsecond
  have hask : s₁.running false = some ask := rfl
  obtain ⟨is₂, hgo₂⟩ := run_return (z := zend) hask halone rfl fun j q _ hq => hothers j q hq
  have hidle : Function.update s₁.running false none = fun _ => none := by
    funext j
    cases j <;> rfl
  rw [hidle] at hgo₂
  have hgo : Run (Processes.Step recursive Small.pool zend Small.php) s₀ is s := hgo
  have hgo₁ : Run (Processes.Step recursive Small.pool zend Small.php) s is₁ s₁ := hgo₁
  exact ⟨_, _, e, e₁, e₂, .cons hcall (hgo.append (hgo₁.append hgo₂))⟩

end Small

end ImmutableCache
