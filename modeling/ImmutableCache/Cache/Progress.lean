import ImmutableCache.Cache.Interference

/-!
# The steps of stores and lookups

What one step of a process does (`Process.Progress`): it keeps the shape of the cache, it leaves alone
what belongs to the others, the process knows what it is to know at the next point, and at one step the
call takes effect. A store that adds its entry takes effect when it links it, one that does not when it
finds the key or has no memory; a lookup takes effect when it compares the entry that it finds, or
loads the `NULL` at the end of the chain.
-/

namespace ImmutableCache

open Procs

variable {υ : Type} {z : Zend} {pool : Pool} {php : Serializer υ} {es es' : List (Nat × Bytes)}
  {w w' : World υ} {live live' : Nat → Option Nat} {own : Nat → Prop} {locked : Prop} {n p q sz : Nat}
  {k : Bytes} {c : Ctxt} {r : Request υ} {rd rd' : Mem} {sp : Space} {entry : Option Nat}
  {recursive : Bool}

/-! ## Keeping the shape -/

/-- Changes outside the published blocks, and to the `nhits` and `atime` of entries. -/
theorem World.Shaped.frame (h : w.Shaped pool z es live) (php : Serializer υ)
    (hev : Evolves (Pub w.shm es) w.shm w'.shm)
    (hnext : ∀ x ∈ es, nextAt w'.shm x.1 = nextAt w.shm x.1) (hsma : pool.Ok w'.sma live')
    (hlive : ∀ x ∈ es, live' x.1 = live x.1) (hslots : w'.slots = w.slots) :
    w'.Shaped pool z es live' := by
  obtain ⟨header, encoder, hinv⟩ := h.inv php
  let header' : Header := { header with
    nhits := (es.map fun x => (entryAt w'.shm x.1).nhits).sum }
  let w₁ : World υ := { w with sma := w'.sma, shm := w'.shm, slots := w'.slots
                               header := header', encoder := encoder }
  have hev₁ : Evolves (Pub w.shm es) w.shm w₁.shm := hev
  obtain ⟨h', -⟩ := hinv.evolves hev₁ hnext hsma hlive (fun _ _ => rfl) ⟨[], rfl, by simp⟩
    rfl rfl rfl rfl hslots rfl rfl
  exact ⟨h'.sma, h'.table, h'.block, h'.nonempty, h'.frozen⟩

/-- Changes of the allocator and of the header. -/
theorem World.Shaped.of_sma (h : w.Shaped pool z es live) (hshm : w'.shm = w.shm)
    (hslots : w'.slots = w.slots) (hsma : pool.Ok w'.sma live')
    (hlive : ∀ x ∈ es, live' x.1 = live x.1) : w'.Shaped pool z es live' := by
  refine ⟨hsma, ?_, ?_, ?_, ?_⟩
  · rw [hshm, hslots]
    exact h.table
  · intro x hx
    rw [hshm, hlive x hx]
    exact h.block x hx
  · rw [hshm]
    exact h.nonempty
  · rw [hshm]
    exact h.frozen

/-- A change of the allocator that frees nothing of the others is none of theirs. -/
theorem Others.of_sma (hshm : w'.shm = w.shm) (hslots : w'.slots = w.slots)
    (hser : w'.serializer = w.serializer)
    (hlive : ∀ p sz, own p → live p = some sz → live' p = some sz) :
    Others own locked w es live w' es live' where
  entries := List.prefix_rfl
  evolves := by
    rw [hshm]
    exact .refl _ _
  nslots := by rw [hslots]
  serializer := hser
  block p sz hp hsz hfresh := ⟨hlive p sz hp hsz, hfresh, fun q _ _ => by rw [hshm]⟩
  still _ := ⟨rfl, hslots, fun x _ => by rw [hshm]⟩

/-- Nothing happens. -/
theorem Others.refl : Others own locked w es live w es live :=
  .of_sma rfl rfl rfl fun _ _ _ h => h

/-! ## Keys -/

/-- The key of a draft. -/
theorem Request.HasDraft.key (h : r.HasDraft php k w es live p) (hw : w.Shaped pool r.sp.zend es live)
    (hon : r.sp.On pool r.sp.zend) : w.newHash r.sp p = r.sp.zend.hash k ∧
      (r.sp.zstr w.shm (entryAt w.shm p).key).val = k := by
  obtain ⟨key, val, t, n, -, ⟨sz, hsz, hn, -⟩, hd⟩ := h
  obtain ⟨e, he, hpub, hfr⟩ := hd.key
  have hsh : r.sp.shared e.key = true := by
    rw [hon.shared]
    rcases hd.pub.1 hpub with hq | ⟨h1, h2⟩
    · exact hw.pub_shared hq
    · exact hw.sma.containsPointer hsz h1 (by omega)
  rw [World.newHash, entryAt_eq he]
  exact ⟨hfr.keyHash hsh, (hfr.zstr hsh).2⟩

/-- The key of a lookup. -/
theorem Request.Reads.key {key : Nat} (h : r.Reads (view r.sp w.shm es) k)
    (hkey : r.lookupKey = some key) :
    keyHash r.sp w.shm key = r.sp.zend.hash k ∧ (r.sp.zstr w.shm key).val = k := by
  have hk : readStr r.sp.zend (view r.sp w.shm es) key = some k := by
    unfold Request.Reads at h
    unfold Request.lookupKey at hkey
    cases hcall : r.call with
    | fetch _ _ | find _ _ | exist _ =>
      rw [hcall] at h hkey
      obtain rfl := Option.some.inj hkey
      exact h
    | store _ _ _ | stat _ | info _ | smaInfo _ | iteratorFetch _ | iteratorTotals _ =>
      rw [hcall] at hkey
      cases hkey
  exact keyHash_view hk

/-- The comparison with the key of an entry. -/
theorem World.Shaped.keyEquals {key : Nat} {kq : Bytes} (hw : w.Shaped pool sp.zend es live)
    (hon : sp.On pool sp.zend) (hq : (q, kq) ∈ es) (hk : (sp.zstr w.shm key).val = k) :
    keyEquals sp w.shm (entryAt w.shm q) key (sp.zend.hash k) = decide (kq = k) :=
  keyEquals_eq (fun p hp => by rw [hon.shared]; exact hw.pub_shared hp) (hw.table.entry _ hq) hk

/-- A lookup has an answer, whatever it finds. -/
theorem Request.reply_some {key : Nat} (hkey : r.lookupKey = some key) (php : Serializer υ)
    (w : World υ) (entry : Option Nat) : ∃ o, r.reply php w entry = some o := by
  unfold Request.lookupKey at hkey
  unfold Request.reply
  cases hcall : r.call with
  | fetch _ _ | find _ _ | exist _ => exact ⟨_, rfl⟩
  | store _ _ _ | stat _ | info _ | smaInfo _ | iteratorFetch _ | iteratorTotals _ =>
    rw [hcall] at hkey
    cases hkey

/-- What can be read and answers is a lookup. -/
theorem Request.Reads.lookup {o : Outcome υ} (h : r.Reads rd k) (ho : r.reply php w entry = some o) :
    ∃ key, r.lookupKey = some key := by
  unfold Request.Reads at h
  unfold Request.reply at ho
  unfold Request.lookupKey
  cases hcall : r.call with
  | fetch _ _ | find _ _ | exist _ => exact ⟨_, rfl⟩
  | store _ _ _ =>
    rw [hcall] at ho
    cases ho
  | stat _ | info _ | smaInfo _ | iteratorFetch _ | iteratorTotals _ =>
    rw [hcall] at h
    exact h.elim

/-! ## Counting -/

/-- The steps that increment a counter touch no entry but its own. -/
theorem Tick.of_atomicIncRlocked {counter : Counter} (h : ∀ p, counter = .entry p → entry = some p)
    {a : Tick} (ha : a ∈ atomicIncRlocked recursive counter) : a.Of entry := by
  unfold atomicIncRlocked at ha
  split at ha
  · rcases List.mem_cons.1 ha with rfl | ha
    · exact h
    · obtain rfl := List.mem_singleton.1 ha
      exact h
  · obtain rfl := List.mem_singleton.1 ha
    exact h

/-- A lookup counts in the entry that it has found. -/
theorem Request.of_ticks {protectMemory : Bool} {a : Tick}
    (ha : a ∈ r.ticks recursive protectMemory entry) : a.Of entry := by
  have hticks {t : Nat} (ha : a ∈ rlockedFindTicks recursive protectMemory t entry) : a.Of entry := by
    cases entry with
    | none =>
      rw [rlockedFindTicks] at ha
      split at ha
      · cases ha
      · refine Tick.of_atomicIncRlocked (fun p hp => ?_) ha
        cases hp
    | some p =>
      rw [rlockedFindTicks] at ha
      split at ha
      · cases ha
      · simp only [List.mem_append, List.mem_singleton] at ha
        obtain (ha | ha) | rfl := ha
        · refine Tick.of_atomicIncRlocked (fun p hp => ?_) ha
          cases hp
        · refine Tick.of_atomicIncRlocked (fun p hp => ?_) ha
          rw [Counter.entry.inj hp]
        · rfl
  unfold Request.ticks at ha
  cases hcall : r.call with
  | fetch _ _ | find _ _ =>
    rw [hcall] at ha
    exact hticks ha
  | store _ _ _ | exist _ | stat _ | info _ | smaInfo _ | iteratorFetch _ | iteratorTotals _ =>
    rw [hcall] at ha
    cases ha

/-- A step of a lookup that counts changes the header, or the `nhits` or `atime` of the entry. -/
theorem Tick.Of.apply {a : Tick} (h : a.Of entry) (loaded : Unit → Option (Counter × Nat)) :
    ∃ header shm, (a.apply () ⟨w, loaded, []⟩).world = { w with header := header, shm := shm } ∧
      (shm = w.shm ∨ ∃ p nhits atime, entry = some p ∧
        shm = writeEntry w.shm p { entryAt w.shm p with nhits := nhits, atime := atime }) := by
  have hcounter {counter : Counter} (hc : ∀ p, counter = .entry p → entry = some p) (n : Nat) :
      ∃ header shm, w.setCounter counter n = { w with header := header, shm := shm } ∧
        (shm = w.shm ∨ ∃ p nhits atime, entry = some p ∧
          shm = writeEntry w.shm p { entryAt w.shm p with nhits := nhits, atime := atime }) := by
    cases counter with
    | nhits | nmisses => exact ⟨_, _, rfl, .inl rfl⟩
    | entry p => exact ⟨_, _, rfl, .inr ⟨p, _, _, hc p rfl, rfl⟩⟩
  cases a with
  | inc counter | store counter => exact hcounter h _
  | load counter | returned _ => exact ⟨_, _, rfl, .inl rfl⟩
  | touch p t => exact ⟨_, _, rfl, .inr ⟨p, _, _, h, rfl⟩⟩

/-! ## Results -/

/-- What the cache says of a call that has taken effect: a store that has added an entry has put a copy
of its value there, and a lookup has the reply to the entry that it has found. -/
inductive Fits (php : Serializer υ) (w : World υ) (es : List (Nat × Bytes)) :
    (Request υ × Bytes) × (Option Nat × Outcome υ) → Prop
  | added {r : Request υ} {k : Bytes} {key t p : Nat} {val : Zval} :
      r.call = .store key val t → (p, k) ∈ es →
      StandsFor r.sp (view r.sp w.shm es) (w.serializer.getD php) r.depth val
        (entryAt w.shm p).val →
      Fits php w es ((r, k), (some p, .stored true))
  | refused {r : Request υ} {k : Bytes} {key t : Nat} {val : Zval} {entry : Option Nat} :
      r.call = .store key val t → Fits php w es ((r, k), (entry, .stored false))
  | replied {r : Request υ} {k : Bytes} {key : Nat} {entry : Option Nat} {o : Outcome υ} :
      r.lookupKey = some key → r.reply php w entry = some o →
      (∀ p, entry = some p → (p, k) ∈ es) → Fits php w es ((r, k), (entry, o))

/-- The answer of a lookup. -/
theorem Fits.reply_eq {o o' : Outcome υ}
    (h : Fits php w es ((r, k), (entry, o'))) (ho : r.reply php w entry = some o) : o' = o := by
  cases h with
  | replied hkey hreply hp => exact Option.some.inj (hreply.symm.trans ho)
  | added hcall _ _ | refused hcall =>
    rw [Request.reply, hcall] at ho
    cases ho

section

variable (ho : Others own locked w es live w' es' live')

include ho

/-- What is fetched of an entry stays the same. -/
theorem Others.unpersist (hw : w.Shaped pool sp.zend es live) (hon : sp.On pool sp.zend)
    (hp : (p, k) ∈ es) : unpersist sp w'.shm (w'.serializer.getD php) (entryAt w'.shm p).val =
      unpersist sp w.shm (w.serializer.getD php) (entryAt w.shm p).val := by
  obtain ⟨header, encoder, hinv⟩ := hw.inv php
  let w₀ : World υ := { w with header := header, encoder := encoder }
  let w₁ : World υ := { w₀ with shm := w'.shm, slots := w'.slots, serializer := w'.serializer }
  have hle : w₀.Le es w₁ es' := ⟨ho.entries, ho.evolves, ho.nslots, ⟨[], rfl, by simp⟩, rfl,
    fun _ _ => rfl, ho.serializer⟩
  have h := hinv.unpersist_bound php hon ((bound_eq_some hw.table.keys).2 hp) hle
  exact h

/-- A lookup has the same reply to an entry. -/
theorem Others.reply {key : Nat} (hw : w.Shaped pool r.sp.zend es live)
    (hon : r.sp.On pool r.sp.zend) (hkey : r.lookupKey = some key)
    (hp : ∀ p, entry = some p → (p, k) ∈ es) : r.reply php w' entry = r.reply php w entry := by
  unfold Request.lookupKey at hkey
  unfold Request.reply
  cases hcall : r.call with
  | fetch _ _ =>
    cases entry with
    | none => rfl
    | some p =>
      dsimp only [Option.map_some]
      rw [ho.unpersist hw hon (hp p rfl)]
  | stat _ =>
    rw [hcall] at hkey
    cases hkey
  | find _ _ | exist _ | store _ _ _ | info _ | smaInfo _ | iteratorFetch _ | iteratorTotals _ => rfl

/-- A call in the order of the calls still fits when others have gone on. -/
theorem Fits.others {x : (Request υ × Bytes) × (Option Nat × Outcome υ)}
    (h : Fits php w es x) (hw : w.Shaped pool z es live) (hon : x.1.1.sp.On pool z) :
    Fits php w' es' x := by
  have hz := hon.zend
  subst hz
  cases h with
  | added hcall hp hval =>
    refine .added hcall (ho.entries.subset hp) ?_
    rw [ho.serializer, (ho.evolves.entryAt (hw.pub_entry hp)).eq]
    exact hval.mono (ho.view hw _)
  | refused hcall => exact .refused hcall
  | replied hkey hreply hp =>
    exact .replied hkey ((ho.reply hw hon hkey hp).trans hreply)
      fun p h => ho.entries.subset (hp p h)

end

/-- What a lookup answers when the key is bound to the entry that it has found. -/
theorem Answers.of_bound {m : Bytes → Option Nat} {o : Outcome υ} (h : m k = entry)
    (ho : r.reply php w entry = some o) : Answers php m ((r, k), (entry, o)) m := by
  subst h
  exact .lookup ho

/-! ## Progress -/

namespace Process

variable {pr : Process υ} {seq new : List (Taken υ)} {pc pc' : Pc υ} {o : Outcome υ}

/-- What a step puts into the order of the calls: nothing, or the call of the process. -/
inductive TakesEffect (php : Serializer υ) (pr : Process υ) (seq : List (Taken υ))
    (es : List (Nat × Bytes)) (w' : World υ) (es' : List (Nat × Bytes)) : List (Taken υ) → Prop
  | no : es' = es → TakesEffect php pr seq es w' es' []
  | yes {entry : Option Nat} {o : Outcome υ} :
      pr.Waits seq → Answers php (bound es) ((pr.req, pr.key), (entry, o)) (bound es') →
      Fits php w' es' ((pr.req, pr.key), (entry, o)) →
      TakesEffect php pr seq es w' es' [(pr.id, (pr.req, pr.key), (entry, o))]

/-- A step allocates what belongs to the process after it, and frees what no longer belongs to it or has
made it the block of an entry. -/
structure Payloads (live : Nat → Option Nat) (own : Option Nat) (live' : Nat → Option Nat)
    (own' : Option Nat) (es' : List (Nat × Bytes)) : Prop where
  new : ∀ a, own' = some a → own = some a ∨ live a = none
  old : ∀ a, live' a ≠ none → own' = some a ∨ a ∈ es'.map Prod.fst ∨ live a ≠ none ∧ own ≠ some a

/-- Nothing is allocated or freed. -/
theorem Payloads.refl (live : Nat → Option Nat) (own : Option Nat) (es : List (Nat × Bytes)) :
    Payloads live own live own es where
  new _ := .inl
  old a ha := by
    by_cases hown : own = some a
    · exact .inl hown
    · exact .inr (.inr ⟨ha, hown⟩)

/-- What a step of the process from `pc` to `pc'` does. -/
structure Progress (pool : Pool) (z : Zend) (php : Serializer υ) (pr : Process υ)
    (seq : List (Taken υ)) (w : World υ) (es : List (Nat × Bytes)) (live : Nat → Option Nat)
    (pc : Pc υ) (w' : World υ) (es' : List (Nat × Bytes)) (live' : Nat → Option Nat)
    (new : List (Taken υ)) (pc' : Pc υ) : Prop where
  shaped : w'.Shaped pool z es' live'
  others : Others (fun p => pc.owns ≠ some p) (¬ pc.Locks) w es live w' es' live'
  payloads : Payloads live pc.owns live' pc'.owns es'
  entries : es' = es ++ pc.added pr.key
  takesEffect : pr.TakesEffect php seq es w' es' new
  at_pc : pr.At pool php w' es' live' (seq ++ new) pc'

/-- A block that belongs to a process is allocated. -/
theorem At.owned (h : pr.At pool php w es live seq pc) (hp : pc.owns = some p) :
    Owned live es p 0 := by
  have hdraft (h : pr.req.HasDraft php pr.key w es live p) : Owned live es p 0 := by
    obtain ⟨-, -, -, n, -, ⟨sz, hsz, -, hfresh⟩, -⟩ := h
    exact ⟨sz, hsz, Nat.zero_le _, hfresh⟩
  have hzero {n : Nat} (h : Owned live es p n) : Owned live es p 0 := by
    obtain ⟨sz, hsz, -, hfresh⟩ := h
    exact ⟨sz, hsz, Nat.zero_le _, hfresh⟩
  cases pc with
  | smaLast c i p' =>
    cases hp
    exact hzero h.2.2.2
  | smaUnlock c p' is =>
    cases p' with
    | none => cases hp
    | some p' =>
      cases hp
      exact hzero h.2.2
  | persistFill c p' copy =>
    cases hp
    exact hzero h.2.1
  | wlock p' | wlockFine p' _ =>
    cases hp
    exact hdraft h.2
  | insert p' _ _ | insertCompare p' _ _ | insertNext p' _ _ | insertLink p' _ _ =>
    cases hp
    exact hdraft h.2.1
  | wunlockFine p' _ ret | wunlock p' ret =>
    cases ret with
    | true => cases hp
    | false =>
      cases hp
      exact h.2
  | freeLock p' | freeDeallocate p' =>
    cases hp
    exact h.2
  | persistSize | rlock | smaMalloc _ | smaLock _ _ _ _ | smaAllocate _ _ _ _ | insertMemSize _ _
  | insertNentries _ _ | insertNinserts _ _ | freeUnlock _ | findSlot _ | find _ _ | findNext _ _
  | count _ _ _ _ | runlock _ _ | answer _ | ret _ _ => cases hp

/-- A step that changes nothing in the cache. -/
theorem Progress.silent (hw : w.Shaped pool z es live)
    (howns : pc'.owns = pc.owns) (hadds : pc.added pr.key = []) (hat : pr.At pool php w es live seq pc') :
    pr.Progress pool z php seq w es live pc w es live [] pc' where
  shaped := hw
  others := .refl
  payloads := by
    rw [howns]
    exact .refl _ _ _
  entries := by rw [hadds, List.append_nil]
  takesEffect := .no rfl
  at_pc := by
    rw [List.append_nil]
    exact hat

/-- A step that changes nothing in the cache, at which the call takes effect. -/
theorem Progress.taken (hw : w.Shaped pool z es live)
    (howns : pc'.owns = pc.owns) (hadds : pc.added pr.key = []) (hwait : pr.Waits seq)
    (hans : Answers php (bound es) ((pr.req, pr.key), (entry, o)) (bound es))
    (hfits : Fits php w es ((pr.req, pr.key), (entry, o)))
    (hat : ∀ seq', pr.Took seq' entry o → pr.At pool php w es live seq' pc') :
    pr.Progress pool z php seq w es live pc w es live [(pr.id, (pr.req, pr.key), (entry, o))] pc' where
  shaped := hw
  others := .refl
  payloads := by
    rw [howns]
    exact .refl _ _ _
  entries := by rw [hadds, List.append_nil]
  takesEffect := .yes hwait hans hfits
  at_pc := hat _ (by simp [Took])

/-! ## The steps of a lookup -/

section

variable (hw : w.Shaped pool pr.req.sp.zend es live) (hon : pr.req.sp.On pool pr.req.sp.zend)

include hw

/-- A lookup takes effect when it finds the entry that its key is bound to, or that there is none. -/
theorem Progress.replied {key : Nat} (howns : pc'.owns = pc.owns)
    (hadds : pc.added pr.key = []) (hwait : pr.Waits seq) (hkey : pr.req.lookupKey = some key) (hb : bound es pr.key = entry)
    (hat : ∀ seq' o, pr.Took seq' entry o → pr.At pool php w es live seq' pc') :
    ∃ new, pr.Progress pool pr.req.sp.zend php seq w es live pc w es live new pc' := by
  obtain ⟨o, ho⟩ := Request.reply_some hkey php w entry
  refine ⟨_, .taken hw howns hadds hwait (.of_bound hb ho) ?_ fun seq' => hat seq' o⟩
  refine .replied hkey ho fun p hp => (bound_eq_some hw.table.keys).1 ?_
  rw [hb, hp]

/-- A lookup loads the next entry of the chain, or the `NULL` at its end. -/
theorem Progress.find {h : Nat} {place : Option Nat} (howns : pc.owns = none)
    (hadds : pc.added pr.key = []) (hwait : pr.Waits seq) (hseeks : pr.Seeks h)
    (hwalk : Walked pr.req.sp.zend w.slots.length es pr.key place) (hload : w.load h place = entry) :
    ∃ new, pr.Progress pool pr.req.sp.zend php seq w es live pc w es live new (.find h entry) := by
  obtain ⟨⟨key, hkey⟩, rfl⟩ := hseeks
  obtain ⟨hsome, hnone⟩ := hwalk.load hw.table
  cases entry with
  | some q => exact ⟨_, .silent hw howns.symm hadds ⟨hwait, ⟨⟨key, hkey⟩, rfl⟩, hsome q hload⟩⟩
  | none => exact Progress.replied hw howns.symm hadds hwait hkey (hnone hload).free fun _ o ho => ⟨o, ho⟩

/-- A step of a lookup that counts. -/
theorem Progress.tick {h : Nat} {loaded : Option (Counter × Nat)} {a : Tick} {ticks : List Tick}
    (hat : pr.At pool php w es live seq (.count h entry loaded (a :: ticks))) :
    pr.Progress pool pr.req.sp.zend php seq w es live (.count h entry loaded (a :: ticks))
      (a.apply () ⟨w, fun _ => loaded, []⟩).world es live []
      (.count h entry ((a.apply () ⟨w, fun _ => loaded, []⟩).loaded ()) ticks) := by
  obtain ⟨htook, hentry, hticks⟩ := hat
  obtain ⟨header, shm, hworld, hshm⟩ := (hticks a (by simp)).apply (w := w) fun _ => loaded
  have hch : Evolves (Pub w.shm es) w.shm shm ∧ (∀ x ∈ es, nextAt shm x.1 = nextAt w.shm x.1) ∧
      ∀ q, ¬ Pub w.shm es q → shm q = w.shm q := by
    obtain rfl | ⟨p, nhits, atime, hp, rfl⟩ := hshm
    · exact ⟨.refl _ _, fun _ _ => rfl, fun _ _ => rfl⟩
    · have hmem := hentry p hp
      obtain ⟨e, he, -⟩ := hw.table.entry _ hmem
      rw [entryAt_eq he]
      refine ⟨.writeEntry he ⟨rfl, .inr rfl⟩, fun x _ => ?_, fun q hq => ?_⟩
      · rw [nextAt_writeEntry]
        by_cases hx : x.1 = p
        · rw [hx, Function.update_self, nextAt, entryAt_eq he]
        · rw [Function.update_of_ne hx]
      · refine Function.update_of_ne ?_ _ _
        rintro rfl
        exact hq (hw.pub_entry hmem)
  obtain ⟨hev, hnext, hout⟩ := hch
  rw [hworld]
  exact
    { shaped := hw.frame php hev hnext hw.sma (fun _ _ => rfl) rfl
      others :=
        { entries := List.prefix_rfl
          evolves := hev
          nslots := rfl
          serializer := rfl
          block := fun p sz _ hsz hfresh =>
            ⟨hsz, hfresh, fun q h1 h2 => hout q (hw.not_pub hsz hfresh h1 h2)⟩
          still := fun _ => ⟨rfl, rfl, hnext⟩ }
      payloads := .refl _ _ _
      entries := (List.append_nil es).symm
      takesEffect := .no rfl
      at_pc := by
        rw [List.append_nil]
        exact ⟨htook, hentry, fun b hb => hticks b (by simp [hb])⟩ }

include hon

/-- A lookup compares its key with that of the entry that it has come to. -/
theorem keyEquals {key : Nat} (hk : (pr.req.sp.zstr w.shm key).val = pr.key)
    (harr : Arrived pr.req.sp.zend w.slots.length es pr.key q) :
    (ImmutableCache.keyEquals pr.req.sp w.shm (entryAt w.shm q) key
        (pr.req.sp.zend.hash pr.key) = true → bound es pr.key = some q) ∧
      (ImmutableCache.keyEquals pr.req.sp w.shm (entryAt w.shm q) key
        (pr.req.sp.zend.hash pr.key) = false →
          Walked pr.req.sp.zend w.slots.length es pr.key (some q)) := by
  obtain ⟨kq, hq⟩ := harr.mem
  rw [hw.keyEquals hon hq hk]
  constructor
  · intro h
    rw [← of_decide_eq_true h]
    exact (bound_eq_some hw.table.keys).2 hq
  · intro h
    exact harr.skip hw.table.nodup hq (of_decide_eq_false h)

end

/-! ## The steps of a store -/

section

variable (hw : w.Shaped pool pr.req.sp.zend es live) (hon : pr.req.sp.On pool pr.req.sp.zend)

include hw

/-- A store takes effect when it finds its key, or that there is no entry to add. -/
theorem Progress.refused {key t : Nat} {val : Zval} (hcall : pr.req.call = .store key val t)
    (hwait : pr.Waits seq) (hb : entry = none ∨ bound es pr.key ≠ none)
    (howns : pc'.owns = pc.owns) (hadds : pc.added pr.key = [])
    (hat : ∀ seq', pr.Took seq' entry (.stored false) → pr.At pool php w es live seq' pc') :
    ∃ new, pr.Progress pool pr.req.sp.zend php seq w es live pc w es live new pc' :=
  ⟨_, .taken hw howns hadds hwait (.store hcall (.refused hb)) (.refused hcall) hat⟩

/-- A step that changes the allocator or the header. -/
theorem Progress.of_sma (hshm : w'.shm = w.shm) (hslots : w'.slots = w.slots)
    (hser : w'.serializer = w.serializer) (hsma : pool.Ok w'.sma live')
    (hlive : ∀ x ∈ es, live' x.1 = live x.1)
    (hothers : ∀ p sz, pc.owns ≠ some p → live p = some sz → live' p = some sz)
    (hpayloads : Payloads live pc.owns live' pc'.owns es) (hadds : pc.added pr.key = [])
    (hat : pr.At pool php w' es live' seq pc') :
    pr.Progress pool pr.req.sp.zend php seq w es live pc w' es live' [] pc' where
  shaped := hw.of_sma hshm hslots hsma hlive
  others := .of_sma hshm hslots hser hothers
  payloads := hpayloads
  entries := by rw [hadds, List.append_nil]
  takesEffect := .no rfl
  at_pc := by
    rw [List.append_nil]
    exact hat

/-- `sma_allocate` finds a free block. -/
theorem Progress.allocated {first : Bool} {i off : Nat} {is : List Nat} {s : Sma}
    (hat : pr.At pool php w es live seq (.smaAllocate c first i is))
    (halloc : w.sma.allocate i c.size = (some (off, sz), s)) :
    ∃ live', pr.Progress pool pr.req.sp.zend php seq w es live (.smaAllocate c first i is)
      { w with sma := s } es live' [] (if first then .smaUnlock c (some (pool.shmaddr i + off)) is
        else .smaLast c i (pool.shmaddr i + off)) := by
  obtain ⟨hwait, hsized, hi, his⟩ := hat
  obtain ⟨cs, hcs⟩ := hw.sma
  obtain ⟨hno, -⟩ | ⟨off', sz', hsome, hle, hlive, hok⟩ := hcs.allocate hi hsized.room
  · rw [halloc] at hno
    cases hno
  rw [halloc] at hsome hok
  cases hsome
  have hlast : s.last = w.sma.last := congrArg (fun r => r.2.last) halloc.symm
  have hok := hok s.last (hlast ▸ hcs.last_lt)
  have hfresh : pool.shmaddr i + off ∉ es.map Prod.fst := hw.not_entry hlive
  have hne {p : Nat} {b : Nat} (hp : live p = some b) : p ≠ pool.shmaddr i + off := by
    rintro rfl
    rw [hlive] at hp
    cases hp
  refine ⟨_, .of_sma hw rfl rfl rfl hok (fun x hx => ?_) (fun p b _ hp => ?_) ⟨fun p hp => .inr ?_, fun p hp => ?_⟩
    rfl ?_⟩
  · obtain ⟨b, hb, -⟩ := hw.block x hx
    exact Function.update_of_ne (hne hb) _ _
  · rw [Function.update_of_ne (hne hp), hp]
  · cases first with
    | false =>
      cases hp
      exact hlive
    | true =>
      cases hp
      exact hlive
  · by_cases hx : p = pool.shmaddr i + off
    · subst hx
      cases first with
      | false => exact .inl rfl
      | true => exact .inl rfl
    · rw [Function.update_of_ne hx] at hp
      refine .inr (.inr ⟨hp, fun h => ?_⟩)
      cases h
  · have howned : Owned (Function.update live (pool.shmaddr i + off) (some sz)) es
        (pool.shmaddr i + off) c.size := ⟨sz, Function.update_self _ _ _, hle, hfresh⟩
    cases first with
    | false => exact ⟨hwait, hsized, hi, howned⟩
    | true => exact ⟨hwait, hsized, howned⟩

/-- `sma_allocate` finds no free block. -/
theorem Progress.notAllocated {first : Bool} {i : Nat} {is : List Nat} {s : Sma}
    (hat : pr.At pool php w es live seq (.smaAllocate c first i is))
    (halloc : w.sma.allocate i c.size = (none, s)) :
    pr.Progress pool pr.req.sp.zend php seq w es live (.smaAllocate c first i is)
      { w with sma := s } es live [] (.smaUnlock c none is) := by
  obtain ⟨hwait, hsized, hi, his⟩ := hat
  obtain ⟨cs, hcs⟩ := hw.sma
  obtain ⟨hno, -⟩ | ⟨off, sz, hsome, -⟩ := hcs.allocate hi hsized.room
  · rw [halloc] at hno
    cases hno
    exact .silent hw rfl rfl ⟨hwait, hsized, his⟩
  · rw [halloc] at hsome
    cases hsome

/-- `sma->last` is set. -/
theorem Progress.last {i : Nat} (hat : pr.At pool php w es live seq (.smaLast c i p)) :
    pr.Progress pool pr.req.sp.zend php seq w es live (.smaLast c i p)
      { w with sma := { w.sma with last := i } } es live [] (.smaUnlock c (some p) []) := by
  obtain ⟨hwait, hsized, hi, howned⟩ := hat
  obtain ⟨cs, hcs⟩ := hw.sma
  refine .of_sma hw rfl rfl rfl ⟨cs, ?_⟩ (fun _ _ => rfl) (fun _ _ _ h => h) (.refl _ _ _) rfl
    ⟨hwait, hsized, howned⟩
  exact ⟨hi, hcs.heap, hcs.segsize, hcs.live_iff⟩

/-- A block that has not become that of an entry is freed. -/
theorem Progress.deallocate {i : Nat} (hat : pr.At pool php w es live seq (.freeDeallocate p))
    (hi : pool.segmentOf p = some i) :
    pr.Progress pool pr.req.sp.zend php seq w es live (.freeDeallocate p)
      { w with sma := w.sma.deallocate i (p - pool.shmaddr i) } es (Function.update live p none) []
      (.freeUnlock p) := by
  obtain ⟨htook, sz, hsz, -, hfresh⟩ := hat
  obtain ⟨cs, hcs⟩ := hw.sma
  obtain ⟨j, -, hj, hok⟩ := hcs.deallocate hsz
  obtain rfl : i = j := Option.some.inj (hi.symm.trans hj)
  refine .of_sma hw rfl rfl rfl hok (fun x hx => ?_) (fun q b hq hb => ?_)
    ⟨fun q hq => ?_, fun q hq => ?_⟩ rfl htook
  · refine Function.update_of_ne ?_ _ _
    rintro rfl
    exact hfresh (List.mem_map_of_mem hx)
  · rw [Function.update_of_ne, hb]
    rintro rfl
    exact hq rfl
  · cases hq
  · refine .inr (.inr ?_)
    constructor
    · intro hno
      by_cases hx : q = p
      · rw [hx, Function.update_self] at hq
        exact hq rfl
      · rw [Function.update_of_ne hx] at hq
        exact hq hno
    · intro h
      cases h
      exact hq (Function.update_self _ _ _)

/-- A store writes to its block. -/
theorem Progress.write {copy : Mem} {o : Option Obj}
    (hat : pr.At pool php w es live seq (.persistFill c p copy)) (h1 : p ≤ q) (h2 : q < p + c.size) :
    pr.Progress pool pr.req.sp.zend php seq w es live (.persistFill c p copy)
      { w with shm := Function.update w.shm q o } es live [] (.persistFill c p copy) := by
  obtain ⟨hwait, howned, key, val, t, es₀, hcall, hd, hpub, hretains⟩ := hat
  obtain ⟨sz, hsz, hle, hfresh⟩ := howned
  have hout {q' : Nat} (hne : q' ≠ q) : Function.update w.shm q o q' = w.shm q' :=
    Function.update_of_ne hne _ _
  have hsame (q' : Nat) (hq : Pub w.shm es q') : Function.update w.shm q o q' = w.shm q' := by
    refine hout ?_
    rintro rfl
    exact hw.not_pub hsz hfresh h1 (by omega) hq
  have hev : Evolves (Pub w.shm es) w.shm (Function.update w.shm q o) := fun q hq => .inl (hsame q hq)
  have hat (x : Nat × Bytes) (hx : x ∈ es) :
      entryAt (Function.update w.shm q o) x.1 = entryAt w.shm x.1 := by
    rw [entryAt, entryAt, hsame _ (hw.pub_entry hx)]
  have hnext (x : Nat × Bytes) (hx : x ∈ es) :
      nextAt (Function.update w.shm q o) x.1 = nextAt w.shm x.1 := by
    rw [nextAt, nextAt, hat x hx]
  refine
    { shaped := hw.frame php hev hnext hw.sma (fun _ _ => rfl) rfl
      others :=
        { entries := List.prefix_rfl
          evolves := hev
          nslots := rfl
          serializer := rfl
          block := fun p' sz' hp' hsz' hfresh' => ⟨hsz', hfresh', fun q' h3 h4 => hout ?_⟩
          still := fun _ => ⟨rfl, rfl, hnext⟩ }
      payloads := .refl _ _ _
      entries := (List.append_nil es).symm
      takesEffect := .no rfl
      at_pc := ?_ }
  · -- the blocks do not overlap
    rintro rfl
    have := hw.sma.apart hsz hsz' fun h => hp' (congrArg some h)
    omega
  · rw [List.append_nil]
    refine ⟨hwait, ⟨sz, hsz, hle, hfresh⟩, key, val, t, es₀, hcall, hd, fun q' hq => ?_,
      hretains.trans (hev.anti hpub).retains⟩
    refine (Pub.congr fun x hx => ?_).2 (hpub q' hq)
    dsimp only
    rw [hat x hx]

include hon

/-- The copy that a store is to write to its block. -/
theorem copies {key t : Nat} {val : Zval} (hcall : pr.req.call = .store key val t)
    (hsized : pr.req.Sized php pr.key w es c) (howned : Owned live es p c.size) :
    pr.req.Copies php pr.key w es live c p (ImmutableCache.persistFill pr.req.sp pr.req.depth c
      (w.shm.clear p c.size) p (initEntry key val t)).2.shm := by
  obtain ⟨key', val', t', shm, i, rd, hcall', hsize, hwell, hext, hview⟩ := hsized
  cases hcall.symm.trans hcall'
  refine ⟨howned, key, val, t, es, hcall, ?_⟩
  obtain ⟨sz, hsz, hle, hfresh⟩ := howned
  have hout (q : Nat) (hq : Pub w.shm es q) : q < p ∨ p + c.size ≤ q := by
    by_contra hcon
    exact hw.not_pub hsz hfresh (by omega) (by omega) hq
  -- what the store reads is published, and outside the block
  have hext' : Extends rd (pr.req.sp.deref (w.shm.clear p c.size)) := by
    refine hview.trans (extends_view fun q o hq _ ho => ?_)
    rw [Mem.clear_out (hout q hq), ho]
  have hshared (q : Nat) (hq : PubOr w.shm es p c.size q) : pr.req.sp.shared q = true := by
    rw [hon.shared]
    rcases hq with hq | ⟨h1, h2⟩
    · exact hw.pub_shared hq
    · exact hw.sma.containsPointer hsz h1 (by omega)
  have hsource : Source pr.req.sp (PubOr w.shm es p c.size) rd := by
    obtain ⟨header, encoder, hinv⟩ := hw.inv php
    have hsrc := hinv.source hon (fun q => .inl) hshared
    exact ⟨hwell.req, fun q o hq ho => hsrc.pub q o hq (hview ho),
      fun q s hq ho => hsrc.str q s hq (hview ho), hshared⟩
  have hroom (q : Nat) (h1 : p ≤ q) (h2 : q < p + c.size) :
      w.shm.clear p c.size q = none ∧ PubOr w.shm es p c.size q := ⟨Mem.clear_in h1 h2, .inr ⟨h1, h2⟩⟩
  obtain ⟨-, hcopied⟩ := persistFill_copied hsource hwell hext hext' hsize hroom
  generalize (ImmutableCache.persistFill pr.req.sp pr.req.depth c (w.shm.clear p c.size) p
    (initEntry key val t)).2.shm = copy at hcopied ⊢
  have hsame (q : Nat) (hq : Pub w.shm es q) : copy q = w.shm q :=
    (hcopied.outside q (hout q hq)).trans (Mem.clear_out (hout q hq))
  have hpub (q : Nat) : Pub copy es q ↔ Pub w.shm es q := Pub.congr fun x hx => by
    rw [entryAt, entryAt, hsame _ (hw.pub_entry hx)]
  have hpub' : Pub copy es = Pub w.shm es := funext fun q => propext (hpub q)
  have hev : Evolves (Pub w.shm es) w.shm copy := fun q hq => .inl (hsame q hq)
  refine ⟨?_, fun q hq => (hpub q).1 hq, fun {q o} hq _ ho => ?_⟩
  · refine hcopied.drafted (persistSize_stored hwell hext hsize).1 (fun q => ?_) hshared ?_ ?_
    · rw [hpub']
      rfl
    · rw [hpub']
      exact hw.frozen.evolves hev
    · exact hview.trans (view_mono (fun q hq => (hpub q).2 hq) hev.retains)
  · rw [← hsame q ((hpub q).1 hq), ho]

/-- A store adds its entry. -/
theorem Progress.link {h : Nat} {place : Option Nat} {l : Mem × List (Option Nat)}
    (hat : pr.At pool php w es live seq (.insertLink p h place))
    (hl : linkEntry w.shm w.slots (w.slotOf (w.newHash pr.req.sp p)) p place = l) :
    ∃ new, pr.Progress pool pr.req.sp.zend php seq w es live (.insertLink p h place)
      { w with shm := l.1, slots := l.2 } (es ++ [(p, pr.key)]) live new (.insertMemSize p h) := by
  obtain ⟨hwait, hdraft, hend⟩ := hat
  have hhash := (hdraft.key hw hon).1
  obtain ⟨key, val, t, n, hcall, ⟨sz, hsz, hle, hfresh⟩, hd⟩ := hdraft
  rw [hhash, World.slotOf, hend.place] at hl
  obtain ⟨hshaped, hev, hlen⟩ := hw.link hd rfl hsz hle hfresh hend.free hl.symm
  have hmono (q : Nat) (hq : Pub w.shm es q) : Pub w.shm (es ++ [(p, pr.key)]) q :=
    hq.mono (List.prefix_append _ _)
  have hp : Pub w.shm (es ++ [(p, pr.key)]) p := by
    have := hd.pos
    exact hd.pub.2 (.inr ⟨le_rfl, by omega⟩)
  have hpub (q : Nat) (hq : Pub w.shm (es ++ [(p, pr.key)]) q) : Pub l.1 (es ++ [(p, pr.key)]) q := by
    refine (Pub.congr fun x hx => ?_).2 hq
    rcases List.mem_append.1 hx with hx | hx
    · rw [(hev.entryAt (hmono _ (hw.pub_entry hx))).eq]
    · obtain rfl := List.mem_singleton.1 hx
      rw [(hev.entryAt hp).eq]
  have hout (q : Nat) (hq : ¬ Pub w.shm es q) : l.1 q = w.shm q := by
    rw [← hl]
    refine linkEntry_of_ne fun hlast => hq ?_
    obtain ⟨k, hk, -⟩ := Table.mem_chainOf.1 (List.mem_of_getLast? hlast)
    exact hw.pub_entry hk
  have hval : StandsFor pr.req.sp (view pr.req.sp l.1 (es ++ [(p, pr.key)])) (w.serializer.getD php)
      pr.req.depth val (entryAt l.1 p).val := by
    rw [(hev.entryAt hp).eq]
    exact hd.value.mono (view_mono hpub hev.retains)
  have hstep : WriteOnce.Step (bound es) (.insert pr.key (some p) true)
      (bound (es ++ [(p, pr.key)])) := by
    rw [bound_append hend.free]
    exact .inserted hend.free
  refine ⟨[(pr.id, (pr.req, pr.key), (some p, .stored true))],
    { shaped := hshaped
      others :=
        { entries := List.prefix_append _ _
          evolves := hev.anti hmono
          nslots := hlen
          serializer := rfl
          block := fun p' sz' hp' hsz' hfresh' =>
            ⟨hsz', ?_, fun q' h3 h4 => hout q' (hw.not_pub hsz' hfresh' h3 h4)⟩
          still := fun hno => absurd (by simp [Pc.Locks, Pc.holds]) hno }
      payloads :=
        { new := fun q hq => by cases hq
          old := fun q hq => ?_ }
      entries := rfl
      takesEffect := .yes hwait (.store hcall hstep) (.added hcall (by simp) hval)
      at_pc := by simp [At, Took] }⟩
  · rw [List.map_append, List.mem_append, not_or]
    refine ⟨hfresh', fun hmem => hp' ?_⟩
    rw [List.mem_singleton.1 hmem]
    rfl
  · -- the block has become that of the entry
    by_cases hx : q = p
    · subst hx
      exact .inr (.inl (by simp))
    · refine .inr (.inr ⟨hq, fun h => hx ?_⟩)
      cases h
      rfl

end

/-! ## Every step -/

/-- What is read of a store is an entry. -/
theorem wellEntry {key t : Nat} {val : Zval} (hcall : pr.req.call = .store key val t)
    (h : pr.req.Reads rd pr.key) :
    WellEntry pr.req.sp rd pr.req.depth (initEntry key val t) pr.key := by
  unfold Request.Reads at h
  rwa [hcall] at h

/-- A step of a process is progress. -/
theorem progress (hmove : pr.req.Moves recursive pool php w pc w' pc')
    (hw : w.Shaped pool pr.req.sp.zend es live) (hon : pr.req.sp.On pool pr.req.sp.zend)
    (hreads : pr.req.Reads (view pr.req.sp w.shm es) pr.key)
    (hfits : ∀ x ∈ seq, Fits php w es x.2) (hat : pr.At pool php w es live seq pc) :
    ∃ es' live' new, pr.Progress pool pr.req.sp.zend php seq w es live pc w' es' live' new pc' := by
  have hsilent {pc' : Pc υ} (howns : pc'.owns = pc.owns) (hadds : pc.added pr.key = [])
      (hat' : pr.At pool php w es live seq pc') :
      ∃ es' live' new, pr.Progress pool pr.req.sp.zend php seq w es live pc w es' live' new pc' :=
    ⟨_, _, _, .silent hw howns hadds hat'⟩
  have hheader {header : Header} {pc' : Pc υ} (howns : pc'.owns = pc.owns)
      (hadds : pc.added pr.key = [])
      (hat' : pr.At pool php { w with header := header } es live seq pc') :
      ∃ es' live' new, pr.Progress pool pr.req.sp.zend php seq w es live pc
        { w with header := header } es' live' new pc' := by
    refine ⟨_, _, _, .of_sma hw rfl rfl rfl hw.sma (fun _ _ => rfl) (fun _ _ _ h => h) ?_ hadds hat'⟩
    rw [howns]
    exact .refl _ _ _
  cases hmove with
  | sized hcall hsize =>
    exact hsilent rfl rfl ⟨hat, _, _, _, _, _, _, hcall, hsize, wellEntry hcall hreads,
      extends_view fun _ _ _ _ ho => ho, .refl _⟩
  | notSized hcall hsize =>
    exact ⟨_, _, Progress.refused hw hcall hat (.inl rfl) rfl rfl fun _ h => h⟩
  | smaMalloc =>
    obtain ⟨cs, hcs⟩ := hw.sma
    refine hsilent rfl rfl ⟨hat.1, hat.2, hcs.last_lt, fun j hj => ?_⟩
    exact List.mem_range.1 (List.mem_of_mem_filter hj)
  | smaLock => exact hsilent rfl rfl hat
  | allocated halloc =>
    obtain ⟨live', h⟩ := Progress.allocated hw hat halloc
    exact ⟨es, live', [], h⟩
  | notAllocated halloc => exact ⟨_, _, _, .notAllocated hw hat halloc⟩
  | smaLast => exact ⟨_, _, _, .last hw hat⟩
  | smaNext =>
    exact hsilent rfl rfl ⟨hat.1, hat.2.1, hat.2.2 _ (by simp), fun j hj =>
      hat.2.2 j (by simp [hj])⟩
  | smaNone =>
    obtain ⟨key, val, t, -, -, -, hcall, -⟩ := hat.2.1
    exact ⟨_, _, Progress.refused hw hcall hat.1 (.inl rfl) rfl rfl fun _ h => h⟩
  | smaUnlock hcall =>
    exact hsilent rfl rfl ⟨hat.1, copies hw hon hcall hat.2.1 hat.2.2⟩
  | write h1 h2 => exact ⟨_, _, _, .write hw hat h1 h2⟩
  | filled hfilled => exact hsilent rfl rfl ⟨hat.1, hat.2.hasDraft hfilled⟩
  | wlock hcall => exact hsilent rfl rfl hat
  | wlockFine => exact hsilent rfl rfl ⟨hat.1, hat.2, .start⟩
  | insertEntry hload =>
    rw [(hat.2.1.key hw hon).1] at hload
    exact hsilent rfl rfl ⟨hat.1, hat.2.1, (hat.2.2.load hw.table).1 _ hload⟩
  | insertEnd hload =>
    rw [(hat.2.1.key hw hon).1] at hload
    exact hsilent rfl rfl ⟨hat.1, hat.2.1, (hat.2.2.load hw.table).2 hload⟩
  | insertFound heq =>
    obtain ⟨hhash, hk⟩ := hat.2.1.key hw hon
    rw [hhash] at heq
    have hb := (keyEquals hw hon hk hat.2.2).1 heq
    obtain ⟨key, val, t, n, hcall, ⟨sz, hsz, -, hfresh⟩, -⟩ := hat.2.1
    refine ⟨_, _, Progress.refused hw hcall hat.1 (.inr ?_) rfl rfl fun seq' h =>
      ⟨h, sz, hsz, Nat.zero_le _, hfresh⟩⟩
    rw [hb]
    simp
  | insertSkip heq =>
    obtain ⟨hhash, hk⟩ := hat.2.1.key hw hon
    rw [hhash] at heq
    exact hsilent rfl rfl ⟨hat.1, hat.2.1, (keyEquals hw hon hk hat.2.2).2 heq⟩
  | insertNext =>
    have hload := hat.2.2.load hw.table
    obtain ⟨key, val, t, n, -, -, hd⟩ := hat.2.1
    obtain ⟨kp, v, he⟩ := hd.entry
    -- the `next` of a draft is `NULL` already
    rw [(hat.2.1.key hw hon).1, hload, entryAt_eq he, writeEntry_self (by exact he)]
    exact hsilent rfl rfl hat
  | insertLink hl =>
    exact ⟨_, _, Progress.link hw hon hat hl⟩
  | insertMemSize => exact hheader rfl rfl hat
  | insertNentries => exact hheader rfl rfl hat
  | insertNinserts => exact hheader rfl rfl hat
  | wunlockFine =>
    rename_i ret
    cases ret with
    | true => exact hsilent rfl rfl hat
    | false => exact hsilent rfl rfl hat
  | stored => exact hsilent rfl rfl hat
  | notStored => exact hsilent rfl rfl hat
  | freeLock => exact hsilent rfl rfl hat
  | freeDeallocate hi => exact ⟨_, _, _, .deallocate hw hat hi⟩
  | freeUnlock => exact hsilent rfl rfl hat
  | rlock hkey => exact hsilent rfl rfl ⟨hat, ⟨_, hkey⟩, (hreads.key hkey).1⟩
  | findSlot =>
    exact ⟨_, _, Progress.find hw rfl rfl hat.1 hat.2 .start rfl⟩
  | found hkey heq =>
    obtain ⟨hwait, ⟨-, rfl⟩, harr⟩ := hat
    have hb := (keyEquals hw hon (hreads.key hkey).2 harr).1 heq
    refine ⟨_, _, Progress.replied hw rfl rfl hwait hkey hb fun seq' o ho => ⟨⟨o, ho⟩, fun p hp => ?_,
      fun a => Request.of_ticks⟩⟩
    exact (bound_eq_some hw.table.keys).1 (hb.trans hp)
  | skip hkey heq =>
    obtain ⟨hwait, ⟨hl, rfl⟩, harr⟩ := hat
    exact hsilent rfl rfl ⟨hwait, ⟨hl, rfl⟩,
      (keyEquals hw hon (hreads.key hkey).2 harr).2 heq⟩
  | findNext =>
    exact ⟨_, _, Progress.find hw rfl rfl hat.1 hat.2.1 hat.2.2 rfl⟩
  | missed => 
    refine hsilent rfl rfl ⟨hat, fun p hp => ?_, fun a => Request.of_ticks⟩
    cases hp
  | tick hs =>
    subst hs
    exact ⟨_, _, _, .tick hw hat⟩
  | counted => exact hsilent rfl rfl hat.1
  | runlock => exact hsilent rfl rfl hat
  | answer ho =>
    obtain ⟨o', htook⟩ := hat
    obtain rfl := (hfits _ htook).reply_eq ho
    exact hsilent rfl rfl htook

end Process

end ImmutableCache
