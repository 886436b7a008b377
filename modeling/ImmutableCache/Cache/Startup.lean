import ImmutableCache.Cache.Add
import ImmutableCache.Cache.Callbacks
import ImmutableCache.Cache.Preload
import ImmutableCache.Cache.Registry

/-!
# Start-up

The cache is created with the serializer that is registered under the configured name by then. If
there is none, the first request that begins later looks again (`immutable_cache_cache_serializer`),
and what was preloaded in between is in the form of the built-in serializer. An entry does not say which
serializer made it (`run_decoded`, `run_not_decoded`).
-/

namespace ImmutableCache

open Bail

section

variable {σ τ κ υ : Type} {w w' : World υ} {pool : Pool} {sp : Space} {php : Serializer υ}
  {it : Iterator υ} {p : Nat} {z : Zend} {es : List (Nat × Bytes)} {live : Nat → Option Nat}

/-! ## The module -/

/-- The state of the module: the table of serializers, and the cache. -/
structure Module (σ τ κ υ : Type) where
  registry : Registry σ τ κ
  cache : World υ

/-- What happens from the creation of the cache on: a serializer is registered; the serializer of the
cache is loaded, at the start of a request or of `immutable_cache_store_helper`; an operation of the
cache is executed, for a request or to preload a file. -/
inductive ModuleEvent (σ τ κ υ : Type) where
  | register (r : Registration σ τ κ)
  | load
  | request (e : Event υ)

section

-- `immutable_cache.serializer`, and what the functions in an element of the table do
variable (name : String) (functions : SerializerSlot σ τ κ → Serializer υ)

/-- `immutable_cache_find_serializer` for the configured name; `NULL` gives `none`. -/
def Module.found (m : Module σ τ κ υ) : Option (Serializer υ) :=
  ((m.registry.find name).bind Prod.fst).map functions

/-- After any registrations the cache is created on a fresh allocator, with the serializer found. -/
def Module.Created (pool : Pool) (m : Module σ τ κ υ) : Prop :=
  ∃ (rs : List (Registration σ τ κ)) (w₀ : World υ) (sizeHint : Int) (stime : Nat),
    m.registry = (Registry.empty.registerAll rs).2 ∧ w₀.sma = pool.init ∧
      w₀.shm = (fun _ => none) ∧ w₀.freed = [] ∧ w₀.callbacks = [] ∧
      cacheCreate pool (m.found name functions) sizeHint stime w₀ = .ok () m.cache

/-- A step of the module. -/
inductive Module.Step (pool : Pool) (z : Zend) (php : Serializer υ) :
    Module σ τ κ υ → ModuleEvent σ τ κ υ → Module σ τ κ υ → Prop
  | register {m : Module σ τ κ υ} (r : Registration σ τ κ) :
      Step pool z php m (.register r) { m with registry := (m.registry.register r).2.2 }
  | load {m : Module σ τ κ υ} :
      Step pool z php m .load
        { m with cache := m.cache.loadSerializer (some (m.found name functions)) }
  | request {m : Module σ τ κ υ} {e : Event υ} {w' : World υ} :
      ImmutableCache.Step pool z php m.cache e w' →
      Step pool z php m (.request e) { m with cache := w' }

/-- The serializer of the cache would be set while an entry is in serialized form. -/
def Module.LoadsLate (m : Module σ τ κ υ) : Prop :=
  m.cache.loadedSerializer = false ∧ m.cache.serializer = none ∧ m.found name functions ≠ none ∧
    ∃ x ∈ m.cache.entries, (entryAt m.cache.shm x.1).val.isPtr = true

end

/-- Every entry that a serializer has been called for is one that this serializer made. -/
def World.Decoded (w : World υ) : Prop :=
  ∀ c ∈ w.callbacks, ∀ p, c.entry = some p → w.encoder p = some c.serializer

/-! ## Which serializer is called -/

/-- The call is that of `unserialize` for the serialized entry `p`, by the serializer of the
cache. -/
def World.Unserializes (w : World υ) (php : Serializer υ) (p : Nat) (c : Callback υ) : Prop :=
  c.entry = some p ∧ c.serializer = w.serializer.getD php ∧ (entryAt w.shm p).val.isPtr = true

/-- What unserializing an entry calls depends on the shared state only. -/
theorem World.Same.unserializes (h : w.Same w') : w'.Unserializes php = w.Unserializes php := by
  have hser : w'.serializer = w.serializer := by rw [h]
  funext p c
  rw [World.Unserializes, World.Unserializes, hser, h.shm]

namespace CallsOnly

/-- `immutable_cache_cache_entry_fetch_zval` calls what unserializing the entry calls. -/
theorem entryFetchZval (p : Nat) :
    CallsOnly (fun w => w.Unserializes php p) (entryFetchZval sp php p) := by
  intro w
  rw [ImmutableCache.entryFetchZval, wp_bind, wp_get]
  dsimp only
  split
  next s hval =>
    rw [wp_bind]
    have hcall : Calls (w.Unserializes php p) w
        { w with callbacks := w.callbacks ++ [⟨w.serializer.getD php, some p, w.held⟩] } :=
      .one ⟨rfl, rfl, by rw [hval]; rfl⟩ rfl
    simp only [ImmutableCache.callback, wp_bind, wp_modify]
    exact (Calls.of_silent permits_silent.emalloc _).mono (fun _ _ => hcall.trans)
      fun _ => hcall.trans
  next => exact Calls.of_eq rfl

/-- A harmless program does not change what unserializing calls. -/
theorem keeps_unserializes {α : Type} {x : Op υ α} (h : Harmless x) (p : Nat) :
    Keeps (fun w : World υ => w.Unserializes php p) x := fun w =>
  (h w).mono (fun _ _ hs => congrFun hs.unserializes p) fun _ hs => congrFun hs.unserializes p

/-- The construction of an item calls no more. -/
theorem itemCtor (it : Iterator υ) (p : Nat) :
    CallsOnly (fun w => w.Unserializes php p) (itemCtor sp php it p) := by
  have hheap (n : Nat) : Silent (emallocN n : Op υ Unit) := within_emallocN permits_silent.emalloc n
  refine (of_silent (hheap 3)).bind (keeps_unserializes (.emallocN 3) p) fun _ => ?_
  dsimp only
  split
  · exact (entryFetchZval p).map.bind_silent fun _ => (hheap 2).bind fun _ => Keeps.get.bind fun _ =>
      .pure _
  · exact of_silent (Keeps.bind (.pure _) fun _ => (hheap 2).bind fun _ => Keeps.get.bind fun _ =>
      .pure _)

/-- The construction of several items calls what unserializing their entries calls. -/
theorem itemCtors (it : Iterator υ) (ps : List Nat) :
    CallsOnly (fun w c => ∃ p ∈ ps, w.Unserializes php p c) (itemCtors sp php it ps) := by
  induction ps with
  | nil => exact of_silent (.pure _)
  | cons p ps ih =>
    intro w
    rw [ImmutableCache.itemCtors, wp_bind, ← wp_forget]
    refine (((itemCtor it p) w).and (Harmless.itemCtor sp php it p w)).mono (fun _ w₁ h₁ => ?_)
      fun _ h => h.1.mono fun c hc => ⟨p, by simp, hc⟩
    have hfirst := h₁.1.mono fun c hc => show ∃ q ∈ p :: ps, w.Unserializes php q c from
      ⟨p, by simp, hc⟩
    have hlater {w₂ : World υ} (h₂ : Calls (fun c => ∃ q ∈ ps, w₁.Unserializes php q c) w₁ w₂) :
        Calls (fun c => ∃ q ∈ p :: ps, w.Unserializes php q c) w w₂ := by
      refine hfirst.trans (h₂.mono ?_)
      rintro c ⟨q, hq, hc⟩
      rw [h₁.2.unserializes] at hc
      exact ⟨q, by simp [hq], hc⟩
    exact (ih w₁).mono (fun _ _ => hlater) fun _ => hlater

/-- The loop over the slots unserializes entries of its chunk only. -/
theorem wp_fetchSlots (fuel count : Nat) (it : Iterator υ) (w : World υ) :
    Wp (fetchSlots sp php fuel count it) w
      (fun _ => Calls (fun c => ∃ p ∈ it.between sp w it.slotIdx
        (it.chunkEndFrom sp w fuel count it.slotIdx), w.Unserializes php p c) w)
      (Calls (fun c => ∃ p ∈ it.between sp w it.slotIdx
        (it.chunkEndFrom sp w fuel count it.slotIdx), w.Unserializes php p c) w) := by
  refine wp_forget.2 ?_
  rw [Wp, forget_fetchSlots]
  exact itemCtors it _ w

/-- An iterator unserializes entries of its chunk. -/
theorem fetchActive (it : Iterator υ) :
    CallsOnly (fun w c => ∃ p ∈ it.chunk sp w, w.Unserializes php p c)
      (fetchActive sp php it) := by
  intro w
  have hsilent := permits_silent.acquire .global "Failed to acquire read lock" w
  simp only [ImmutableCache.fetchActive, ImmutableCache.rlock, wp_bind, wp_ite]
  refine ((Harmless.acquire _ _ w).and hsilent).mono (fun ok w₁ h₁ => ?_) fun _ h => .of_eq h.2
  obtain ⟨hs, hcalls⟩ := h₁
  have hfirst : Calls (fun c => ∃ p ∈ it.chunk sp w, w.Unserializes php p c) w w₁ := .of_eq hcalls
  split
  next =>
    simp only [wp_ensuring, wp_bind, wp_get, wp_pure, unlock, wp_modify]
    have halike : it.Alike { it with stack := it.stack.popAll it.stack.data.length } :=
      ⟨rfl, rfl, rfl, rfl⟩
    have hslots : Wp (fetchSlots sp php (w₁.slots.length - it.slotIdx) 0
        { it with stack := it.stack.popAll it.stack.data.length }) w₁ _ _ := wp_fetchSlots _ _ _ w₁
    rw [halike.chunkEndFrom, halike.between] at hslots
    have hchunk : it.between sp w₁ it.slotIdx
        (it.chunkEndFrom sp w₁ (w₁.slots.length - it.slotIdx) 0 it.slotIdx) = it.chunk sp w :=
      hs.chunk
    have hlater {w₂ : World υ} (h : Calls (fun c => ∃ p ∈ it.between sp w₁ it.slotIdx
        (it.chunkEndFrom sp w₁ (w₁.slots.length - it.slotIdx) 0 it.slotIdx),
          w₁.Unserializes php p c) w₁ w₂) :
        Calls (fun c => ∃ p ∈ it.chunk sp w, w.Unserializes php p c) w w₂ := by
      rw [hchunk, hs.unserializes] at h
      exact hfirst.trans h
    exact hslots.mono (fun _ w₂ h => (hlater h).trans (.of_eq rfl)) fun w₂ h =>
      (hlater h).trans (.of_eq rfl)
  next => exact hfirst

end CallsOnly

/-- The entries of a chunk are entries of the table. -/
theorem World.Inv.mem_chunk (h : w.Inv pool z es live) (hp : p ∈ it.chunk sp w) :
    ∃ k, (p, k) ∈ es := by
  rcases le_or_gt w.slots.length it.slotIdx with hend | hidx
  · rw [it.chunk_of_le sp w hend] at hp
    cases hp
  obtain ⟨s, hs, hmem⟩ := List.mem_flatMap.1 hp
  have hlt : s < w.slots.length := by
    have := it.chunkEnd_le sp w hidx.le
    rw [List.mem_range'_1] at hs
    omega
  rw [Iterator.matching, Iterator.select, List.mem_filter, h.chain_eq hlt, Table.mem_chainOf] at hmem
  obtain ⟨⟨k, hk, -⟩, -⟩ := hmem
  exact ⟨k, hk⟩

/-- A fetch unserializes the entry that it has found. -/
theorem wp_cacheFetch_calls {key t : Nat} {k : Bytes} (h : w.Inv pool sp.zend es live)
    (hon : sp.On pool sp.zend) (hk : readStr sp.zend (view sp w.shm es) key = some k) :
    Wp (cacheFetch sp php key t) w
      (fun _ => Calls (fun c => ∃ x ∈ es, w.Unserializes php x.1 c) w)
      (Calls (fun c => ∃ x ∈ es, w.Unserializes php x.1 c) w) := by
  rw [cacheFetch, wp_bind]
  refine ((wp_cacheFind h hon hk).and (Silent.cacheFind key t w)).mono (fun r w₁ h₁ => ?_)
    fun _ h₁ => .of_eq h₁.2
  obtain ⟨⟨rfl, -, hle⟩, hcalls⟩ := h₁
  have hfirst : Calls (fun c => ∃ x ∈ es, w.Unserializes php x.1 c) w w₁ := .of_eq hcalls
  cases hl : w.lookup es k with
  | none => exact hfirst
  | some p =>
    have hb : bound es k = some p := by
      unfold World.lookup at hl
      split at hl
      · exact hl
      · cases hl
    have hmem : (p, k) ∈ es := (bound_eq_some h.table.keys).1 hb
    have hval : (entryAt w₁.shm p).val = (entryAt w.shm p).val := by
      rw [(hle.evolves.entryAt (h.pub_entry hmem)).eq]
    have hlater {w₂ : World υ} (h₂ : Calls (w₁.Unserializes php p) w₁ w₂) :
        Calls (fun c => ∃ x ∈ es, w.Unserializes php x.1 c) w w₂ := by
      refine hfirst.trans (h₂.mono fun c hc => ⟨(p, k), hmem, hc.1, ?_, ?_⟩)
      · rw [hc.2.1, hle.serializer]
      · rw [← hval]
        exact hc.2.2
    exact (wp_map _).2 ((CallsOnly.entryFetchZval p w₁).mono (fun _ _ => hlater) fun _ => hlater)

/-- The calls that a request makes: of `serialize`, or of `unserialize` for an entry of the table. -/
theorem Request.wp_calls {r : Request υ} (hinv : w.Inv pool z es live) (h : r.Legal pool z w) :
    Wp (r.run pool php) w
      (fun _ => Calls (fun c => c.entry = none ∨ ∃ x ∈ es, w.Unserializes php x.1 c) w)
      (Calls (fun c => c.entry = none ∨ ∃ x ∈ es, w.Unserializes php x.1 c) w) := by
  obtain ⟨hon, hcall⟩ := h
  have hz := hon.zend
  subst hz
  have hsilent : Permits fun w w' : World υ => w'.callbacks = w.callbacks := permits_silent
  have hquiet {x : Op υ (Outcome υ)} (hx : Silent x) : Wp x w
      (fun _ => Calls (fun c => c.entry = none ∨ ∃ x ∈ es, w.Unserializes php x.1 c) w)
      (Calls (fun c => c.entry = none ∨ ∃ x ∈ es, w.Unserializes php x.1 c) w) :=
    Calls.of_silent hx w
  unfold Request.run
  cases hc : r.call with
  | store key val t =>
    exact (wp_map _).2 ((CallsOnly.cacheStore _ key val t w).mono
      (fun _ _ h => h.mono fun _ hc => .inl hc.2) fun _ h => h.mono fun _ hc => .inl hc.2)
  | fetch key t =>
    rw [hc] at hcall
    obtain ⟨k, hk⟩ := hcall
    have hk' : readStr r.sp.zend (view r.sp w.shm es) key = some k := by
      rw [← hinv.view_eq, ← hk, Request.key, hc]
    exact (wp_map _).2 ((wp_cacheFetch_calls hinv hon hk').mono
      (fun _ _ h => h.mono fun _ => .inr) fun _ h => h.mono fun _ => .inr)
  | find key t => exact hquiet (Silent.cacheFind key t).map
  | exist key => exact hquiet (hsilent.cacheExists r.sp key).map
  | stat key => exact hquiet (hsilent.cacheStat r.sp key).map
  | info limited => exact hquiet (hsilent.cacheInfo limited).map
  | smaInfo limited => exact hquiet (hsilent.smaInfo pool limited).map
  | iteratorFetch it =>
    have hchunk {w₂ : World υ}
        (h : Calls (fun c => ∃ p ∈ it.chunk r.sp w, w.Unserializes php p c) w w₂) :
        Calls (fun c => c.entry = none ∨ ∃ x ∈ es, w.Unserializes php x.1 c) w w₂ := by
      refine h.mono ?_
      rintro c ⟨p, hp, hc⟩
      obtain ⟨k, hk⟩ := hinv.mem_chunk hp
      exact .inr ⟨_, hk, hc⟩
    exact (wp_map _).2 ((CallsOnly.fetchActive it w).mono (fun _ _ => hchunk) fun _ => hchunk)
  | iteratorTotals it => exact hquiet (hsilent.iteratorTotals r.sp it).map

/-- A request serializes, or unserializes entries of the table. -/
theorem Step.calls {e : Event υ} (h : Step pool z php w e w') (hinv : w.Inv pool z es live) :
    Calls (fun c => c.entry = none ∨ ∃ x ∈ es, w.Unserializes php x.1 c) w w' := by
  exact h.wp (Q := fun _ => Calls (fun c => c.entry = none ∨ ∃ x ∈ es, w.Unserializes php x.1 c) w)
    (Request.wp_calls hinv h.2.1)

/-! ## The invariant of the module -/

/-- What holds of the module while no serializer is loaded late: the entries in serialized form are in
the form of the serializer of the cache, and the calls so far have been for such entries. -/
structure Module.Sound (pool : Pool) (z : Zend) (php : Serializer υ) (m : Module σ τ κ υ)
    (es : List (Nat × Bytes)) (live : Nat → Option Nat) : Prop where
  inv : m.cache.Inv pool z es live
  encoder : ∀ x ∈ es, ∀ s, m.cache.encoder x.1 = some s → s = m.cache.serializer.getD php
  decoded : ∀ c ∈ m.cache.callbacks, ∀ p, c.entry = some p →
    (∃ k, (p, k) ∈ es) ∧ m.cache.encoder p = some c.serializer

variable {name : String} {functions : SerializerSlot σ τ κ → Serializer υ} {m m' : Module σ τ κ υ}
  {ev : ModuleEvent σ τ κ υ} {evs : List (ModuleEvent σ τ κ υ)}

/-- A serialized entry has an encoder. -/
theorem World.Inv.encoder_isSome {x : Nat × Bytes} (h : w.Inv pool z es live) (hx : x ∈ es)
    (hptr : (entryAt w.shm x.1).val.isPtr = true) : (w.encoder x.1).isSome = true := by
  refine (h.encoder x hx).2 ?_
  cases hval : (entryAt w.shm x.1).val with
  | ptr q => exact ⟨q, rfl⟩
  | _ =>
    rw [hval] at hptr
    cases hptr

/-- Unless it is late, a load leaves the serializer of the cache as it is, or there is no entry in
serialized form. -/
theorem Module.Sound.serializer_eq (h : m.Sound pool z php es live)
    (hlate : ¬ m.LoadsLate name functions) :
    (m.cache.loadSerializer (some (m.found name functions))).serializer = m.cache.serializer ∨
      ∀ x ∈ es, m.cache.encoder x.1 = none := by
  unfold World.loadSerializer
  dsimp only
  split
  next => exact .inl rfl
  next hloaded =>
    cases hser : m.cache.serializer with
    | some s => exact .inl rfl
    | none =>
      cases hf : m.found name functions with
      | none => exact .inl rfl
      | some s =>
        refine .inr fun x hx => Option.not_isSome_iff_eq_none.1 fun henc => hlate ?_
        obtain ⟨q, hq⟩ := (h.inv.encoder x hx).1 henc
        refine ⟨eq_false_of_ne_true hloaded, hser, by rw [hf]; exact Option.some_ne_none s, x,
          (h.inv.mem_entries x).2 hx, ?_⟩
        rw [hq]
        rfl

/-- The serializer is loaded, but not late. -/
theorem Module.Sound.load (h : m.Sound pool z php es live) (hlate : ¬ m.LoadsLate name functions) :
    Module.Sound pool z php
      { m with cache := m.cache.loadSerializer (some (m.found name functions)) } es live := by
  have henc : (m.cache.loadSerializer (some (m.found name functions))).encoder =
      m.cache.encoder := by
    unfold World.loadSerializer
    dsimp only
    split <;> rfl
  have hinv : (m.cache.loadSerializer (some (m.found name functions))).Inv pool z es live :=
    h.inv.loadSerializer.1
  refine ⟨hinv, fun x hx s hs => ?_, fun c hc p hp => ?_⟩
  · dsimp only at hs ⊢
    rw [henc] at hs
    rcases h.serializer_eq hlate with heq | hnone
    · rw [heq]
      exact h.encoder x hx s hs
    · rw [hnone x hx] at hs
      cases hs
  · dsimp only at hc ⊢
    rw [(loadSerializer_same m.cache).2.1] at hc
    rw [henc]
    exact h.decoded c hc p hp

/-- The encoder of a new entry is the serializer of the cache. -/
theorem Effect.encoder {r : Request υ} {o : Option (Outcome υ)} {es' : List (Nat × Bytes)}
    {live' : Nat → Option Nat} (heff : Effect pool z php w es live r o w' es' live')
    (h : ∀ x ∈ es, ∀ s, w.encoder x.1 = some s → s = w.serializer.getD php) :
    ∀ x ∈ es', ∀ s, w'.encoder x.1 = some s → s = w.serializer.getD php := by
  have hle := heff.kept.2
  have hold : ∀ x ∈ es, ∀ s, w'.encoder x.1 = some s → s = w.serializer.getD php := by
    intro x hx s hs
    rw [hle.encoder x hx] at hs
    exact h x hx s hs
  cases heff with
  | added _ _ _ _ hadded =>
    intro x hx s hs
    rcases List.mem_append.1 hx with hx | hx
    · exact hold x hx s hs
    · obtain rfl := List.mem_singleton.1 hx
      rw [hadded.encoder] at hs
      split at hs
      · exact (Option.some.inj hs).symm
      · cases hs
  | rejected _ _ _ _ _ => exact hold
  | leaked _ _ _ _ => exact hold
  | answered _ _ _ => exact hold
  | reported _ _ => exact hold
  | aborted _ => exact hold

/-- A request. -/
theorem Module.Sound.request {e : Event υ} (h : m.Sound pool z php es live)
    (hstep : ImmutableCache.Step pool z php m.cache e w') :
    ∃ es' live', Module.Sound pool z php { m with cache := w' } es' live' := by
  obtain ⟨es', live', heff⟩ := hstep.effect h.inv
  obtain ⟨hinv', hle⟩ := heff.kept
  refine ⟨es', live', hinv', ?_, ?_⟩
  · dsimp only
    rw [hle.serializer]
    exact heff.encoder h.encoder
  · obtain ⟨new, hnew, hall⟩ := hstep.calls h.inv
    intro c hc p hp
    have hold {k : Bytes} {s : Serializer υ} (hk : (p, k) ∈ es)
        (hs : m.cache.encoder p = some s) : (∃ k, (p, k) ∈ es') ∧ w'.encoder p = some s :=
      ⟨⟨k, hle.entries.subset hk⟩, (hle.encoder _ hk).trans hs⟩
    dsimp only at hc
    rw [hnew] at hc
    rcases List.mem_append.1 hc with hc | hc
    · obtain ⟨⟨k, hk⟩, hs⟩ := h.decoded c hc p hp
      exact hold hk hs
    · obtain hno | ⟨x, hx, hentry, hser, hptr⟩ := hall c hc
      · rw [hno] at hp
        cases hp
      · obtain rfl : x.1 = p := Option.some.inj (hentry.symm.trans hp)
        obtain ⟨s, hs⟩ := Option.isSome_iff_exists.1 (h.inv.encoder_isSome hx hptr)
        rw [hser, ← h.encoder x hx s hs]
        exact hold hx hs

/-- A new cache. -/
theorem Module.Created.sound (h : Module.Created name functions pool m) (z : Zend)
    (php : Serializer υ) : ∃ live, m.Sound pool z php [] live := by
  obtain ⟨rs, w₀, sizeHint, stime, -, hsma, hshm, hfreed, hcalls, hrun⟩ := h
  have hc : ImmutableCache.Created pool m.cache :=
    ⟨w₀, _, sizeHint, stime, hsma, hshm, hfreed, hrun⟩
  obtain ⟨-, hdr, sz, hinv⟩ := hc.inv z
  have hcreate : Silent (cacheCreate pool (m.found name functions) sizeHint stime) := by
    refine Keeps.bind (Silent.of_rest (Keeps.smaMalloc _)) fun r => ?_
    cases r with
    | some p => exact .of_modify fun _ => rfl
    | none => exact Keeps.bind (Silent.of_rest (Keeps.warning _)) fun _ => .bailout
  have hnone : m.cache.callbacks = [] := ((hcreate w₀).of_ok hrun).trans hcalls
  refine ⟨_, hinv, by simp, fun c hc => ?_⟩
  rw [hnone] at hc
  cases hc

/-- A step that is no late load keeps the module sound. -/
theorem Module.Sound.step (h : m.Sound pool z php es live)
    (hstep : m.Step name functions pool z php ev m')
    (hlate : ev = .load → ¬ m.LoadsLate name functions) :
    ∃ es' live', m'.Sound pool z php es' live' := by
  cases hstep with
  | register r => exact ⟨es, live, h.inv, h.encoder, h.decoded⟩
  | load => exact ⟨es, live, h.load (hlate rfl)⟩
  | request hstep => exact h.request hstep

/-- So does a run of such steps. -/
theorem Module.Sound.run (h : m.Sound pool z php es live)
    (hrun : Run (fun m ev m' => m.Step name functions pool z php ev m' ∧
      (ev = .load → ¬ m.LoadsLate name functions)) m evs m') :
    ∃ es' live', m'.Sound pool z php es' live' := by
  induction hrun generalizing es live with
  | nil => exact ⟨es, live, h⟩
  | cons h1 _ ih =>
    obtain ⟨es₁, live₁, h₁⟩ := h.step h1.1 h1.2
    exact ih h₁

/-- Operations of the cache are steps of the module, which load nothing. -/
theorem Module.run_requests (registry : Registry σ τ κ) {evs : List (Event υ)}
    (h : Run (ImmutableCache.Step pool z php) w evs w') :
    Run (fun (m : Module σ τ κ υ) ev m' => m.Step name functions pool z php ev m' ∧
      (ev = .load → ¬ m.LoadsLate name functions)) ⟨registry, w⟩ (evs.map .request)
        ⟨registry, w'⟩ := by
  induction h with
  | nil => exact .nil
  | cons h1 _ ih => exact .cons ⟨.request h1, nofun⟩ ih

/-- In every run from the creation of the cache, with any order of registrations, loads of the
serializer and operations, in which no load sets the serializer of the cache when an entry is in
serialized form already: whenever a serializer's `unserialize` has been called for an entry, it was the
serializer that made the entry. -/
theorem run_decoded (name : String) (functions : SerializerSlot σ τ κ → Serializer υ) (pool : Pool)
    (z : Zend) (php : Serializer υ) (m m' : Module σ τ κ υ) (evs : List (ModuleEvent σ τ κ υ))
    (hc : m.Created name functions pool)
    (h : Run (fun m ev m' => m.Step name functions pool z php ev m' ∧
      (ev = .load → ¬ m.LoadsLate name functions)) m evs m') : m'.cache.Decoded := by
  obtain ⟨live, hsound⟩ := hc.sound z php
  obtain ⟨es', live', hsound'⟩ := hsound.run h
  exact fun c hc p hp => (hsound'.decoded c hc p hp).2

end

/-! ## A small module -/

namespace Small

/-- Another serializer, which does not understand what the built-in one makes. -/
def other : Serializer Bytes where
  name := "other"
  serialize _ _ _ := some [111]
  throws _ _ _ := false
  unserialize buf := if buf = [111] then some [] else none
  serialize_lt h := by
    cases h
    decide

/-- The functions in an element of the table. -/
def functions (s : SerializerSlot Unit Unit Unit) : Serializer Bytes :=
  if s.name = some "php" then php else other

/-- A registration under a name. -/
def registration (name : String) : Registration Unit Unit Unit := ⟨name, some (), some (), none⟩

/-- The table with `php` registered. -/
def builtIn : Registry Unit Unit Unit := (Registry.empty.registerAll [registration "php"]).2

/-- The module with the small cache, and with `php` registered. -/
abbrev started : Module Unit Unit Unit Bytes := ⟨builtIn, start (env none)⟩

/-- The small module begins with a cache without a serializer. -/
theorem started_created : started.Created "other" functions pool := by
  have hfound : started.found "other" functions = none :=
    Option.not_isSome_iff_eq_none.1 (by decide +kernel)
  refine ⟨[registration "php"], fresh (env none), 1, 0, rfl, rfl, rfl, rfl, rfl, ?_⟩
  rw [hfound]
  exact start_eq (by decide +kernel)

/-- The table with the other serializer registered too. -/
def both : Registry Unit Unit Unit := (builtIn.register (registration "other")).2.2

/-- An extension registers its serializer, after the built-in one. -/
theorem register_other (w : World Bytes) : Module.Step "other" functions pool zend php
    ⟨builtIn, w⟩ (.register (registration "other")) ⟨both, w⟩ := by
  rw [both]
  exact .register _

/-- The serializer `"other"` is found then. -/
theorem found_other (w : World Bytes) :
    (⟨both, w⟩ : Module Unit Unit Unit Bytes).found "other" functions = some other := by
  have hname : ((both.find "other").bind Prod.fst).map SerializerSlot.name = some (some "other") := by
    decide +kernel
  obtain ⟨s, hs, hsname⟩ := Option.map_eq_some_iff.1 hname
  have hother : functions s = other := by
    rw [functions, hsname, if_neg (by decide)]
  rw [Module.found, hs, Option.map_some, hother]

/-- The other serializer is loaded. -/
theorem load_other (w : World Bytes) : Module.Step "other" functions pool zend php ⟨both, w⟩ .load
    ⟨both, w.loadSerializer (some (some other))⟩ := by
  have hstep : Module.Step "other" functions pool zend php ⟨both, w⟩ .load _ := .load
  rwa [found_other] at hstep

/-- The small process with an array at 300 whose two elements are one reference. -/
def referenceSpace : Space :=
  space (objects ++ [
      (300, .ht { gcImmutable := false, packed := true, staticKeys := true, uninitialized := false
                  hashSlots := 2, nNumUsed := 2, nNumOfElements := 2, nInternalPointer := 0
                  nNextFreeElement := 2, dataAddr := 360 }),
      (360, .packed [htInvalidIdx, htInvalidIdx] [.reference 400, .reference 400]), (400, .other)])
    (by decide) (fun x hx t ht => by fin_cases hx <;> cases ht <;> decide) (by decide)

/-- Store the array under `"a"`. -/
def storeReference : Request Bytes := ⟨referenceSpace, 1, .store 104 (.array 300 true) 0⟩

/-- The store of the array with a reference is legal in every state. -/
theorem storeReference_legal (w : World Bytes) : storeReference.Legal pool zend w := by
  have hview {p : Nat} (hp : referenceSpace.shared p = false) :
      w.view referenceSpace p = referenceSpace.req p := view_req hp w
  refine ⟨space_on rfl rfl rfl, [97], fun p hp => hview hp, ?_, ?_⟩
  · exact readStr_eq_some.2 ⟨⟨false, 0, [97]⟩, hview (by decide), .inl rfl, rfl⟩
  change WellZval referenceSpace (w.view referenceSpace) 1
    (WellHt referenceSpace (w.view referenceSpace) 1) (.array 300 true)
  rw [WellZval, if_neg (by decide)]
  refine ⟨_, hview (by decide), .inr (.inl ⟨by decide, rfl, _, _, hview (by decide), rfl,
    by decide, fun v hv _ => ?_⟩)⟩
  simp only [List.mem_cons, List.not_mem_nil, or_false, or_self] at hv
  subst hv
  exact ⟨by decide, hview (by decide)⟩

/-- The directory with the one file `"a.data"`, which holds `a:2:{i:0;i:1;i:1;R:2;}`. -/
def references : Preloader where
  maxPathLen := 4096
  defaultSlash := 47
  scandir _ := [97 :: Preloader.dataExt]
  fread _ := some [97, 58, 50, 58, 123, 105, 58, 48, 59, 105, 58, 49, 59, 105, 58, 49, 59, 82, 58, 50,
    59, 125]
  varUnserialize _ := some (.array 300 true)
  stringInit _ := 104
  sp _ := referenceSpace
  time _ := 0
  depth := 1

/-- The cache with the array preloaded. -/
def preloaded : World Bytes := final (references.cachePreload pool php [47, 100]) (start (env none))

/-- The file is preloaded. -/
theorem preloaded_eq : references.cachePreload pool php [47, 100] (start (env none)) =
    .ok true preloaded := by
  have hgives : gives (references.cachePreload pool php [47, 100]) (start (env none)) id = true := by
    decide +kernel
  obtain ⟨a, w', hrun, ha⟩ := of_gives hgives
  obtain rfl : a = true := ha
  rw [preloaded, final, hrun]

/-- The preload is a store of the array. -/
theorem preloaded_run : ∃ loads, Run (Step pool zend php) (start (env none)) loads preloaded ∧
    loads.map Event.req = [storeReference] := by
  obtain ⟨-, hdr, sz, hinv⟩ := created.inv zend
  have hlegal (name : Bytes) (hname : name ∈ references.scandir [47, 100]) (k : Bytes)
      (_ : references.Loads [47, 100] name k) :
      (references.request Bytes [47, 100] name k).Legal pool zend (start (env none)) := by
    obtain rfl := List.mem_singleton.1 hname
    exact storeReference_legal _
  obtain ⟨-, loads, hrun, hreqs, -⟩ := Wp.of_ok
    (references.wp_preloadLoop hinv hlegal) preloaded_eq
  exact ⟨loads, hrun, hreqs⟩

/-- The preloaded cache after a load of the other serializer. -/
def loadedLate : World Bytes := preloaded.loadSerializer (some (some other))

/-- The array is fetched from it. -/
def fetchedLate : World Bytes := final (fetchA.run pool php) loadedLate

/-- The empty cache after a load of the other serializer. -/
def loadedEarly : World Bytes := (start (env none)).loadSerializer (some (some other))

/-- The array is stored in it, and fetched. -/
def fetchedEarly : List (Event Bytes) × World Bytes :=
  execute pool php [storeReference, fetchA] loadedEarly

end Small

/-- Where `other` is registered and loaded before the array is stored, it is asked for the value of the
entry when the array is fetched. -/
theorem run_decoded_small : Small.fetchedEarly.2.Decoded ∧
    ∃ c ∈ Small.fetchedEarly.2.callbacks, c.entry ≠ none ∧ c.serializer.name = "other" := by
  have hlate : ¬ Module.LoadsLate "other" Small.functions
      ⟨Small.both, Small.start (Small.env none)⟩ := by
    rintro ⟨-, -, -, x, hx, -⟩
    have hempty : (Small.start (Small.env none)).entries = [] := by decide +kernel
    rw [hempty] at hx
    cases hx
  have hrun : Run (Step Small.pool Small.zend Small.php) Small.loadedEarly Small.fetchedEarly.1
      Small.fetchedEarly.2 := by
    refine execute_run (fun r hr w => ?_) _
    simp only [List.mem_cons, List.not_mem_nil, or_false] at hr
    rcases hr with rfl | rfl
    · exact Small.storeReference_legal w
    · exact Small.fetchA_legal w
  have hload : Module.Step "other" Small.functions Small.pool Small.zend Small.php
      ⟨Small.both, Small.start (Small.env none)⟩ .load ⟨Small.both, Small.loadedEarly⟩ :=
    Small.load_other _
  have hmodule : Run (fun (m : Module Unit Unit Unit Bytes) ev m' =>
      m.Step "other" Small.functions Small.pool Small.zend Small.php ev m' ∧
        (ev = .load → ¬ m.LoadsLate "other" Small.functions)) Small.started
      (.register (Small.registration "other") :: .load :: Small.fetchedEarly.1.map .request)
      ⟨Small.both, Small.fetchedEarly.2⟩ :=
    .cons ⟨Small.register_other _, nofun⟩
      (.cons ⟨hload, fun _ => hlate⟩ (Module.run_requests Small.both hrun))
  have hdec := run_decoded "other" Small.functions Small.pool Small.zend Small.php Small.started
    ⟨Small.both, Small.fetchedEarly.2⟩ _ Small.started_created hmodule
  dsimp only at hdec
  refine ⟨hdec, ?_⟩
  have hany : Small.fetchedEarly.2.callbacks.any (fun c => decide (c.entry ≠ none) &&
      decide (c.serializer.name = "other")) = true := by decide +kernel
  obtain ⟨c, hc, hp⟩ := List.any_eq_true.1 hany
  rw [Bool.and_eq_true, decide_eq_true_eq, decide_eq_true_eq] at hp
  exact ⟨c, hc, hp⟩

/-- An array that holds a reference is preloaded, `other` is registered and loaded, and a request
fetches the array. -/
theorem run_not_decoded : ∃ loads e w m',
    Small.started.Created "other" Small.functions Small.pool ∧
    Small.references.cachePreload Small.pool Small.php [47, 100] (Small.start (Small.env none)) =
      .ok true w ∧
    Run (Step Small.pool Small.zend Small.php) (Small.start (Small.env none)) loads w ∧
    Run (Module.Step "other" Small.functions Small.pool Small.zend Small.php) Small.started
      (loads.map .request ++ [.register (Small.registration "other"), .load, .request e]) m' ∧
    e.req = Small.fetchA ∧ ¬ m'.cache.Decoded := by
  obtain ⟨loads, hloads, -⟩ := Small.preloaded_run
  obtain ⟨o, hfetch⟩ := Step.final Small.pool Small.php (Small.fetchA_legal Small.loadedLate)
  have hpreload : Run (Module.Step "other" Small.functions Small.pool Small.zend Small.php)
      Small.started (loads.map .request) ⟨Small.builtIn, Small.preloaded⟩ :=
    (Module.run_requests Small.builtIn hloads).mono fun h => h.1
  have hload : Module.Step "other" Small.functions Small.pool Small.zend Small.php
      ⟨Small.both, Small.preloaded⟩ .load ⟨Small.both, Small.loadedLate⟩ :=
    Small.load_other Small.preloaded
  have hrequest : Module.Step "other" Small.functions Small.pool Small.zend Small.php
      ⟨Small.both, Small.loadedLate⟩ (.request ⟨Small.loadedLate, Small.fetchA, o⟩)
      ⟨Small.both, Small.fetchedLate⟩ := by
    rw [Small.fetchedLate]
    refine .request ?_
    dsimp only
    exact hfetch
  refine ⟨loads, _, Small.preloaded, ⟨Small.both, Small.fetchedLate⟩, Small.started_created,
    Small.preloaded_eq, hloads, hpreload.append (.cons (Small.register_other _)
      (.cons hload (.cons hrequest .nil))), rfl, fun hdec => ?_⟩
  dsimp only at hdec
  have hany : Small.fetchedLate.callbacks.any (fun c => c.entry.any fun p =>
      decide ((Small.fetchedLate.encoder p).map Serializer.name ≠ some c.serializer.name)) =
        true := by decide +kernel
  obtain ⟨c, hc, hp⟩ := List.any_eq_true.1 hany
  obtain ⟨p, hp, hne⟩ := (Option.any_eq_true _ _).1 hp
  refine of_decide_eq_true hne ?_
  rw [hdec c hc p hp, Option.map_some]

end ImmutableCache
