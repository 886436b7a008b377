import ImmutableCache.Cache.Persist

/-!
# Looking up

The lookups find the entry that the table binds the key to. They change nothing but the hit and
miss counters and the access time of the entry.
-/

namespace ImmutableCache

open Bail

variable {υ : Type} {pool : Pool} {sp : Space} {es : List (Nat × Bytes)} {w w' w₁ : World υ}
  {live : Nat → Option Nat} {php : Serializer υ} {key p t : Nat} {k : Bytes}

/-- A process can read the key. -/
theorem keyHash_view (hk : readStr sp.zend (view sp w.shm es) key = some k) :
    keyHash sp w.shm key = sp.zend.hash k ∧ (sp.zstr w.shm key).val = k :=
  keyHash_eq (extends_view fun _ _ _ _ ho => ho) hk

/-- The walk of a lookup finds the entry that the key is bound to. -/
theorem World.Inv.findEntry (h : w.Inv pool sp.zend es live) (hon : sp.On pool sp.zend)
    (hk : readStr sp.zend (view sp w.shm es) key = some k) :
    findEntry sp w.shm key (keyHash sp w.shm key) w.header.nentries
      (w.headOf (keyHash sp w.shm key)) = bound es k := by
  obtain ⟨hhash, hval⟩ := keyHash_view hk
  rw [hhash]
  refine h.table.findEntry (fun q hq => ?_) hval h.nentries.ge
  rw [hon.shared]
  exact h.pub_shared hq

/-- One term of a sum is larger by one. -/
theorem sum_map_succ {ι : Type} [DecidableEq ι] {l : List ι} {f g : ι → Nat} {x : ι}
    (hn : l.Nodup) (hx : x ∈ l) (hfg : g x = f x + 1) (h : ∀ y ∈ l, y ≠ x → g y = f y) :
    (l.map g).sum = (l.map f).sum + 1 := by
  have hperm := List.perm_cons_erase hx
  have hrest : (l.erase x).map g = (l.erase x).map f := by
    refine List.map_congr_left fun y hy => ?_
    obtain ⟨hne, hy⟩ := (hn.mem_erase_iff).1 hy
    exact h y hy hne
  rw [(hperm.map g).sum_eq, (hperm.map f).sum_eq, List.map_cons, List.map_cons, List.sum_cons,
    List.sum_cons, hrest, hfg]
  omega

/-- A hit keeps the table. -/
theorem World.Inv.hit {z : Zend} (h : w.Inv pool z es live) (hp : bound es k = some p) (t : Nat) :
    Kept pool z es live w (w.hit p t) := by
  have hmem := (bound_eq_some h.table.keys).1 hp
  obtain ⟨e, he, -⟩ := h.table.entry _ hmem
  have hat := entryAt_eq he
  refine h.evolves (.writeEntry he ?_) (fun x hx => ?_) h.sma (fun _ _ => rfl) (fun _ _ => rfl)
    ⟨[], rfl, by simp⟩ rfl rfl rfl ?_ rfl rfl rfl
  · rw [hat]
    exact ⟨rfl, .inr rfl⟩
  · rw [World.hit, nextAt_writeEntry]
    by_cases hx : x.1 = p
    · rw [hx, Function.update_self, nextAt]
    · rw [Function.update_of_ne hx]
  · refine (congrArg (· + 1) h.nhits).trans (sum_map_succ h.table.nodup.of_map hmem ?_ ?_).symm
    · simp only [World.hit, entryAt_writeEntry_self]
    · intro x hx hne
      have hxp : x.1 ≠ p := fun hxp =>
        hne (List.inj_on_of_nodup_map h.table.nodup hx hmem hxp)
      simp only [World.hit, entryAt_writeEntry_of_ne _ hxp]

/-- A miss keeps the table. -/
theorem World.Inv.miss {z : Zend} (h : w.Inv pool z es live) : Kept pool z es live w w.miss :=
  h.evolves (.refl _ _) (fun _ _ => rfl) h.sma (fun _ _ => rfl) (fun _ _ => rfl)
    ⟨[], rfl, by simp⟩ rfl rfl rfl h.nhits rfl rfl rfl

/-- A lookup with statistics keeps the table. -/
theorem World.Inv.rlockedFind (h : w.Inv pool sp.zend es live) (hon : sp.On pool sp.zend)
    (hk : readStr sp.zend (view sp w.shm es) key = some k) :
    (rlockedFind sp key t w).1 = bound es k ∧
      Kept pool sp.zend es live w (rlockedFind sp key t w).2 := by
  have hkept : Kept pool sp.zend es live w w := h.kept (.refl w)
  unfold ImmutableCache.rlockedFind
  dsimp only
  rw [h.findEntry hon hk]
  cases hb : bound es k with
  | some p =>
    refine ⟨rfl, ?_⟩
    dsimp only
    split
    · exact hkept
    · exact h.hit hb t
  | none =>
    refine ⟨rfl, ?_⟩
    dsimp only
    split
    · exact hkept
    · exact h.miss

/-- What a lookup is to find: the entry that the key is bound to, unless the lock could not be
acquired. -/
def World.lookup (w : World υ) (es : List (Nat × Bytes)) (k : Bytes) : Option Nat :=
  if w.env.lockOk w.lockTries then bound es k else none

/-- `immutable_cache_cache_find`. -/
theorem wp_cacheFind (h : w.Inv pool sp.zend es live) (hon : sp.On pool sp.zend)
    (hk : readStr sp.zend (view sp w.shm es) key = some k) :
    Wp (cacheFind sp key t) w (fun r w' => r = w.lookup es k ∧ Kept pool sp.zend es live w w')
      (Kept pool sp.zend es live w) := by
  simp only [cacheFind, rlock, wp_bind, wp_get, wp_ite]
  refine (Harmless.wp_acquire (w := w)).mono (fun ok w₁ h₁ => ?_) fun _ h₁ => h.kept h₁.1
  obtain ⟨hs, rfl⟩ := h₁
  unfold World.lookup
  split
  next hok =>
    simp only [wp_modifyGet, unlock, wp_modify, wp_pure]
    obtain ⟨h1, h2⟩ := (hs.inv h).rlockedFind (t := t) hon (hs.shm ▸ hk)
    exact ⟨h1, ((h.kept hs).trans h h2).of_same rfl⟩
  next hok => exact ⟨rfl, h.kept hs⟩

/-- `immutable_cache_cache_exists`. -/
theorem wp_cacheExists (h : w.Inv pool sp.zend es live) (hon : sp.On pool sp.zend)
    (hk : readStr sp.zend (view sp w.shm es) key = some k) :
    Wp (cacheExists sp key) w (fun r w' => r = (w.lookup es k).isSome ∧ w.Same w') w.Same := by
  simp only [cacheExists, rlock, wp_bind, wp_get, wp_ite]
  refine (Harmless.wp_acquire (w := w)).mono (fun ok w₁ h₁ => ?_) fun _ h₁ => h₁.1
  obtain ⟨hs, rfl⟩ := h₁
  unfold World.lookup
  split
  next hok =>
    simp only [unlock, wp_modify, wp_pure]
    have hk₁ : readStr sp.zend (view sp w₁.shm es) key = some k := hs.shm ▸ hk
    refine ⟨?_, hs.trans rfl⟩
    rw [rlockedFindNostat, (hs.inv h).findEntry hon hk₁]
  next hok => exact ⟨rfl, hs⟩

/-- `immutable_cache_cache_stat`. -/
theorem wp_cacheStat (h : w.Inv pool sp.zend es live) (hon : sp.On pool sp.zend)
    (hk : readStr sp.zend (view sp w.shm es) key = some k) :
    Wp (cacheStat sp key) w
      (fun r w' => r = (w.lookup es k).map (fun p => (entryAt w.shm p).stat) ∧ w.Same w')
      w.Same := by
  simp only [cacheStat, rlock, wp_bind, wp_get, wp_ite]
  refine (Harmless.wp_acquire (w := w)).mono (fun ok w₁ h₁ => ?_) fun _ h₁ => h₁.1
  obtain ⟨hs, rfl⟩ := h₁
  unfold World.lookup
  split
  next hok =>
    simp only [wp_ensuring, unlock, wp_bind, wp_get, wp_modify]
    have hk₁ : readStr sp.zend (view sp w₁.shm es) key = some k := hs.shm ▸ hk
    have hfind := (hs.inv h).findEntry hon hk₁
    rw [hs.shm] at hfind ⊢
    rw [hfind]
    cases hb : bound es k with
    | none => exact ⟨rfl, hs.trans rfl⟩
    | some p =>
      simp only [wp_bind]
      exact (Harmless.emallocN 4 w₁).mono (fun _ w₂ h₂ => ⟨rfl, (hs.trans h₂).trans rfl⟩)
        fun _ h₂ => (hs.trans h₂).trans rfl
  next hok => exact ⟨rfl, hs⟩

section

variable {R : World υ → World υ → Prop} [IsPreorder (World υ) R]

/-- A test of a key does what the relation permits. -/
theorem Permits.cacheExists (h : Permits R) (sp : Space) (key : Nat) :
    Within R (cacheExists sp key) := by
  refine Within.get.bind fun _ => (h.acquire _ _).bind fun _ => .ite ?_ (.pure _)
  exact Within.get.bind fun _ => (h.unlock _).bind fun _ => .pure _

/-- So does reading the statistics of an entry. -/
theorem Permits.cacheStat (h : Permits R) (sp : Space) (key : Nat) :
    Within R (cacheStat sp key) := by
  refine Within.get.bind fun _ => (h.acquire _ _).bind fun _ =>
    .ite (.ensuring (Within.get.bind fun w => ?_) (h.unlock _)) (.pure _)
  split
  · exact (within_emallocN h.emalloc _).bind fun _ => .pure _
  · exact .pure _

end

namespace Harmless

/-- A test of a key harms no entry. -/
theorem cacheExists (sp : Space) (key : Nat) : Harmless (cacheExists sp key : Op υ Bool) :=
  permits.cacheExists sp key

/-- Neither does reading the statistics of one. -/
theorem cacheStat (sp : Space) (key : Nat) : Harmless (cacheStat sp key : Op υ (Option Stat)) :=
  permits.cacheStat sp key

end Harmless

/-! ## Fetching -/

/-- A value that was published is fetched the same in a later state. -/
theorem unpersist_congr {P : Nat → Prop} {shm shm' : Mem} {v : Zval} {ser : Serializer υ}
    (hP : ∀ q, P q → sp.shared q = true) (hr : Retains P shm shm')
    (hv : v.Frozen P shm ∨ ∃ q, v = .ptr q ∧ FrozenKey P shm q) :
    unpersist sp shm' ser v = unpersist sp shm ser v := by
  rcases hv with hv | ⟨q, rfl, hq, s, hs⟩
  · cases v with
    | array q rc =>
      obtain ⟨hq, -, t, ht⟩ := hv
      have hht : sp.ht shm' q = sp.ht shm q := by
        rw [Space.ht, Space.ht, Space.deref_shared (hP q hq), Space.deref_shared (hP q hq), ht,
          hr hq (by simp) ht]
      simp only [unpersist, unpersistZval, hht]
    | undef | null | bool _ | long _ | double _ | string _ _ => rfl
    | object _ | resource _ | reference _ | indirect _ | ptr _ => exact hv.elim
  · have hstr : sp.zstr shm' q = sp.zstr shm q := by
      rw [Space.zstr, Space.zstr, Space.deref_shared (hP q hq), Space.deref_shared (hP q hq), hs,
        hr hq (by simp) hs]
    rw [unpersist, unpersist, hstr]

/-- The value of a bound entry is frozen. -/
theorem World.Inv.value {z : Zend} (h : w.Inv pool z es live) (hp : bound es k = some p) :
    (entryAt w.shm p).val.Frozen (Pub w.shm es) w.shm ∨
      ∃ q, (entryAt w.shm p).val = .ptr q ∧ FrozenKey (Pub w.shm es) w.shm q := by
  have hmem := (bound_eq_some h.table.keys).1 hp
  obtain ⟨e, he, -⟩ := h.table.entry _ hmem
  rw [entryAt_eq he]
  exact (h.frozen p _ (h.pub_entry hmem) he).2

/-- What is fetched of a bound entry stays the same. -/
theorem World.Inv.unpersist_bound {es' : List (Nat × Bytes)} (php : Serializer υ)
    (h : w.Inv pool sp.zend es live) (hon : sp.On pool sp.zend) (hb : bound es k = some p)
    (hle : w.Le es w' es') :
    unpersist sp w'.shm (w'.serializer.getD php) (entryAt w'.shm p).val =
      unpersist sp w.shm (w.serializer.getD php) (entryAt w.shm p).val := by
  have hval : (entryAt w'.shm p).val = (entryAt w.shm p).val := by
    rw [(hle.evolves.entryAt (h.pub_entry ((bound_eq_some h.table.keys).1 hb))).eq]
  rw [hle.serializer, hval]
  refine unpersist_congr (fun q hq => ?_) hle.evolves.retains (h.value hb)
  rw [hon.shared]
  exact h.pub_shared hq

/-- What a fetch is to give: the value of the entry that the key is bound to. -/
def World.fetched (w : World υ) (sp : Space) (php : Serializer υ) (es : List (Nat × Bytes))
    (k : Bytes) : Option (Bool × Fetched υ) :=
  (w.lookup es k).map fun p => unpersist sp w.shm (w.serializer.getD php) (entryAt w.shm p).val

/-- `immutable_cache_cache_fetch`. -/
theorem wp_cacheFetch (h : w.Inv pool sp.zend es live) (hon : sp.On pool sp.zend)
    (hk : readStr sp.zend (view sp w.shm es) key = some k) :
    Wp (cacheFetch sp php key t) w
      (fun r w' => r = w.fetched sp php es k ∧ Kept pool sp.zend es live w w')
      (Kept pool sp.zend es live w) := by
  rw [cacheFetch, wp_bind]
  refine (wp_cacheFind h hon hk).mono (fun r w₁ h₁ => ?_) fun _ => id
  obtain ⟨rfl, hinv₁, hle⟩ := h₁
  rw [World.fetched]
  cases hl : w.lookup es k with
  | none => exact ⟨rfl, hinv₁, hle⟩
  | some p =>
    have hb : bound es k = some p := by
      unfold World.lookup at hl
      split at hl
      · exact hl
      · cases hl
    have hsame := h.unpersist_bound php hon hb hle
    simp only [entryFetchZval, wp_map, wp_bind, wp_get, hsame]
    split
    · simp only [wp_bind, wp_pure]
      exact (Harmless.callback _ _ w₁).mono
        (fun _ w₂ h₂ => ⟨rfl, h₂.inv hinv₁, hle.of_same h₂⟩)
        fun w₂ h₂ => ⟨h₂.inv hinv₁, hle.of_same h₂⟩
    · exact ⟨rfl, hinv₁, hle⟩

end ImmutableCache
