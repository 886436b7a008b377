import ImmutableCache.Cache.History

/-!
# Statistics

The counters in the header agree with the entries of the table, and so do the reports of
`immutable_cache_cache_info` (`run_consistent`). Reports, iterators and lookups without statistics
leave them alone.
-/

namespace ImmutableCache

open Bail

variable {υ : Type} {z : Zend} {pool : Pool} {es : List (Nat × Bytes)} {w w' w₀ : World υ}
  {live : Nat → Option Nat} {php : Serializer υ} {e : Event υ} {evs : List (Event υ)}

/-- The table and its counters. -/
structure World.Consistent (w : World υ) (z : Zend) : Prop where
  /-- An entry is in the slot of the hash of its key, which the key string holds. -/
  slot : ∀ s < w.slots.length, ∀ p ∈ w.chain s, ∃ o,
    w.shm (entryAt w.shm p).key = some (.str o) ∧ o.h = z.hash o.val ∧
      z.hash o.val % w.slots.length = s
  keys : (w.entries.map Prod.snd).Nodup
  nentries : w.header.nentries = w.entries.length
  ninserts : w.header.ninserts = w.entries.length
  memSize : w.header.memSize = (w.entries.map fun x => (entryAt w.shm x.1).memSize).sum
  nhits : w.header.nhits = (w.entries.map fun x => (entryAt w.shm x.1).nhits).sum

/-- A report lists the entries of the table, each once, and its totals are those of the list. -/
structure CacheInfo.Accords (i : CacheInfo) (w : World υ) : Prop where
  list : ∃ links, i.cacheList = some links ∧
    links = w.entries.map (fun x => (entryAt w.shm x.1).linkInfo) ∧
    links.length = i.numEntries ∧ (links.map LinkInfo.memSize).sum = i.memSize
  slots : ∃ dist, i.slotDistribution = some dist ∧ (∀ x ∈ dist, 0 < x.2) ∧
    (dist.map Prod.snd).sum = i.numEntries

/-! ## The entries as a list -/

namespace World.Inv

variable (h : w.Inv pool z es live)

include h

/-- An entry is listed once. -/
theorem nodup_entries : w.entries.Nodup := by
  refine List.nodup_flatMap.2 ⟨fun s hs => ?_, ?_⟩
  · rw [h.chain_eq (List.mem_range.1 hs)]
    exact (h.table.nodup_chainOf s).map fun p q hpq => (Prod.mk.inj hpq).1
  · refine List.nodup_range.imp_of_mem fun {s t} hs ht hne x hxs hxt => ?_
    -- an entry in two chains would have a hash in two slots
    have hchain {s : Nat} (hs : s ∈ List.range w.slots.length)
        (hx : x ∈ (w.chain s).map fun p => (p, keyBytes w.shm p)) :
        ∃ k, (x.1, k) ∈ es ∧ z.hash k % w.slots.length = s := by
      obtain ⟨p, hp, rfl⟩ := List.mem_map.1 hx
      rw [h.chain_eq (List.mem_range.1 hs)] at hp
      exact Table.mem_chainOf.1 hp
    obtain ⟨k, hk, rfl⟩ := hchain hs hxs
    obtain ⟨k', hk', rfl⟩ := hchain ht hxt
    have hkk := List.inj_on_of_nodup_map h.table.nodup hk hk' rfl
    exact hne (by rw [(Prod.mk.inj hkk).2])

/-- The entries that are read off the memory are those of the table in another order. -/
theorem perm_entries : w.entries.Perm es :=
  (List.perm_ext_iff_of_nodup h.nodup_entries h.table.keys.of_map).2 h.mem_entries

/-- The invariant, read off the table. -/
theorem consistent : w.Consistent z where
  slot s hs p hp := by
    rw [h.chain_eq hs, Table.mem_chainOf] at hp
    obtain ⟨k, hk, hhash⟩ := hp
    obtain ⟨a, ha, -, o, ho, -, hh, rfl⟩ := h.table.entry _ hk
    rw [entryAt_eq ha]
    exact ⟨o, ho, hh, hhash⟩
  keys := (h.perm_entries.map _).nodup_iff.2 h.table.keys
  nentries := h.nentries.trans h.perm_entries.length_eq.symm
  ninserts := h.ninserts.trans h.perm_entries.length_eq.symm
  memSize := h.memSize.trans (h.perm_entries.map _).sum_eq.symm
  nhits := h.nhits.trans (h.perm_entries.map _).sum_eq.symm

end World.Inv

/-! ## The report -/

/-- The report on a chain describes its entries in order. -/
theorem wp_linkInfos (fuel : Nat) (head : Option Nat) :
    Wp (linkInfos fuel head) w (fun r w' => w.Same w' ∧
      r = (walk w.shm fuel head).map fun p => (entryAt w.shm p).linkInfo) w.Same := by
  induction fuel generalizing head w with
  | zero => cases head <;> exact ⟨.refl w, rfl⟩
  | succ fuel ih =>
    cases head with
    | none => exact ⟨.refl w, rfl⟩
    | some p =>
      simp only [linkInfos, wp_bind, wp_get]
      refine (Harmless.emallocN 7 w).mono (fun _ w₁ h₁ => ?_) fun _ => id
      refine (ih (entryAt w.shm p).next).mono (fun r w₂ h₂ => ?_) fun _ h₂ => h₁.trans h₂
      obtain ⟨hs, rfl⟩ := h₂
      refine ⟨h₁.trans hs, ?_⟩
      rw [h₁.shm]
      rfl

/-- The chains that are not empty, with their lengths. -/
def World.slotLengths (w : World υ) (is : List Nat) : List (Nat × Nat) :=
  (is.map fun s => (s, (w.chain s).length)).filter fun x => x.2 ≠ 0

/-- Locks and request memory do not change the chains. -/
theorem World.Same.chain (h : w.Same w') : w'.chain = w.chain := by
  rw [h]
  rfl

/-- The report on the slots, slot by slot. -/
theorem wp_slotInfos (is : List Nat) :
    Wp (slotInfos is) w (fun r w' => w.Same w' ∧
      r.1 = is.flatMap (fun s => (w.chain s).map fun p => (entryAt w.shm p).linkInfo) ∧
      r.2 = w.slotLengths is) w.Same := by
  induction is generalizing w with
  | nil => exact ⟨.refl w, rfl, rfl⟩
  | cons i is ih =>
    simp only [slotInfos, wp_bind, wp_get]
    refine (wp_linkInfos _ _).mono (fun links w₁ h₁ => ?_) fun _ => id
    obtain ⟨h₁, hlinks⟩ := h₁
    have hrest {w₂ : World υ} (h₂ : w.Same w₂) : Wp (slotInfos is) w₂ (fun r w' =>
        w.Same w' ∧ links ++ r.1 = (i :: is).flatMap (fun s =>
            (w.chain s).map fun p => (entryAt w.shm p).linkInfo) ∧
          (if links.length ≠ 0 then (i, links.length) :: r.2 else r.2) =
            w.slotLengths (i :: is)) w.Same := by
      refine (ih (w := w₂)).mono (fun r w' h' => ?_) fun _ h' => h₂.trans h'
      obtain ⟨h', hr1, hr2⟩ := h'
      have hlen : links.length = (w.chain i).length := by rw [hlinks, List.length_map]; rfl
      have hlengths : w₂.slotLengths is = w.slotLengths is := by
        rw [World.slotLengths, World.slotLengths, h₂.chain]
      refine ⟨h₂.trans h', ?_, ?_⟩
      · rw [hr1, h₂.chain, h₂.shm, List.flatMap_cons, hlinks]
        rfl
      · rw [hr2, hlen, hlengths]
        by_cases hz : (w.chain i).length = 0 <;> simp [World.slotLengths, hz]
    split
    next hl =>
      simp only [if_pos hl] at hrest
      simp only [wp_bind, wp_pure]
      exact (Harmless.emalloc w₁).mono (fun _ w₂ h₂ => hrest (h₁.trans h₂)) fun _ h₂ => h₁.trans h₂
    next hl =>
      simp only [if_neg hl] at hrest
      simp only [wp_bind, wp_pure]
      exact hrest h₁

/-- An unlimited report of `immutable_cache_cache_info`. -/
theorem wp_cacheInfo (h : w.Inv pool z es live) :
    Wp (cacheInfo false) w (fun r _ => ∀ i, r = some i → i.Accords w) fun _ => True := by
  simp only [cacheInfo, rlock, wp_bind, wp_ite]
  refine (Harmless.wp_acquire (w := w)).mono (fun ok w₁ h₁ => ?_) fun _ _ => trivial
  obtain ⟨h₁, -⟩ := h₁
  split
  · simp only [wp_ensuring, wp_map, unlock, wp_modify, cacheInfoLocked, wp_bind, wp_get,
      Bool.false_eq_true, if_false, wp_pure]
    refine (Harmless.emallocN 9 w₁).mono (fun _ w₂ h₂ => ?_) fun _ _ => trivial
    refine (Harmless.emallocN 2 w₂).mono (fun _ w₃ h₃ => ?_) fun _ _ => trivial
    have h₂ := h₁.trans h₂
    have h₃ := h₂.trans h₃
    refine (wp_slotInfos (w := w₃) _).mono (fun r w₄ h₄ => ?_) fun _ _ => trivial
    obtain ⟨h₄, hr1, hr2⟩ := h₄
    refine (Harmless.emallocN 2 w₄).mono (fun _ w₅ h₅ => ?_) fun _ _ => trivial
    rintro i ⟨⟩
    have hc := h.consistent
    have hheader : w₂.header = w.header := by rw [h₂]
    have hslots : w₂.slots = w.slots := by rw [h₂]
    have hlinks : r.1 = w.entries.map fun x => (entryAt w.shm x.1).linkInfo := by
      rw [hr1, h₃.chain, h₃.shm, hslots, World.entries, List.map_flatMap]
      simp [Function.comp_def]
    refine ⟨⟨r.1, rfl, hlinks, ?_, ?_⟩, r.2, rfl, fun x hx => ?_, ?_⟩
    · rw [hlinks, List.length_map, hheader, hc.nentries]
    · rw [hlinks, List.map_map, hheader, hc.memSize]
      rfl
    · rw [hr2] at hx
      exact Nat.pos_of_ne_zero (by simpa using (List.mem_filter.1 hx).2)
    · have hsum : ∀ l : List (Nat × Nat),
          ((l.filter fun x => x.2 ≠ 0).map Prod.snd).sum = (l.map Prod.snd).sum := by
        intro l
        induction l with
        | nil => rfl
        | cons x l ih => by_cases hx : x.2 = 0 <;> simp [hx, ← ih]
      rw [hr2, World.slotLengths, hsum, h₃.chain, hslots, hheader, hc.nentries, World.entries,
        List.length_flatMap, List.map_map]
      simp [Function.comp_def]
  · rintro i ⟨⟩

/-! ## Every run -/

/-- In every run: the table is consistent with its counters, and with every report that an unlimited
`immutable_cache_cache_info` gives in this state. Reports, iterators and lookups without statistics
have not changed the table or a counter. -/
theorem run_consistent (hc : Created pool w₀) (h : Run (Step pool z php) w₀ evs w) :
    w.Consistent z ∧
      (∀ i w', cacheInfo false w = .ok (some i) w' → i.Accords w) ∧
      ∀ e w', Step pool z php w e w' → e.req.Quiet →
        w'.header = w.header ∧ w'.slots = w.slots ∧ w'.shm = w.shm := by
  obtain ⟨es, live, hinv⟩ := run_inv hc h
  refine ⟨hinv.consistent, fun i w' hi => ?_, fun e w' hstep hquiet => ?_⟩
  · have hwp := wp_cacheInfo hinv
    unfold Wp at hwp
    rw [hi] at hwp
    exact hwp i rfl
  · have hsame : w.Same w' := hstep.wp (Q := fun _ w' => w.Same w') (hquiet.harmless w)
    rw [hsame]
    exact ⟨rfl, rfl, rfl⟩

/-- The small run leaves one entry, and the counters agree with it. -/
theorem run_consistent_small : ∃ evs w, evs.length = 3 ∧
    Run (Step Small.pool Small.zend Small.php) (Small.start (Small.env none)) evs w ∧
      (∃ x ∈ w.entries, (entryAt w.shm x.1).val.isArray = true) ∧ w.Consistent Small.zend :=
  ⟨_, _, Small.events_length, Small.run, Small.used_entry, (run_consistent Small.created Small.run).1⟩

end ImmutableCache
