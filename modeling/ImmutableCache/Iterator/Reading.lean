import ImmutableCache.Cache.Reading
import ImmutableCache.Iterator.Loop

/-!
# The loops of the iterator, step by step

`immutable_cache_iterator_fetch_active` and `immutable_cache_iterator_totals` as processes that hold
the global lock for reading while others store and look up. The chunk of a fetch is that of the
moment at which it got the lock, and the number and the size of all entries are too
(`Reading.run_fetchActive`, `Reading.run_totals`).
-/

namespace ImmutableCache

open Bail Procs

variable {ι υ : Type} {sp : Space} {z : Zend} {pool : Pool} {php : Serializer υ}
  {es : List (Nat × Bytes)} {w w' w₀ : World υ} {live : Nat → Option Nat} {recursive : Bool}
  {it it' : Iterator υ}

/-! ## What others leave alone -/

/-- An item but for what lookups change. -/
def Item.settled (item : Item υ) : Item υ :=
  { item with
    value := { item.value with
      numHits := item.value.numHits.map fun _ => 0
      accessTime := item.value.accessTime.map fun _ => 0 } }

/-- An entry matches as before. -/
theorem World.Calm.searchMatch (h : w.Calm es w') (hw : w.Shaped pool z es live)
    (hon : sp.On pool z) (it : Iterator υ) {x : Nat × Bytes} (hx : x ∈ es) :
    it.searchMatch (entryKey sp w'.shm (ImmutableCache.entryAt w'.shm x.1)) =
      it.searchMatch (entryKey sp w.shm (ImmutableCache.entryAt w.shm x.1)) := by
  have hkey {shm : Mem} (hk : HasKey z (Pub w.shm es) shm x.1 x.2) :
      entryKey sp shm (ImmutableCache.entryAt shm x.1) = x.2 := by
    obtain ⟨e, he, hpub, hstr⟩ := hk
    rw [entryAt_eq he]
    exact (hstr.zstr ((hon.shared _).trans (hw.pub_shared hpub))).2
  have hentry := hw.table.entry x hx
  rw [hkey hentry, hkey (hentry.evolves (hw.pub_entry hx) h.evolves)]

/-- The item for an entry is as before but for what lookups change. -/
theorem World.Calm.itemOf (h : w.Calm es w') (hw : w.Shaped pool z es live) (hon : sp.On pool z)
    (it : Iterator υ) {x : Nat × Bytes} (hx : x ∈ es) :
    (it.itemOf sp php w' x.1).settled = (it.itemOf sp php w x.1).settled := by
  have hz := hon.zend
  subst hz
  have hvalue :
      unpersist sp w'.shm (w'.serializer.getD php) (ImmutableCache.entryAt w'.shm x.1).val =
        unpersist sp w.shm (w.serializer.getD php) (ImmutableCache.entryAt w.shm x.1).val :=
    h.others.unpersist hw hon hx
  have hentry := h.entryAt hw hx
  rw [Iterator.itemOf, Iterator.itemOf, hvalue, hentry]
  simp only [Item.settled]
  by_cases h3 : it.format.testBit 3 = true <;> by_cases h7 : it.format.testBit 7 = true <;>
    simp [h3, h7]

/-! ## The fetch -/

/-- The loop of `immutable_cache_iterator_fetch_active`: the number of the matching entries so far,
and their items. -/
def fetchScan (sp : Space) (php : Serializer υ) (it : Iterator υ) :
    Scan υ (Nat × List (Item υ)) where
  first := it.slotIdx
  init _ := (0, [])
  visit w p b :=
    if it.searchMatch (entryKey sp w.shm (entryAt w.shm p)) then
      (b.1 + 1, b.2 ++ [it.itemOf sp php w p])
    else b
  close _ b := b
  more b := decide (b.1 ≤ it.chunkSize)

/-- The loop over one chain counts the matching entries and appends their items. -/
theorem fetchScan_chain (ps : List Nat) (b : Nat × List (Item υ)) :
    (fetchScan sp php it).chain w ps b = (b.1 + (it.select sp w ps).length,
      b.2 ++ (it.select sp w ps).map (it.itemOf sp php w)) := by
  induction ps generalizing b with
  | nil => simp [Scan.chain, Iterator.select]
  | cons p ps ih =>
    have hcons : (fetchScan sp php it).chain w (p :: ps) b =
        (fetchScan sp php it).chain w ps ((fetchScan sp php it).visit w p b) := rfl
    rw [hcons, ih, Iterator.select, Iterator.select, List.filter_cons]
    simp only [fetchScan]
    split
    · refine Prod.ext ?_ ?_
      · simp only [List.length_cons]
        omega
      · simp
    · rfl

/-- The loop over the slots collects the chunk and stops where it is full. -/
theorem fetchScan_slots (fuel s : Nat) (b : Nat × List (Item υ)) :
    let e := it.chunkEndFrom sp w fuel b.1 s
    (fetchScan sp php it).slots w fuel s b = ((b.1 + (it.between sp w s e).length,
      b.2 ++ (it.between sp w s e).map (it.itemOf sp php w)), e) := by
  induction fuel generalizing s b with
  | zero => simp [Scan.slots, Iterator.chunkEndFrom, Iterator.between_self]
  | succ fuel ih =>
    rw [Scan.slots, Iterator.chunkEndFrom]
    by_cases hgo : b.1 ≤ it.chunkSize ∧ s < w.slots.length
    · rw [if_pos hgo, if_pos ⟨decide_eq_true hgo.1, hgo.2⟩, fetchScan_chain]
      have hrest := ih (s + 1) (b.1 + (it.matching sp w s).length,
        b.2 ++ (it.matching sp w s).map (it.itemOf sp php w))
      refine hrest.trans ?_
      -- the slot `s`, and then the slots after it
      have hle := it.le_chunkEndFrom sp w fuel (b.1 + (it.matching sp w s).length) (s + 1)
      have hsplit := @Iterator.between_append _ sp w it _ _ _ (Nat.le_succ s) hle
      rw [Nat.succ_eq_add_one, Iterator.between_succ] at hsplit
      rw [← hsplit, List.length_append, List.map_append, ← Nat.add_assoc, ← List.append_assoc]
    · have hstop : ¬ ((fetchScan sp php it).more b = true ∧ s < w.slots.length) := by
        intro h
        exact hgo ⟨of_decide_eq_true h.1, h.2⟩
      rw [if_neg hgo, if_neg hstop]
      simp [Iterator.between_self]

/-- Run at one moment, the loop gives the chunk of that moment. -/
theorem fetchScan_read : (fetchScan sp php it).read w = (((it.chunk sp w).length,
    (it.chunk sp w).map (it.itemOf sp php w)), it.chunkEnd sp w) := by
  refine (fetchScan_slots (w.slots.length - it.slotIdx) it.slotIdx (0, [])).trans ?_
  simp [Iterator.chunk, Iterator.chunkEnd]

/-- Two points of the loop at which all is the same but for what lookups change. -/
def SameItems (b b' : Nat × List (Item υ)) : Prop :=
  b.1 = b'.1 ∧ b.2.map Item.settled = b'.2.map Item.settled

/-- Lookups of other processes meanwhile change no more than the statistics of the items. -/
theorem fetchScan_settled (hw : w.Shaped pool z es live) (hon : sp.On pool z) :
    (fetchScan sp php it).Settled SameItems w es where
  init _ _ := ⟨rfl, rfl⟩
  visit w' h x hx b b' hb := by
    obtain ⟨hb1, hb2⟩ := hb
    simp only [fetchScan, h.searchMatch hw hon it hx]
    split
    · refine ⟨congrArg (· + 1) hb1, ?_⟩
      simp only [List.map_append, hb2, List.map_cons, h.itemOf hw hon it hx]
    · exact ⟨hb1, hb2⟩
  close _ _ _ hb := hb
  more b b' hb := by
    simp only [fetchScan, hb.1]

/-! ## The totals -/

/-- The loop of `immutable_cache_iterator_totals`. -/
def totalsScan (sp : Space) (it : Iterator υ) : Scan υ (Iterator υ) where
  first := 0
  init _ := it
  visit w p b :=
    let e := entryAt w.shm p
    if b.searchMatch (entryKey sp w.shm e) then
      { b with size := b.size + e.memSize, hits := b.hits + e.nhits, count := b.count + 1 }
    else b
  close _ b := b
  more _ := true

/-- The loop over one chain adds the matching entries to the totals. -/
theorem totalsScan_chain (ps : List Nat) (b : Iterator υ) :
    (totalsScan sp it).chain w ps b = b.addTotals w.shm (b.select sp w ps) := by
  induction ps generalizing b with
  | nil => rfl
  | cons p ps ih =>
    have hcons : (totalsScan sp it).chain w (p :: ps) b =
        (totalsScan sp it).chain w ps ((totalsScan sp it).visit w p b) := rfl
    rw [hcons, ih, Iterator.select, Iterator.select, List.filter_cons]
    simp only [totalsScan]
    split
    · have heq : { b with
          size := b.size + (entryAt w.shm p).memSize
          hits := b.hits + (entryAt w.shm p).nhits
          count := b.count + 1 } = b.addTotals w.shm [p] := by simp [Iterator.addTotals]
      rw [heq, Iterator.addTotals_append, (b.alike_addTotals _ _).searchMatch]
      rfl
    · rfl

/-- The loop over the slots adds what is matched from slot `s` on. -/
theorem totalsScan_slots (n s : Nat) (b : Iterator υ) (hs : s + n = w.slots.length) :
    (totalsScan sp it).slots w n s b =
      (b.addTotals w.shm (b.between sp w s w.slots.length), w.slots.length) := by
  induction n generalizing s b with
  | zero =>
    obtain rfl : s = w.slots.length := hs
    rw [Scan.slots, Iterator.between_self, Iterator.addTotals_nil]
  | succ n ih =>
    have hgo : (totalsScan sp it).more b = true ∧ s < w.slots.length := ⟨rfl, by omega⟩
    rw [Scan.slots, if_pos hgo, totalsScan_chain]
    refine (ih (s + 1) (b.addTotals w.shm (b.matching sp w s)) (by omega)).trans ?_
    rw [(b.alike_addTotals _ _).between, Iterator.addTotals_append]
    have hsplit := @Iterator.between_append _ sp w b _ _ _ (Nat.le_succ s) hgo.2
    rw [Nat.succ_eq_add_one, Iterator.between_succ] at hsplit
    rw [hsplit]

/-- Run at one moment, the loop gives the totals of that moment. -/
theorem totalsScan_read : (totalsScan sp it).read w =
    (it.addTotals w.shm (it.all sp w), w.slots.length) :=
  totalsScan_slots w.slots.length 0 it (Nat.zero_add _)

/-- `immutable_cache_iterator_totals` in one step. -/
theorem wp_iteratorTotals (hg : w.Grants) : Wp (iteratorTotals sp it) w (fun it' _ =>
    it' = { it.addTotals w.shm (it.all sp w) with totalsFlag := true }) fun _ => True := by
  simp only [iteratorTotals, rlock, wp_bind]
  refine Harmless.wp_acquire.mono (fun ok w₁ h₁ => ?_) fun _ _ => trivial
  obtain ⟨h₁, rfl⟩ := h₁
  have hok : w.env.lockOk w.lockTries = true := hg
  rw [if_pos hok, wp_ensuring]
  have hslots : w₁.slots = w.slots := by rw [h₁]
  have hall : (List.range w₁.slots.length).flatMap (it.matching sp w₁) = it.all sp w := by
    rw [h₁.matching, hslots, Iterator.all, Iterator.between, Nat.sub_zero, List.range_eq_range']
  simp only [wp_bind, wp_get, wp_pure, unlock, wp_modify, Iterator.totalsSlots_eq, hall, h₁.shm]

/-- Two points of the loop of `it` at which the sizes and the numbers are the same. -/
def SameTotals (it b b' : Iterator υ) : Prop :=
  it.Alike b ∧ it.Alike b' ∧ b.size = b'.size ∧ b.count = b'.count

/-- Lookups of other processes meanwhile change no more than the hits. -/
theorem totalsScan_settled (hw : w.Shaped pool z es live) (hon : sp.On pool z) :
    (totalsScan sp it).Settled (SameTotals it) w es where
  init _ _ := ⟨.refl it, .refl it, rfl, rfl⟩
  visit w' h x hx b b' hb := by
    obtain ⟨halike, halike', hsize, hcount⟩ := hb
    have hmem : (entryAt w'.shm x.1).memSize = (entryAt w.shm x.1).memSize := by
      rw [h.entryAt hw hx]
    simp only [totalsScan, halike.searchMatch, halike'.searchMatch, h.searchMatch hw hon it hx]
    split
    · exact ⟨halike, halike', by simp only [hsize, hmem], by simp only [hcount]⟩
    · exact ⟨halike, halike', hsize, hcount⟩
  close _ _ _ hb := hb
  more _ _ _ := rfl

/-! ## Reading among stores and lookups -/

namespace Iterator

/-- The matching entries of the table are those among its entries in order. -/
theorem all_eq_select : it.all sp w = it.select sp w (w.entries.map Prod.fst) := by
  rw [all, between, select, World.entries, List.map_flatMap, List.filter_flatMap, Nat.sub_zero,
    List.range_eq_range']
  simp only [List.map_map, Function.comp_def, List.map_id']
  rfl

/-- A chunk is a part of the entries. -/
theorem chunk_sublist : List.Sublist (it.chunk sp w) (w.entries.map Prod.fst) := by
  have hall : List.Sublist (it.all sp w) (w.entries.map Prod.fst) := by
    rw [all_eq_select]
    exact List.filter_sublist
  refine List.Sublist.trans ?_ hall
  rcases Nat.le_total it.slotIdx w.slots.length with hle | hge
  · rw [all, ← between_append (Nat.zero_le _) hle,
      ← between_append (it.le_chunkEnd sp w) (it.chunkEnd_le sp w hle)]
    exact (List.sublist_append_left _ _).trans (List.sublist_append_right _ _)
  · rw [it.chunk_of_le sp w hge]
    exact List.nil_sublist _

end Iterator

namespace Reading

variable [DecidableEq ι] {procs procs' : Processes ι υ} {is : List ι} {evs : List (Option ι)}

/-- A process executes `immutable_cache_iterator_fetch_active` in the middle of an interleaving of
stores and lookups. It is never blocked, and done after two steps for each entry and each slot,
whatever the others do. The chunk is that of the moment at which it got the lock: it holds the items
of the same entries, which are in the table, each once, and with the number and the slot of the end
that the fetch would have had in one step; the items are the same but for hits and access times. -/
theorem run_fetchActive {rd : Reader (Nat × List (Item υ))} (hc : Created pool w₀)
    (h : Run (Processes.Step recursive pool z php) (.start w₀) is procs) (hfree : procs.Unlocked)
    (hon : sp.On pool z)
    (hread : Run (Step recursive pool z php (fetchScan sp php it)) ⟨procs, .start⟩ evs
      ⟨procs', rd⟩) :
    evs.countP Option.isNone ≤
      2 * (procs.world.header.nentries + procs.world.slots.length) + 2 ∧
    (∃ n e b, Run (Step recursive pool z php (fetchScan sp php it)) ⟨procs', rd⟩
      (List.replicate n none) ⟨procs', .done e b⟩) ∧
    ∀ e count items, rd = .done e (count, items) →
      (∃ ps : List Nat, ps.Nodup ∧ (∀ p ∈ ps, procs'.world.Linked p) ∧ count = ps.length ∧
        items.map Item.settled = ps.map fun p => (it.itemOf sp php procs'.world p).settled) ∧
      ∀ r w', it.stack.data.length < 2 ^ 31 → procs.world.Grants →
        fetchActive sp php it procs.world = .ok r w' → r.1 = count ∧ r.2.slotIdx = e ∧
          r.2.stack.data.map Item.settled = items.map Item.settled := by
  obtain ⟨es, live, hw, hentries, -, hinv, hsteps, hfinish, hdone⟩ :=
    run_read hc h hfree (fun hw => fetchScan_settled hw hon) hread
  refine ⟨hsteps, hfinish, fun e count items he => ?_⟩
  obtain ⟨b', hb, hread'⟩ := hdone e (count, items) he
  rw [fetchScan_read] at hread'
  cases hread'
  obtain ⟨hcount, hitems⟩ := hb
  have hperm := hentries.map Prod.fst
  have hsub : List.Sublist (it.chunk sp procs.world) (procs.world.entries.map Prod.fst) :=
    it.chunk_sublist
  have hmem {p : Nat} (hp : p ∈ it.chunk sp procs.world) : p ∈ es.map Prod.fst :=
    hperm.mem_iff.1 (hsub.subset hp)
  refine ⟨⟨it.chunk sp procs.world, ?_, fun p hp => hinv.linked.2 (hmem hp), hcount, ?_⟩,
    fun r w' hlen hg hrun => ?_⟩
  · exact (hperm.nodup_iff.2 hw.table.nodup).sublist hsub
  · rw [hitems, List.map_map]
    refine List.map_congr_left fun p hp => ?_
    obtain ⟨x, hx, rfl⟩ := List.mem_map.1 (hmem hp)
    exact (hinv.calm.itemOf hw hon it hx).symm
  · obtain ⟨-, s, hfetch⟩ := Wp.of_ok (wp_fetchActive hlen) hrun
    obtain ⟨-, hr, hit, hdata⟩ | ⟨hno, -⟩ := hfetch
    · rw [hit]
      exact ⟨hr.trans hcount.symm, rfl, by rw [hdata]; exact hitems.symm⟩
    · cases hno.symm.trans hg

/-- A process executes `immutable_cache_iterator_totals` in the middle of an interleaving of stores
and lookups. It is never blocked, and done after two steps for each entry and each slot, whatever
the others do. The number and the size that it has added are those of the matching entries of the
table, each once, and it would have added the same in one step at the moment that it got the lock.
-/
theorem run_totals {rd : Reader (Iterator υ)} (hc : Created pool w₀)
    (h : Run (Processes.Step recursive pool z php) (.start w₀) is procs) (hfree : procs.Unlocked)
    (hon : sp.On pool z)
    (hread : Run (Step recursive pool z php (totalsScan sp it)) ⟨procs, .start⟩ evs ⟨procs', rd⟩) :
    evs.countP Option.isNone ≤
      2 * (procs.world.header.nentries + procs.world.slots.length) + 2 ∧
    (∃ n e b, Run (Step recursive pool z php (totalsScan sp it)) ⟨procs', rd⟩
      (List.replicate n none) ⟨procs', .done e b⟩) ∧
    ∀ e b, rd = .done e b →
      (∃ ps : List Nat, ps.Nodup ∧
        (∀ p, p ∈ ps ↔ procs'.world.Linked p ∧ it.searchMatch
          (entryKey sp procs'.world.shm (entryAt procs'.world.shm p)) = true) ∧
        b.count = it.count + ps.length ∧
        b.size = it.size + (ps.map fun p => (entryAt procs'.world.shm p).memSize).sum) ∧
      ∀ it' w', procs.world.Grants → iteratorTotals sp it procs.world = .ok it' w' →
        it'.count = b.count ∧ it'.size = b.size := by
  obtain ⟨es, live, hw, hentries, -, hinv, hsteps, hfinish, hdone⟩ :=
    run_read hc h hfree (fun hw => totalsScan_settled hw hon) hread
  refine ⟨hsteps, hfinish, fun e b he => ?_⟩
  obtain ⟨b', ⟨-, -, hsize, hcount⟩, hread'⟩ := hdone e b he
  rw [totalsScan_read] at hread'
  cases hread'
  have hperm := hentries.map Prod.fst
  refine ⟨⟨it.all sp procs.world, ?_, fun p => ?_, hcount, hsize.trans ?_⟩,
    fun it' w' hg hrun => ?_⟩
  · rw [Iterator.all_eq_select]
    exact (hperm.nodup_iff.2 hw.table.nodup).filter _
  · rw [Iterator.all_eq_select, Iterator.select, List.mem_filter, hperm.mem_iff, hinv.linked]
    refine and_congr_right fun hp => ?_
    obtain ⟨x, hx, rfl⟩ := List.mem_map.1 hp
    rw [hinv.calm.searchMatch hw hon it hx]
  · refine congrArg (fun l => it.size + List.sum l) (List.map_congr_left fun p hp => ?_)
    rw [Iterator.all_eq_select] at hp
    obtain ⟨x, hx, rfl⟩ := List.mem_map.1 (hperm.mem_iff.1 (List.mem_of_mem_filter hp))
    rw [hinv.calm.entryAt hw hx]
  · rw [Wp.of_ok (wp_iteratorTotals hg) hrun]
    exact ⟨hcount.symm, hsize.symm⟩

/-- A fetch on the small table. After its first step another process finds the array, and counts the
hit. -/
theorem run_fetchActive_small : ∃ procs procs' : Processes Bool Bytes, ∃ evs e count items,
    Run (Step false Small.pool Small.zend Small.php (fetchScan Small.sp Small.php Small.iterator))
      ⟨procs, .start⟩ evs ⟨procs', .done e (count, items)⟩ ∧
    procs'.world.header.nhits = procs.world.header.nhits + 1 ∧
    ∃ ps : List Nat, ps.Nodup ∧ (∀ p ∈ ps, procs'.world.Linked p) ∧ count = ps.length := by
  obtain ⟨is, procs, procs', hrun, hfree, hnhits, hbegin⟩ := Small.begin_reading
  have hbegin := hbegin (fetchScan Small.sp Small.php Small.iterator)
  obtain ⟨n, e, b, hend⟩ := (run_fetchActive Small.created hrun hfree Small.on hbegin).2.1
  obtain ⟨⟨ps, hnodup, hlinked, hcount, -⟩, -⟩ :=
    (run_fetchActive Small.created hrun hfree Small.on (hbegin.append hend)).2.2 e b.1 b.2 rfl
  exact ⟨procs, procs', _, e, b.1, b.2, hbegin.append hend, hnhits, ps, hnodup, hlinked, hcount⟩

/-- The totals of the small table. After the first step another process finds the array, and counts
the hit. -/
theorem run_totals_small : ∃ procs procs' : Processes Bool Bytes, ∃ evs e b,
    Run (Step false Small.pool Small.zend Small.php (totalsScan Small.sp Small.iterator))
      ⟨procs, .start⟩ evs ⟨procs', .done e b⟩ ∧
    procs'.world.header.nhits = procs.world.header.nhits + 1 ∧
    ∃ ps : List Nat, ps.Nodup ∧ b.count = ps.length ∧
      b.size = (ps.map fun p => (entryAt procs'.world.shm p).memSize).sum := by
  obtain ⟨is, procs, procs', hrun, hfree, hnhits, hbegin⟩ := Small.begin_reading
  have hbegin := hbegin (totalsScan Small.sp Small.iterator)
  obtain ⟨n, e, b, hend⟩ := (run_totals Small.created hrun hfree Small.on hbegin).2.1
  obtain ⟨⟨ps, hnodup, -, hcount, hsize⟩, -⟩ :=
    (run_totals Small.created hrun hfree Small.on (hbegin.append hend)).2.2 e b rfl
  exact ⟨procs, procs', _, e, b, hbegin.append hend, hnhits, ps, hnodup,
    hcount.trans (Nat.zero_add _), hsize.trans (Nat.zero_add _)⟩

end Reading

end ImmutableCache
