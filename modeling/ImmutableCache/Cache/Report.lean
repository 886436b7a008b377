import ImmutableCache.Cache.History
import ImmutableCache.Sma.Avail
import ImmutableCache.Sma.Run

/-!
# The report on the shared memory

`immutable_cache_sma_info` follows the free list of each segment. What it reports is exact: its
links are the free blocks (`Heap.mem_smaInfoLinks`), so they lie apart from each other and from the
entries, they add up to the available memory, and the largest of them decides which allocations
succeed (`run_smaInfo`).
-/

namespace ImmutableCache

open Bail Segment

/-! ## One segment -/

section

variable {s : Segment} {cs : List Chunk} {order : List Nat}

/-- The sizes of the free blocks add up to the free bytes. -/
theorem sum_map_freeOffs {size : Nat → Nat} (h : ∀ c ∈ cs, size c.off = c.size) :
    ((freeOffs cs).map size).sum = freeBytes cs := by
  induction cs with
  | nil => rfl
  | cons c cs ih =>
    have hrest := ih fun d hd => h d (List.mem_cons_of_mem c hd)
    cases hf : c.free with
    | true =>
      rw [freeOffs_cons_free hf, List.map_cons, List.sum_cons, hrest, freeBytes_cons,
        Chunk.tag_free hf, h c List.mem_cons_self]
    | false =>
      rw [freeOffs_cons_live hf, hrest, freeBytes_cons, Chunk.tag_live hf, Nat.zero_add]

namespace Heap

/-- The links are the free blocks. -/
theorem mem_smaInfoLinks (h : Heap s cs order) {size offset : Nat} :
    (size, offset) ∈ smaInfoLinks s s.segsize first ↔
      ⟨offset, size, true⟩ ∈ cs := by
  obtain ⟨qs, hw, -⟩ := h.walk
  rw [h.smaInfoLinks_eq, List.mem_map]
  constructor
  · rintro ⟨o, ho, heq⟩
    obtain ⟨c, hc, hf, rfl⟩ := h.mem_order.1 ho
    obtain ⟨rfl, rfl⟩ := Prod.mk.inj heq
    rw [(hw.mem hc).2.2.1]
    obtain ⟨off, size, free⟩ := c
    obtain rfl : free = true := hf
    exact hc
  · intro hc
    refine ⟨offset, h.mem_order.2 ⟨_, hc, rfl, rfl⟩, ?_⟩
    rw [(hw.mem hc).2.2.1]

/-- The links lie between the sentinels. -/
theorem smaInfoLinks_bounds (h : Heap s cs order) {size offset : Nat}
    (hl : (size, offset) ∈ smaInfoLinks s s.segsize first) :
    start ≤ offset ∧ offset + size + 2 * blockSize ≤ s.segsize := by
  obtain ⟨qs, hw, -⟩ := h.walk
  obtain ⟨hge, hle, -⟩ := hw.mem (h.mem_smaInfoLinks.1 hl)
  have hlast := h.last_eq
  exact ⟨hge, by dsimp only at hle; omega⟩

/-- Different links do not overlap. -/
theorem smaInfoLinks_apart (h : Heap s cs order) {size offset size' offset' : Nat}
    (hl : (size, offset) ∈ smaInfoLinks s s.segsize first)
    (hl' : (size', offset') ∈ smaInfoLinks s s.segsize first) (hne : offset' ≠ offset) :
    offset + size ≤ offset' ∨ offset' + size' ≤ offset := by
  obtain ⟨qs, hw, -⟩ := h.walk
  refine hw.disjoint (h.mem_smaInfoLinks.1 hl) (h.mem_smaInfoLinks.1 hl') fun heq => hne ?_
  exact (congrArg Chunk.off heq).symm

/-- No block is reported twice. -/
theorem nodup_smaInfoLinks (h : Heap s cs order) :
    ((smaInfoLinks s s.segsize first).map Prod.snd).Nodup := by
  have hnodup : order.Nodup := by
    obtain ⟨qs, hw, -⟩ := h.walk
    exact h.perm.nodup_iff.2 hw.nodup_freeOffs
  rw [h.smaInfoLinks_eq, List.map_map]
  exact (List.map_id order).symm ▸ hnodup

/-- The free blocks and one header are what is available. -/
theorem sum_smaInfoLinks (h : Heap s cs order) :
    ((smaInfoLinks s s.segsize first).map Prod.fst).sum + blockSize = s.avail := by
  obtain ⟨qs, hw, -⟩ := h.walk
  have hfree : ((freeOffs cs).map s.size).sum = freeBytes cs :=
    sum_map_freeOffs fun c hc => (hw.mem hc).2.2.1
  have hsum : ((smaInfoLinks s s.segsize first).map Prod.fst).sum =
      (order.map s.size).sum := by
    rw [h.smaInfoLinks_eq, List.map_map]
    rfl
  rw [h.avail, hsum, (h.perm.map s.size).sum_eq, hfree]

/-- An allocation fails exactly if all the links are too small. -/
theorem smaAllocate_none_iff_links (h : Heap s cs order) {n : Nat}
    (hn : n + blockSize + 8 ≤ 2 ^ 64) : (smaAllocate s n minBlockSize).1 = none ↔
      ∀ l ∈ smaInfoLinks s s.segsize first, l.1 < alignword (n + blockSize) := by
  have hL := layout
  obtain ⟨hr, hge⟩ := realsize_eq hn
  have hpos : 0 < realsize n := by omega
  rw [h.smaAllocate_none_iff hpos, hr]
  constructor
  · rintro hall ⟨size, offset⟩ hl
    exact hall _ (h.mem_smaInfoLinks.1 hl) rfl
  · rintro hall ⟨off, size, free⟩ hc hf
    obtain rfl : free = true := hf
    exact hall _ (h.mem_smaInfoLinks.2 hc)

end Heap

end

/-! ## All segments -/

variable {υ : Type} {pool : Pool} {z : Zend} {php : Serializer υ} {sma : Sma}
  {cs : Nat → List Chunk} {live : Nat → Option Nat} {es : List (Nat × Bytes)} {w w' w₀ : World υ}
  {evs : List (Event υ)} {info : SmaInfo} {i n p sz : Nat} {c : Chunk}

/-- The report on the segments. -/
def Pool.links (pool : Pool) (sma : Sma) : List (List (Nat × Nat)) :=
  (List.range pool.num).map fun i => smaInfoLinks (sma.segs i) (sma.segs i).segsize first

/-- What is reported on one of them. -/
theorem Pool.links_eq_some {links : List (Nat × Nat)} (h : (pool.links sma)[i]? = some links) :
    i < pool.num ∧ smaInfoLinks (sma.segs i) (sma.segs i).segsize first = links := by
  rw [Pool.links, List.getElem?_map, Option.map_eq_some_iff] at h
  obtain ⟨j, hj, hlinks⟩ := h
  obtain ⟨hlt, rfl⟩ := List.getElem?_eq_some_iff.1 hj
  rw [List.getElem_range] at hlinks
  exact ⟨by simpa using hlt, hlinks⟩

namespace Pool.Holds

variable (h : pool.Holds sma cs live)

include h

/-- A free block does not overlap a live one. -/
theorem free_apart (hi : i < pool.num) (hc : c ∈ cs i) (hf : c.free = true)
    (hp : live p = some sz) :
    pool.shmaddr i + (c.off + c.size) ≤ p ∨ p + sz ≤ pool.shmaddr i + c.off := by
  obtain ⟨j, hj, d, hd, hpay⟩ := (h.live_iff p sz).1 hp
  have hb := h.payload_bounds hj hd hpay
  obtain ⟨hlive, rfl, rfl⟩ := hpay
  obtain ⟨order, hh⟩ := h.heap i hi
  obtain ⟨qs, hw, -⟩ := hh.walk
  obtain ⟨h1, h2, -⟩ := hw.mem hc
  have hL := layout
  by_cases hij : i = j
  · subst hij
    have hne : c ≠ d := by
      rintro rfl
      rw [hf] at hlive
      cases hlive
    have hapart := hw.disjoint hc hd hne
    have hsize := (hw.mem hd).2.2.2.1
    omega
  · have hapart := pool.apart hi hj hij
    have hseg := h.segsize i hi
    have hlast := hh.last_eq
    omega

/-- With one header for each segment, the links add up to what is available. -/
theorem sum_links :
    ((pool.links sma).map fun links => (links.map Prod.fst).sum + blockSize).sum =
      pool.getAvailMem sma := by
  rw [h.getAvailMem_eq, links, List.map_map]
  refine congrArg List.sum (List.map_congr_left fun i hi => ?_)
  obtain ⟨order, hh⟩ := h.heap i (List.mem_range.1 hi)
  exact hh.sum_smaInfoLinks

/-- An allocation fails exactly if the links of all segments are too small. -/
theorem mallocEx_none_iff (hn : n + blockSize + 8 ≤ 2 ^ 64) :
    (pool.mallocEx (fun _ => true) sma n).1 = none ↔
      ∀ links ∈ pool.links sma, ∀ l ∈ links, l.1 < alignword (n + blockSize) := by
  have hall : (∀ links ∈ pool.links sma, ∀ l ∈ links, l.1 < alignword (n + blockSize)) ↔
      ∀ i < pool.num, (smaAllocate (sma.segs i) n minBlockSize).1 = none := by
    simp only [links, List.forall_mem_map, List.mem_range]
    refine forall₂_congr fun i hi => ?_
    obtain ⟨order, hh⟩ := h.heap i hi
    exact (hh.smaAllocate_none_iff_links hn).symm
  rw [hall]
  obtain ⟨hnone, htried⟩ | ⟨i, hi, off, sz, hsome, heq⟩ := pool.mallocEx_eq (fun _ => true) sma n
  · rw [hnone]
    exact ⟨fun _ i hi => htried i (Pool.mem_tried hi), fun _ => rfl⟩
  · rw [heq]
    refine ⟨nofun, fun hno => ?_⟩
    rw [hno i (Pool.tried_lt h.last_lt hi)] at hsome
    cases hsome

/-- The payloads of different blocks, with their headers, fit into what is not available. -/
theorem sum_le {ps : List Nat} (hnodup : ps.Nodup) (hlive : ∀ p ∈ ps, live p ≠ none) :
    (ps.map fun p => (live p).getD 0 + blockSize).sum + pool.getAvailMem sma ≤
      pool.num * (pool.size - start - blockSize) := by
  have hsub : ps.Subperm (pool.payloads cs) := hnodup.subperm fun p hp =>
    h.mem_payloads_iff.2 (hlive p hp)
  obtain ⟨qs, hperm, hqs⟩ := hsub
  have hsum := (hqs.map fun p => (live p).getD 0 + blockSize).sum_le_sum fun _ _ => Nat.zero_le _
  rw [(hperm.map _).sum_eq] at hsum
  have htotal := h.getAvailMem_add
  omega

end Pool.Holds

/-- With a header each, the entries fit into what is not available. -/
theorem World.Inv.memSize_add_le (hinv : w.Inv pool z es live) :
    w.header.memSize + w.header.nentries * blockSize + pool.getAvailMem w.sma ≤
      pool.num * (pool.size - (smaHeaderSize + blockSize + blockSize)) := by
  obtain ⟨cs, hholds⟩ := hinv.sma
  have hfit := hholds.sum_le hinv.table.nodup fun p hp hnone => by
    obtain ⟨x, hx, rfl⟩ := List.mem_map.1 hp
    obtain ⟨sz, hsz, -⟩ := hinv.block x hx
    cases hnone.symm.trans hsz
  have hle : (es.map fun x => (entryAt w.shm x.1).memSize + blockSize).sum ≤
      ((es.map Prod.fst).map fun p => (live p).getD 0 + blockSize).sum := by
    rw [List.map_map]
    refine List.sum_le_sum fun x hx => ?_
    obtain ⟨sz, hsz, hmem⟩ := hinv.block x hx
    rw [Function.comp_apply, hsz, Option.getD_some]
    omega
  have hsum : (es.map fun x => (entryAt w.shm x.1).memSize + blockSize).sum =
      w.header.memSize + w.header.nentries * blockSize := by
    rw [List.sum_map_add, List.map_const', List.sum_replicate, smul_eq_mul, hinv.memSize,
      hinv.nentries]
  have hroom : pool.size - start - blockSize =
      pool.size - (smaHeaderSize + blockSize + blockSize) := by
    have hL := layout
    omega
  rw [hroom] at hfit
  omega

/-! ## The operation -/

/-- The report on one segment follows its free list. -/
theorem wp_smaInfoSegment_links (i : Nat) : Wp (smaInfoSegment i) w
    (fun links w' => links = smaInfoLinks (w.sma.segs i) (w.sma.segs i).segsize first ∧ w.Same w')
    fun _ => True := by
  rw [smaInfoSegment, wp_bind]
  refine (Harmless.wlock .global w).mono (fun _ w₁ h₁ => ?_) fun _ _ => trivial
  simp only [wp_bind, wp_get]
  refine (Harmless.emallocN _ w₁).mono (fun _ w₂ h₂ => ?_) fun _ _ => trivial
  refine (Harmless.unlock .global w₂).mono (fun _ w₃ h₃ => ?_) fun _ _ => trivial
  rw [wp_pure, h₁.sma]
  exact ⟨rfl, h₁.trans (h₂.trans h₃)⟩

/-- The report on several segments, one after the other. -/
theorem wp_smaInfoSegments_links (is : List Nat) : Wp (smaInfoSegments is) w
    (fun list w' => list = is.map (fun i =>
      smaInfoLinks (w.sma.segs i) (w.sma.segs i).segsize first) ∧ w.Same w') fun _ => True := by
  induction is generalizing w with
  | nil => exact ⟨rfl, .refl w⟩
  | cons i is ih =>
    simp only [smaInfoSegments, wp_bind, wp_pure]
    refine (wp_smaInfoSegment_links i).mono (fun links w₁ h₁ => ?_) fun _ _ => trivial
    obtain ⟨rfl, h₁⟩ := h₁
    refine ih.mono (fun list w₂ h₂ => ?_) fun _ h => h
    obtain ⟨rfl, h₂⟩ := h₂
    rw [h₁.sma]
    exact ⟨rfl, h₁.trans h₂⟩

/-- `immutable_cache_sma_info` reports the links, whether or not it has got the locks. -/
theorem wp_smaInfo_links : Wp (smaInfo pool false) w (fun info w' =>
    info = ⟨pool.num, pool.size - (smaHeaderSize + blockSize + blockSize), pool.links w.sma⟩ ∧
      w.Same w') fun _ => True := by
  simp only [smaInfo, wp_bind]
  refine (Harmless.emallocN 2 w).mono (fun _ w₁ h₁ => ?_) fun _ _ => trivial
  simp only [Bool.false_eq_true, if_false, wp_bind, wp_pure]
  refine (wp_smaInfoSegments_links _).mono (fun list w₂ h₂ => ?_) fun _ h => h
  obtain ⟨rfl, h₂⟩ := h₂
  rw [h₁.sma]
  exact ⟨rfl, h₁.trans h₂⟩

/-- In every state of a run, `immutable_cache_sma_info` reports exactly the free blocks of the
segments, whose live blocks hold the entries: in each segment they lie between the sentinels, apart
from each other and from all entries; with one header for each segment they add up to what
`immutable_cache_sma_get_avail_mem` tells; what is not available of the segments has room for all
entries; and with all locks acquired an allocation of `n` bytes fails exactly if each of them is too
small, if `n` with the header and the alignment does not wrap around. -/
theorem run_smaInfo (hc : Created pool w₀) (h : Run (Step pool z php) w₀ evs w)
    (hinfo : smaInfo pool false w = .ok info w') :
    info.numSeg = pool.num ∧ info.list.length = pool.num ∧
    (∃ cs live, pool.Holds w.sma cs live ∧ (∀ x ∈ w.entries, live x.1 ≠ none) ∧
      ∀ i links, info.list[i]? = some links →
        ∀ size offset, (size, offset) ∈ links ↔ ⟨offset, size, true⟩ ∈ cs i) ∧
    (∀ i links, info.list[i]? = some links → (links.map Prod.snd).Nodup ∧
      ∀ size offset, (size, offset) ∈ links →
        start ≤ offset ∧ offset + size + 2 * blockSize ≤ pool.size ∧
        (∀ size' offset', (size', offset') ∈ links → offset' ≠ offset →
          offset + size ≤ offset' ∨ offset' + size' ≤ offset) ∧
        ∀ x ∈ w.entries, pool.shmaddr i + (offset + size) ≤ x.1 ∨
          x.1 + (entryAt w.shm x.1).memSize ≤ pool.shmaddr i + offset) ∧
    (info.list.map fun links => (links.map Prod.fst).sum + blockSize).sum =
      pool.getAvailMem w.sma ∧
    w.header.memSize + w.header.nentries * blockSize + pool.getAvailMem w.sma ≤
      info.numSeg * info.segSize ∧
    ∀ n, n + blockSize + 8 ≤ 2 ^ 64 → ((pool.mallocEx (fun _ => true) w.sma n).1 = none ↔
      ∀ links ∈ info.list, ∀ l ∈ links, l.1 < alignword (n + blockSize)) := by
  obtain ⟨es, live, hinv⟩ := run_inv hc h
  obtain ⟨rfl, -⟩ := Wp.of_ok wp_smaInfo_links hinfo
  obtain ⟨cs, hholds⟩ := hinv.sma
  refine ⟨rfl, by simp [Pool.links], ⟨cs, live, hholds, fun x hx hno => ?_,
    fun i links hi size offset => ?_⟩, fun i links hi => ?_, hholds.sum_links, ?_,
    fun n hn => hholds.mallocEx_none_iff hn⟩
  · obtain ⟨sz, hsz, -⟩ := hinv.block x ((hinv.mem_entries x).1 hx)
    cases hno.symm.trans hsz
  · obtain ⟨hlt, rfl⟩ := Pool.links_eq_some hi
    obtain ⟨order, hh⟩ := hholds.heap i hlt
    exact hh.mem_smaInfoLinks
  · obtain ⟨hlt, rfl⟩ := Pool.links_eq_some hi
    obtain ⟨order, hh⟩ := hholds.heap i hlt
    refine ⟨hh.nodup_smaInfoLinks, fun size offset hl => ?_⟩
    obtain ⟨hge, hle⟩ := hh.smaInfoLinks_bounds hl
    rw [hholds.segsize i hlt] at hle
    refine ⟨hge, hle, fun size' offset' hl' hne => hh.smaInfoLinks_apart hl hl' hne,
      fun x hx => ?_⟩
    obtain ⟨sz, hsz, hmem⟩ := hinv.block x ((hinv.mem_entries x).1 hx)
    have hapart := hholds.free_apart hlt (hh.mem_smaInfoLinks.1 hl) rfl hsz
    dsimp only at hapart
    omega
  · exact hinv.memSize_add_le

/-- After the small run the one segment has a free block, which lies apart from the entry. -/
theorem run_smaInfo_small : ∃ info w',
    smaInfo Small.pool false Small.used = .ok info w' ∧
    info.numSeg = 1 ∧ Small.used.entries ≠ [] ∧
    (∃ links size offset, info.list[0]? = some links ∧ (size, offset) ∈ links ∧
      ∀ x ∈ Small.used.entries, Small.pool.shmaddr 0 + (offset + size) ≤ x.1 ∨
        x.1 + (entryAt Small.used.shm x.1).memSize ≤ Small.pool.shmaddr 0 + offset) ∧
    (info.list.map fun links => (links.map Prod.fst).sum + blockSize).sum =
      Small.pool.getAvailMem Small.used.sma := by
  have hgives : Small.gives (smaInfo Small.pool false) Small.used
      (fun info => info.list.any fun links => !links.isEmpty) = true := by decide +kernel
  obtain ⟨info, w', hinfo, hany⟩ := Small.of_gives hgives
  obtain ⟨hnum, hlen, -, hlinks, hsum, -⟩ := run_smaInfo Small.created Small.run hinfo
  obtain ⟨x, hx, -⟩ := Small.used_entry
  obtain ⟨links, hmem, hne⟩ := List.any_eq_true.1 hany
  obtain ⟨i, hi⟩ := List.mem_iff_getElem?.1 hmem
  have hzero : i < 1 := lt_of_lt_of_eq (List.getElem?_eq_some_iff.1 hi).1 hlen
  obtain rfl : i = 0 := Nat.lt_one_iff.1 hzero
  cases hl : links with
  | nil =>
    rw [hl] at hne
    cases hne
  | cons l _ =>
    have hin : (l.1, l.2) ∈ links := hl ▸ List.mem_cons_self
    refine ⟨info, w', hinfo, hnum, List.ne_nil_of_mem hx, ⟨links, l.1, l.2, hi, hin, ?_⟩, hsum⟩
    exact ((hlinks 0 links hi).2 _ _ hin).2.2.2

end ImmutableCache
