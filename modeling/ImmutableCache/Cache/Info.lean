import ImmutableCache.Cache.Memory
import ImmutableCache.Cache.Ops

/-!
# Reports

`immutable_cache_cache_info` lists the entries of the table under the global lock, slot by slot,
and `immutable_cache_sma_info` lists the free blocks of each segment. Both build their result in
the request heap, while they hold the lock.
-/

namespace ImmutableCache

open Bail Segment

variable {υ : Type}

/-- What `immutable_cache_cache_link_info` tells about an entry. -/
structure LinkInfo where
  info : Nat
  numHits : Nat
  creationTime : Nat
  accessTime : Nat
  memSize : Nat
  deriving DecidableEq, Repr

/-- What `immutable_cache_cache_info` tells about the cache; the lists are left out of a limited
report. -/
structure CacheInfo where
  numSlots : Nat
  numHits : Nat
  numMisses : Nat
  numInserts : Nat
  numEntries : Nat
  startTime : Nat
  memSize : Nat
  cacheList : Option (List LinkInfo)
  slotDistribution : Option (List (Nat × Nat))
  deriving DecidableEq, Repr

/-- The fields of an entry that `immutable_cache_cache_link_info` reads. -/
def Entry.linkInfo (e : Entry) : LinkInfo := ⟨e.key, e.nhits, e.ctime, e.atime, e.memSize⟩

/-- The inner loop of `immutable_cache_cache_info`, along the chain of a slot. For each entry an
array with five elements is allocated, and appended to the list. -/
def linkInfos : Nat → Option Nat → Op υ (List LinkInfo)
  | _, none => pure []
  | 0, some _ => pure []
  | fuel + 1, some p => do
    let e := entryAt (← get).shm p
    emallocN 7
    let links ← linkInfos fuel e.next
    pure (e.linkInfo :: links)

/-- The outer loop, over the slots: the list, and the lengths of the chains that are not empty. -/
def slotInfos : List Nat → Op υ (List LinkInfo × List (Nat × Nat))
  | [] => pure ([], [])
  | i :: is => do
    let w ← get
    let links ← linkInfos w.header.nentries (w.slots.getD i none)
    if links.length ≠ 0 then emalloc else pure ()
    let r ← slotInfos is
    pure (links ++ r.1, if links.length ≠ 0 then (i, links.length) :: r.2 else r.2)

/-- The part of `immutable_cache_cache_info` under the lock. The result is an array with eight
elements, and two more if the report is not limited. -/
def cacheInfoLocked (limited : Bool) : Op υ CacheInfo := do
  emallocN 9
  let w ← get
  let info : CacheInfo := {
    numSlots := w.slots.length, numHits := w.header.nhits, numMisses := w.header.nmisses
    numInserts := w.header.ninserts, numEntries := w.header.nentries
    startTime := w.header.stime, memSize := w.header.memSize
    cacheList := none, slotDistribution := none }
  if limited then pure info
  else
    emallocN 2
    let r ← slotInfos (List.range w.slots.length)
    emallocN 2
    pure { info with cacheList := some r.1, slotDistribution := some r.2 }

/-- `immutable_cache_cache_info`. -/
def cacheInfo (limited : Bool) : Op υ (Option CacheInfo) := do
  if ← rlock .global then
    ensuring (some <$> cacheInfoLocked limited) (unlock .global)
  else pure none

/-- The part of `immutable_cache_sma_info` for one segment: the free blocks, each with its size and
offset. The outcome of `SMA_LOCK` is not looked at, and a link is allocated for each block. -/
def smaInfoSegment (i : Nat) : Op υ (List (Nat × Nat)) := do
  let _ ← wlock .global
  let seg := (← get).sma.segs i
  let links := smaInfoLinks seg seg.segsize first
  emallocN links.length
  unlock .global
  pure links

/-- The loop of `immutable_cache_sma_info` over the segments. -/
def smaInfoSegments : List Nat → Op υ (List (List (Nat × Nat)))
  | [] => pure []
  | i :: is => do
    let links ← smaInfoSegment i
    let rest ← smaInfoSegments is
    pure (links :: rest)

/-- What `immutable_cache_sma_info` tells about the shared memory. -/
structure SmaInfo where
  numSeg : Nat
  segSize : Nat
  list : List (List (Nat × Nat))
  deriving DecidableEq, Repr

/-- `immutable_cache_sma_info`. -/
def smaInfo (pool : Pool) (limited : Bool) : Op υ SmaInfo := do
  emallocN 2
  let segSize := pool.size - (smaHeaderSize + blockSize + blockSize)
  if limited then pure ⟨pool.num, segSize, List.replicate pool.num []⟩
  else
    let list ← smaInfoSegments (List.range pool.num)
    pure ⟨pool.num, segSize, list⟩

/-! ## The reports change nothing -/

section

variable {R : World υ → World υ → Prop} [IsPreorder (World υ) R]

/-- Describing a chain does no more than allocate request memory. -/
theorem within_linkInfos (h : Within R emalloc) (fuel : Nat) (head : Option Nat) :
    Within R (linkInfos fuel head) := by
  induction fuel generalizing head with
  | zero => cases head <;> exact .pure _
  | succ fuel ih =>
    cases head with
    | none => exact .pure _
    | some p =>
      exact Within.get.bind fun _ => (within_emallocN h _).bind fun _ => (ih _).bind fun _ => .pure _

/-- Describing the slots. -/
theorem within_slotInfos (h : Within R emalloc) (is : List Nat) : Within R (slotInfos is) := by
  induction is with
  | nil => exact .pure _
  | cons i is ih =>
    refine Within.get.bind fun w => (within_linkInfos h _ _).bind fun links => ?_
    dsimp only
    split
    · exact h.bind fun _ => ih.bind fun _ => .pure _
    · exact ih.bind fun _ => .pure _

/-- Making the report with the lock held. -/
theorem within_cacheInfoLocked (h : Within R emalloc) (limited : Bool) :
    Within R (cacheInfoLocked limited) := by
  refine (within_emallocN h _).bind fun _ => Within.get.bind fun w => .ite (.pure _) ?_
  exact (within_emallocN h _).bind fun _ => (within_slotInfos h _).bind fun _ =>
    (within_emallocN h _).bind fun _ => .pure _

namespace Permits

/-- The report on the cache, with the lock around it. -/
theorem cacheInfo (h : Permits R) (limited : Bool) : Within R (cacheInfo limited) :=
  (h.acquire _ _).bind fun _ =>
    .ite (.ensuring (.map (within_cacheInfoLocked h.emalloc limited)) (h.unlock _)) (.pure _)

/-- The report on the segments, which locks one segment after the other. -/
theorem smaInfo (h : Permits R) (pool : Pool) (limited : Bool) : Within R (smaInfo pool limited) := by
  have hsegments (is : List Nat) : Within R (smaInfoSegments is) := by
    induction is with
    | nil => exact .pure _
    | cons i is ih =>
      refine .bind ?_ fun _ => ih.bind fun _ => .pure _
      exact (h.acquire _ _).bind fun _ => Within.get.bind fun _ =>
        (within_emallocN h.emalloc _).bind fun _ => (h.unlock _).bind fun _ => .pure _
  exact (within_emallocN h.emalloc _).bind fun _ =>
    .ite (.pure _) ((hsegments _).bind fun _ => .pure _)

end Permits

end

namespace Harmless

/-- The report on the cache harms no entry. -/
theorem cacheInfo (limited : Bool) : Harmless (cacheInfo limited : Op υ (Option CacheInfo)) :=
  permits.cacheInfo limited

/-- The report on the segments harms no entry. -/
theorem smaInfo (pool : Pool) (limited : Bool) : Harmless (smaInfo pool limited : Op υ SmaInfo) :=
  permits.smaInfo pool limited

end Harmless

end ImmutableCache
