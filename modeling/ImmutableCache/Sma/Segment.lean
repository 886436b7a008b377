import ImmutableCache.Lib.SizeT
import Mathlib.Logic.Function.Basic

/-!
# One shared memory segment

The boundary-tag allocator of `immutable_cache_sma.c` on one segment. A segment is the two size
words of its `sma_header_t` and the block headers laid out in it: a `block_t` sits at a byte
offset, and each of its four fields is a map from offsets to words, so that an assignment through
a `block_t *` is a point update of one map. Offsets and sizes are `size_t` values; arithmetic on
them that the code does in `size_t` is `SizeT`'s, and the pointer steps `NEXT_SBLOCK` and
`PREV_SBLOCK` are plain additions to an offset.

The sizes are those of a 64-bit build without `IMMUTABLE_CACHE_SMA_DEBUG`: a word is 8 bytes, a
padded lock 64 bytes, `block_t` four words, with no canary.
-/

namespace ImmutableCache

/-- `sizeof(immutable_cache_word_t)`. -/
abbrev wordSize : Nat := 8

/-- `ALIGNWORD`: pad up to the word boundary. -/
def alignword (x : Nat) : Nat := SizeT.alignUp wordSize x

/-- `IMMUTABLE_CACHE_CACHE_FINE_GRAINED_LOCK_COUNT`. -/
abbrev fineGrainedLockCount : Nat := 16

/-- `sizeof(sma_header_t)`: the global lock and the fine-grained locks, each padded to 64 bytes,
and the two size words. -/
abbrev smaHeaderSize : Nat := 64 + fineGrainedLockCount * 64 + 8 + 8

/-- `ALIGNWORD(sizeof(struct block_t))`, the header in front of every block. -/
abbrev blockSize : Nat := 32

/-- `MINBLOCKSIZE`: the smallest block worth splitting off. -/
abbrev minBlockSize : Nat := 8 + blockSize

/-- `BEST_FIT_LIMIT`: how many extra blocks to check for a better fit. -/
abbrev bestFitLimit : Nat := 3

/-- A shared memory segment: the size words of its header, and the fields of the `block_t` at each
offset. -/
structure Segment where
  segsize : Nat
  avail : Nat
  size : Nat → Nat
  prevSize : Nat → Nat
  fnext : Nat → Nat
  fprev : Nat → Nat

namespace Segment

/-- `BLOCKAT(o)->size = v`. -/
def setSize (s : Segment) (o v : Nat) : Segment := { s with size := Function.update s.size o v }

/-- `BLOCKAT(o)->prev_size = v`. -/
def setPrevSize (s : Segment) (o v : Nat) : Segment :=
  { s with prevSize := Function.update s.prevSize o v }

/-- `BLOCKAT(o)->fnext = v`. -/
def setFnext (s : Segment) (o v : Nat) : Segment := { s with fnext := Function.update s.fnext o v }

/-- `BLOCKAT(o)->fprev = v`. -/
def setFprev (s : Segment) (o v : Nat) : Segment := { s with fprev := Function.update s.fprev o v }

/-- `header->avail = v`. -/
def setAvail (s : Segment) (v : Nat) : Segment := { s with avail := v }

/-- `NEXT_SBLOCK`: the block after the one at `o`. -/
def nextSblock (s : Segment) (o : Nat) : Nat := o + s.size o

/-- The offset of the `first` sentinel. -/
abbrev first : Nat := smaHeaderSize

/-- The offset of the first real block. -/
abbrev start : Nat := smaHeaderSize + blockSize

end Segment

open Segment

/-- The layout constants as numbers, for linear arithmetic. -/
theorem layout : wordSize = 8 ∧ blockSize = 32 ∧ minBlockSize = 40 ∧ smaHeaderSize = 1104 ∧
    first = 1104 ∧ start = 1136 := by decide

/-- The scan of `find_block` along the free list for the first block of at least `realsize` bytes.
The list lies in the segment, so `segsize` bounds the number of rounds. -/
def findFit (s : Segment) (realsize : Nat) : Nat → Nat → Option Nat
  | 0, _ => none
  | fuel + 1, prv =>
    if s.fnext prv = 0 then none
    else if realsize ≤ s.size (s.fnext prv) then some (s.fnext prv)
    else findFit s realsize fuel (s.fnext prv)

/-- The second loop of `find_block`: look at the next `i` blocks after `prv` for a smaller block
that also fits. -/
def betterFit (s : Segment) (realsize : Nat) : Nat → Nat → Nat → Nat
  | 0, _, found => found
  | i + 1, prv, found =>
    if s.fnext prv = 0 then found
    else
      let cur := s.fnext prv
      betterFit s realsize i cur
        (if realsize ≤ s.size cur ∧ s.size cur < s.size found then cur else found)

/-- `find_block`. -/
def findBlock (s : Segment) (realsize : Nat) : Option Nat :=
  match findFit s realsize s.segsize first with
  | none => none
  | some found => some (betterFit s realsize bestFitLimit found found)

/-- The first branch of `sma_allocate`: `cur` is too small to split, take it whole. -/
def smaUnlink (s : Segment) (cur : Nat) : Segment :=
  let prv := s.fprev cur
  let s := s.setFnext prv (s.fnext cur)
  let s := s.setFprev (s.fnext cur) prv
  s.setPrevSize (s.nextSblock cur) 0

/-- The second branch of `sma_allocate`: cut `realsize` bytes off `cur` and put the rest, `nxt`, in
its place in the free list. -/
def smaSplit (s : Segment) (cur realsize : Nat) : Segment :=
  let oldsize := s.size cur
  let s := s.setSize cur realsize
  let nxt := s.nextSblock cur
  let s := s.setPrevSize nxt 0
  let s := s.setSize nxt (SizeT.sub oldsize realsize)
  let s := s.setPrevSize (s.nextSblock nxt) (s.size nxt)
  let s := s.setFnext nxt (s.fnext cur)
  let s := s.setFprev nxt (s.fprev cur)
  let s := s.setFprev (s.fnext nxt) nxt
  s.setFnext (s.fprev nxt) nxt

/-- `sma_allocate`: the offset of the block's payload and the size reported through `allocated`,
or nothing for `SIZE_MAX`. A size near `SIZE_MAX` wraps to a `realsize` below that of a header, and
the new header of a split then overlaps the one of the block in memory. The maps of a `Segment` keep
the two apart; of such a request it is only said that it gets a block which is too small. -/
def smaAllocate (s : Segment) (size fragment : Nat) : Option (Nat × Nat) × Segment :=
  let realsize := alignword (SizeT.add size blockSize)
  if s.avail < realsize then (none, s)
  else
    match findBlock s realsize with
    | none => (none, s)
    | some cur =>
      let (allocated, s) :=
        if s.size cur = realsize ∨
            (realsize < s.size cur ∧
              s.size cur < SizeT.add realsize (SizeT.add minBlockSize fragment)) then
          (SizeT.sub (s.size cur) blockSize, smaUnlink s cur)
        else (SizeT.sub realsize blockSize, smaSplit s cur realsize)
      let s := s.setFnext cur 0
      let s := s.setAvail (SizeT.sub s.avail (s.size cur))
      (some (cur + blockSize, allocated), s)

/-- Take the free block `b` out of the free list, as both merges of `sma_deallocate` do. -/
def smaRemove (s : Segment) (b : Nat) : Segment :=
  let s := s.setFprev (s.fnext b) (s.fprev b)
  s.setFnext (s.fprev b) (s.fnext b)

/-- The first merge of `sma_deallocate`: a nonzero `prev_size` says that the physical predecessor
is free; it absorbs `cur`. -/
def smaMergePrev (s : Segment) (cur : Nat) : Segment × Nat :=
  if s.prevSize cur ≠ 0 then
    let prv := cur - s.prevSize cur
    let s := smaRemove s prv
    (s.setSize prv (SizeT.add (s.size prv) (s.size cur)), prv)
  else (s, cur)

/-- The second merge of `sma_deallocate`: a nonzero `fnext` says that the physical successor is
free; `cur` absorbs it. -/
def smaMergeNext (s : Segment) (cur : Nat) : Segment :=
  let nxt := s.nextSblock cur
  if s.fnext nxt ≠ 0 then
    let s := smaRemove s nxt
    s.setSize cur (SizeT.add (s.size cur) (s.size nxt))
  else s

/-- The end of `sma_deallocate`: tag the block after `cur` and link `cur` in after `first`. -/
def smaInsert (s : Segment) (cur : Nat) : Segment :=
  let s := s.setPrevSize (s.nextSblock cur) (s.size cur)
  let s := s.setFnext cur (s.fnext first)
  let s := s.setFnext first cur
  let s := s.setFprev cur first
  s.setFprev (s.fnext cur) cur

/-- `sma_deallocate`: free the block whose payload starts at `offset`. -/
def smaDeallocate (s : Segment) (offset : Nat) : Segment :=
  let cur := offset - blockSize
  let s := s.setAvail (SizeT.add s.avail (s.size cur))
  let (s, cur) := smaMergePrev s cur
  smaInsert (smaMergeNext s cur) cur

/-- The body of the segment loop of `immutable_cache_sma_init`, on a segment of fresh (zeroed)
memory: the two sentinels with one free block between them. -/
def smaInitSegment (segmentSize : Nat) : Segment :=
  let s : Segment :=
    { segsize := segmentSize
      avail := SizeT.sub (SizeT.sub (SizeT.sub segmentSize smaHeaderSize) blockSize) blockSize
      size := fun _ => 0, prevSize := fun _ => 0, fnext := fun _ => 0, fprev := fun _ => 0 }
  let s := s.setSize first 0
  let s := s.setFnext first (SizeT.add smaHeaderSize blockSize)
  let s := s.setFprev first 0
  let s := s.setPrevSize first 0
  let empty := s.fnext first
  let s := s.setSize empty (SizeT.sub s.avail blockSize)
  let s := s.setFnext empty (SizeT.add empty (s.size empty))
  let s := s.setFprev empty smaHeaderSize
  let s := s.setPrevSize empty 0
  let last := s.fnext empty
  let s := s.setSize last 0
  let s := s.setFnext last 0
  let s := s.setFprev last empty
  s.setPrevSize last (s.size empty)

/-- The loop of `immutable_cache_sma_info` over the free blocks of a segment: the sizes and offsets
of the links it builds. -/
def smaInfoLinks (s : Segment) : Nat → Nat → List (Nat × Nat)
  | 0, _ => []
  | fuel + 1, prv =>
    if s.fnext (s.fnext prv) = 0 then []
    else (s.size (s.fnext prv), s.fnext prv) :: smaInfoLinks s fuel (s.fnext prv)

end ImmutableCache
