import ImmutableCache.Cache.World

/-!
# The operations of the cache

`immutable_cache_cache.c`: the table is an array of slots, each with a chain of entries linked
through `next`. An entry is found by hash, length and bytes of its key, inserted at the tail of its
chain if the key is not there yet, and never removed. A loop along a chain is bounded by the number
of entries in the cache.
-/

namespace ImmutableCache

open Bail

variable {υ : Type}

/-- The entry at `p`. -/
def entryAt (shm : Mem) (p : Nat) : Entry :=
  match shm p with
  | some (.entry e) => e
  | _ => default

/-- Write the entry at `p`. -/
def writeEntry (shm : Mem) (p : Nat) (e : Entry) : Mem := Function.update shm p (some (.entry e))

/-- A block that has just been allocated holds no objects yet. -/
def Mem.clear (shm : Mem) (p n : Nat) : Mem := fun q => if p ≤ q ∧ q < p + n then none else shm q

/-! ## Creating the table -/

/-- `primes`. -/
def primes : List Nat :=
  [257, 521, 1031, 2053, 3079, 4099, 5147, 6151, 7177, 8209, 9221, 10243, 11273, 12289, 13313,
    14341, 15361, 16411, 17417, 18433, 19457, 20483, 30727, 40961, 61441, 81929, 122887, 163841,
    245771, 327689, 491527, 655373, 983063]

/-- `make_prime`: the first prime of the table above the `int` `n`, or its last one. -/
def makePrime (n : Int) : Nat := (primes.find? fun k : Nat => decide (n < (k : Int))).getD 983063

/-- A `zend_long` passed as an `int`. -/
def toInt (n : Int) : Int := n.bmod (2 ^ 32)

/-- `sizeof(immutable_cache_cache_header_t)`. -/
def sizeofHeader : Nat := 56

/-- `immutable_cache_cache_create` on a fresh allocator. If there is no room for the table the
error is fatal. -/
def cacheCreate (pool : Pool) (serializer : Option (Serializer υ)) (sizeHint : Int) (stime : Nat) :
    Op υ Unit := do
  let nslots := makePrime (toInt (if 0 < sizeHint then sizeHint else 2000))
  match ← smaMalloc pool (sizeofHeader + nslots * 8 + 64) with
  | some _ =>
    modify fun w => { w with
      header := { nhits := 0, nmisses := 0, ninserts := 0, nentries := 0, memSize := 0, stime }
      slots := List.replicate nslots none
      serializer := serializer
      loadedSerializer := false }
  | none =>
    warning "Unable to allocate shared memory for cache structures"
    bailout

/-! ## Keys -/

/-- `ZSTR_HASH` of the key at `p`. -/
def keyHash (sp : Space) (shm : Mem) (p : Nat) : Nat := sp.zend.zstrHash (sp.zstr shm p)

/-- `immutable_cache_entry_key_equals`. -/
def keyEquals (sp : Space) (shm : Mem) (entry : Entry) (key hash : Nat) : Bool :=
  let ekey := sp.zstr shm entry.key
  let key := sp.zstr shm key
  decide (ekey.h = hash ∧ ekey.val.length = key.val.length ∧ ekey.val = key.val)

/-- The slot that `immutable_cache_cache_hash_slot` computes for a hash. -/
def World.slotOf (w : World υ) (hash : Nat) : Nat := hash % w.slots.length

/-- The head of the chain for a hash. -/
def World.headOf (w : World υ) (hash : Nat) : Option Nat := w.slots.getD (w.slotOf hash) none

/-! ## Storing -/

/-- The walk of `immutable_cache_cache_wlocked_insert_exclusive`: the place of the `NULL` at the end
of the chain (in the slot, or in the `next` of an entry), or nothing if the key is there. -/
def insertPlace (sp : Space) (shm : Mem) (key hash : Nat) :
    Nat → Option Nat → Option Nat → Option (Option Nat)
  | _, place, none => some place
  | 0, _, some _ => none
  | fuel + 1, _, some p =>
    if keyEquals sp shm (entryAt shm p) key hash then none
    else insertPlace sp shm key hash fuel (some p) (entryAt shm p).next

/-- Link the entry at `p` at the place that `insertPlace` has found, in slot `s` or in the `next` of
an entry. -/
def linkEntry (shm : Mem) (slots : List (Option Nat)) (s p : Nat) :
    Option Nat → Mem × List (Option Nat)
  | none => (shm, slots.set s (some p))
  | some q => (writeEntry shm q { entryAt shm q with next := some p }, slots)

/-- `immutable_cache_cache_wlocked_insert_exclusive`. -/
def wlockedInsertExclusive (sp : Space) (newEntry : Nat) (w : World υ) : Bool × World υ :=
  let e := entryAt w.shm newEntry
  let h := keyHash sp w.shm e.key
  match insertPlace sp w.shm e.key h w.header.nentries none (w.headOf h) with
  | none => (false, w)
  | some place =>
    let shm := writeEntry w.shm newEntry { e with next := none }
    let r := linkEntry shm w.slots (w.slotOf h) newEntry place
    (true, { w with
      shm := r.1
      slots := r.2
      header := { w.header with
        memSize := w.header.memSize + e.memSize
        nentries := w.header.nentries + 1
        ninserts := w.header.ninserts + 1 } })

/-- `immutable_cache_cache_init_entry`. -/
def initEntry (key : Nat) (val : Zval) (t : Nat) : Entry where
  key := key
  val := val
  next := none
  nhits := 0
  ctime := t
  atime := t
  memSize := 0

/-- `immutable_cache_persist`: size the entry, allocate a block for it and copy it. `php` is the
built-in serializer, and the value is nested at most `depth` deep. What a bailout in the middle of
the copy leaves in the block is not recorded: nothing points there. -/
def persist (pool : Pool) (sp : Space) (php : Serializer υ) (depth : Nat) (orig : Entry) :
    Op υ (Option Nat) := do
  let w ← get
  let ser := w.serializer.getD php
  let r := persistSize sp php w.serializer depth w.shm w.serializations orig
  let c := r.2
  emallocN (c.emallocs - (c.serializations - w.serializations))
  serializeN ser (c.serializations - w.serializations)
  modify fun w => { w with
    warnings := w.warnings ++ c.warnings
    thrown := w.thrown + c.exception.toNat + w.handled c.warnings.length }
  if r.1 then
    match ← smaMalloc pool c.size with
    | some p =>
      modify fun w => { w with shm := w.shm.clear p c.size }
      let f := persistFill sp depth c (← get).shm p orig
      emallocN (f.2.emallocs - c.emallocs)
      modify fun w => { w with
        shm := f.2.shm
        encoder := Function.update w.encoder f.1 (if c.useSerialization then some ser else none) }
      pure (some f.1)
    | none => pure none
  else pure none

/-- `immutable_cache_cache_store`. -/
def cacheStore (pool : Pool) (sp : Space) (php : Serializer υ) (depth key : Nat) (val : Zval)
    (t : Nat) : Op υ Bool := do
  match ← persist pool sp php depth (initEntry key val t) with
  | none => pure false
  | some entry =>
    let h := keyHash sp (← get).shm key
    if ← cacheWlock h then
      let ret ← ensuring (modifyGet (wlockedInsertExclusive sp entry)) (cacheWunlock h)
      if ret then pure true
      else
        smaFree pool entry
        pure false
    else
      smaFree pool entry
      pure false

/-! ## Looking up -/

/-- The walk of the lookups along a chain. -/
def findEntry (sp : Space) (shm : Mem) (key hash : Nat) : Nat → Option Nat → Option Nat
  | _, none => none
  | 0, some _ => none
  | fuel + 1, some p =>
    if keyEquals sp shm (entryAt shm p) key hash then some p
    else findEntry sp shm key hash fuel (entryAt shm p).next

/-- `immutable_cache_cache_rlocked_find_nostat`. -/
def rlockedFindNostat (sp : Space) (key : Nat) (w : World υ) : Option Nat :=
  let h := keyHash sp w.shm key
  findEntry sp w.shm key h w.header.nentries (w.headOf h)

/-- The counters and the access time after a hit on the entry at `p`. -/
def World.hit (w : World υ) (p t : Nat) : World υ :=
  let e := entryAt w.shm p
  { w with
    header := { w.header with nhits := w.header.nhits + 1 }
    shm := writeEntry w.shm p { e with nhits := e.nhits + 1, atime := t } }

/-- The counters after a miss. -/
def World.miss (w : World υ) : World υ :=
  { w with header := { w.header with nmisses := w.header.nmisses + 1 } }

/-- `immutable_cache_cache_rlocked_find`, at time `t`. -/
def rlockedFind (sp : Space) (key t : Nat) (w : World υ) : Option Nat × World υ :=
  let h := keyHash sp w.shm key
  match findEntry sp w.shm key h w.header.nentries (w.headOf h) with
  | some p => (some p, if w.env.protectMemory then w else w.hit p t)
  | none => (none, if w.env.protectMemory then w else w.miss)

/-- `immutable_cache_cache_find`. -/
def cacheFind (sp : Space) (key t : Nat) : Op υ (Option Nat) := do
  let h := keyHash sp (← get).shm key
  if ← rlock (fineGrainedLock h) then
    let entry ← modifyGet (rlockedFind sp key t)
    unlock (fineGrainedLock h)
    pure entry
  else pure none

/-- `immutable_cache_cache_entry_fetch_zval`: `immutable_cache_unpersist` of the value of the entry
at `p`, with the serializer of the cache. -/
def entryFetchZval (sp : Space) (php : Serializer υ) (p : Nat) : Op υ (Bool × Fetched υ) := do
  let w ← get
  let value := (entryAt w.shm p).val
  match value with
  | .ptr _ => callback (w.serializer.getD php) (some p)
  | _ => pure ()
  pure (unpersist sp w.shm (w.serializer.getD php) value)

/-- `immutable_cache_cache_fetch`; `none` when it returns 0 without touching the destination. -/
def cacheFetch (sp : Space) (php : Serializer υ) (key t : Nat) :
    Op υ (Option (Bool × Fetched υ)) := do
  match ← cacheFind sp key t with
  | none => pure none
  | some entry => some <$> entryFetchZval sp php entry

/-- `immutable_cache_cache_exists`. -/
def cacheExists (sp : Space) (key : Nat) : Op υ Bool := do
  let h := keyHash sp (← get).shm key
  if ← rlock (fineGrainedLock h) then
    let entry := rlockedFindNostat sp key (← get)
    unlock (fineGrainedLock h)
    pure entry.isSome
  else pure false

/-- What `immutable_cache_cache_stat` tells about an entry. -/
structure Stat where
  hits : Nat
  accessTime : Nat
  creationTime : Nat
  deriving DecidableEq, Repr

/-- The fields of an entry that `immutable_cache_cache_stat` reads. -/
def Entry.stat (e : Entry) : Stat := ⟨e.nhits, e.atime, e.ctime⟩

/-- `immutable_cache_cache_stat`; `none` leaves `NULL` in the result. The array and each of its
elements are allocated under the lock. -/
def cacheStat (sp : Space) (key : Nat) : Op υ (Option Stat) := do
  let h := keyHash sp (← get).shm key
  if ← rlock (fineGrainedLock h) then
    ensuring
      (do
        let w ← get
        match findEntry sp w.shm key h w.header.nentries (w.headOf h) with
        | some p =>
          emallocN 4
          pure (some (entryAt w.shm p).stat)
        | none => pure none)
      (unlock (fineGrainedLock h))
  else pure none

end ImmutableCache
