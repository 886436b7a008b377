import ImmutableCache.Cache.Counters
import ImmutableCache.Lib.Linear
import ImmutableCache.Lib.WriteOnce

/-!
# Stores and lookups step by step

The operations of the cache as steps of any number of processes, which interleave in any way. A step
is one load or store of a pointer, the acquisition of a lock or its release, the allocation of a block
under the lock, or an access to what no other process can change. Locks are not refused. What an
operation of `World` does in one step is here many; in particular a lookup walks along a chain while
a store with another fine-grained lock appends to it.
-/

namespace ImmutableCache

open Procs

variable {ι υ : Type}

/-- Where a process is in the execution of a call: `c` is the context after the sizing, `p` the entry
that the call has produced, `h` the hash of the key, and `entry` the one that it has found. -/
inductive Pc (υ : Type) where
  | persistSize
  | smaMalloc (c : Ctxt)
  | smaLock (c : Ctxt) (first : Bool) (i : Nat) (is : List Nat)
  | smaAllocate (c : Ctxt) (first : Bool) (i : Nat) (is : List Nat)
  | smaLast (c : Ctxt) (i p : Nat)
  | smaUnlock (c : Ctxt) (p : Option Nat) (is : List Nat)
  | persistFill (c : Ctxt) (p : Nat) (copy : Mem)
  | wlock (p : Nat)
  | wlockFine (p h : Nat)
  | insert (p h : Nat) (place : Option Nat)
  | insertCompare (p h q : Nat)
  | insertNext (p h : Nat) (place : Option Nat)
  | insertLink (p h : Nat) (place : Option Nat)
  | insertMemSize (p h : Nat)
  | insertNentries (p h : Nat)
  | insertNinserts (p h : Nat)
  | wunlockFine (p h : Nat) (ret : Bool)
  | wunlock (p : Nat) (ret : Bool)
  | freeLock (p : Nat)
  | freeDeallocate (p : Nat)
  | freeUnlock (p : Nat)
  | rlock
  | findSlot (h : Nat)
  | find (h : Nat) (entry : Option Nat)
  | findNext (h q : Nat)
  | count (h : Nat) (entry : Option Nat) (loaded : Option (Counter × Nat)) (ticks : List Tick)
  | runlock (h : Nat) (entry : Option Nat)
  | answer (entry : Option Nat)
  | ret (entry : Option Nat) (o : Outcome υ)

/-- The locks that a process holds. With recursive mutexes a read lock is exclusive. -/
def Pc.holds (recursive : Bool) : Pc υ → List (Lock × Mode)
  | .smaAllocate _ _ _ _ | .smaLast _ _ _ | .smaUnlock _ _ _ | .wlockFine _ _ | .wunlock _ _
  | .freeDeallocate _ | .freeUnlock _ => [(.global, .exclusive)]
  | .insert _ h _ | .insertCompare _ h _ | .insertNext _ h _ | .insertLink _ h _
  | .insertMemSize _ h | .insertNentries _ h | .insertNinserts _ h | .wunlockFine _ h _ =>
    [(fineGrainedLock h, .exclusive), (.global, .exclusive)]
  | .findSlot h | .find h _ | .findNext h _ | .count h _ _ _ | .runlock h _ =>
    [(fineGrainedLock h, if recursive then .exclusive else .shared)]
  | _ => []

/-- The points at which a call may bail out: while it sizes or copies its value, which allocates in
the request heap and calls the serializer, and while it unserializes what it has found. -/
def Pc.mayBail : Pc υ → Bool
  | .persistSize | .persistFill _ _ _ | .answer _ => true
  | _ => false

/-! ## What a call reads -/

/-- The hash of the key of the entry at `p`, as `immutable_cache_cache_hash_slot` computes it. -/
def World.newHash (w : World υ) (sp : Space) (p : Nat) : Nat :=
  keyHash sp w.shm (entryAt w.shm p).key

/-- `*entry`, where `entry` points to a slot, or to the `next` of the entry `place`. -/
def World.load (w : World υ) (hash : Nat) : Option Nat → Option Nat
  | none => w.headOf hash
  | some q => (entryAt w.shm q).next

namespace Request

/-- Where a store or a lookup begins. -/
def start (r : Request υ) : Option (Pc υ) :=
  match r.call with
  | .store _ _ _ => some .persistSize
  | .fetch _ _ | .find _ _ | .exist _ => some .rlock
  | _ => none

/-- The key of a lookup. -/
def lookupKey (r : Request υ) : Option Nat :=
  match r.call with
  | .fetch key _ | .find key _ | .exist key => some key
  | _ => none

/-- What a lookup counts; `immutable_cache_cache_exists` counts nothing. -/
def ticks (r : Request υ) (recursive protectMemory : Bool) (entry : Option Nat) : List Tick :=
  match r.call with
  | .fetch _ t | .find _ t => rlockedFindTicks recursive protectMemory t entry
  | _ => []

/-! ## Steps -/

/-- A step of a process that executes the call of `r`. -/
inductive Moves (recursive : Bool) (pool : Pool) (php : Serializer υ) (r : Request υ) :
    World υ → Pc υ → World υ → Pc υ → Prop
  /- `immutable_cache_persist` -/
  | sized {w : World υ} {key n t : Nat} {val : Zval} {c : Ctxt} :
      r.call = .store key val t →
      persistSize r.sp php w.serializer r.depth w.shm n (initEntry key val t) = (true, c) →
      Moves recursive pool php r w .persistSize w (.smaMalloc c)
  | notSized {w : World υ} {key n t : Nat} {val : Zval} {c : Ctxt} :
      r.call = .store key val t →
      persistSize r.sp php w.serializer r.depth w.shm n (initEntry key val t) = (false, c) →
      Moves recursive pool php r w .persistSize w (.ret none (.stored false))
  /- `immutable_cache_sma_malloc` -/
  | smaMalloc {w : World υ} {c : Ctxt} :
      Moves recursive pool php r w (.smaMalloc c) w
        (.smaLock c true w.sma.last ((List.range pool.num).filter (· ≠ w.sma.last)))
  | smaLock {w : World υ} {c : Ctxt} {first : Bool} {i : Nat} {is : List Nat} :
      Moves recursive pool php r w (.smaLock c first i is) w (.smaAllocate c first i is)
  | allocated {w : World υ} {c : Ctxt} {first : Bool} {i off sz : Nat} {is : List Nat} {s : Sma} :
      w.sma.allocate i c.size = (some (off, sz), s) →
      Moves recursive pool php r w (.smaAllocate c first i is) { w with sma := s }
        (if first then .smaUnlock c (some (pool.shmaddr i + off)) is
          else .smaLast c i (pool.shmaddr i + off))
  | notAllocated {w : World υ} {c : Ctxt} {first : Bool} {i : Nat} {is : List Nat} {s : Sma} :
      w.sma.allocate i c.size = (none, s) →
      Moves recursive pool php r w (.smaAllocate c first i is) { w with sma := s }
        (.smaUnlock c none is)
  | smaLast {w : World υ} {c : Ctxt} {i p : Nat} :
      Moves recursive pool php r w (.smaLast c i p) { w with sma := { w.sma with last := i } }
        (.smaUnlock c (some p) [])
  | smaNext {w : World υ} {c : Ctxt} {i : Nat} {is : List Nat} :
      Moves recursive pool php r w (.smaUnlock c none (i :: is)) w (.smaLock c false i is)
  | smaNone {w : World υ} {c : Ctxt} :
      Moves recursive pool php r w (.smaUnlock c none []) w (.ret none (.stored false))
  /- The copy into the block, to whose addresses anything is written until all of it is there. What
  it reads does not change. -/
  | smaUnlock {w : World υ} {key t p : Nat} {val : Zval} {c : Ctxt} {is : List Nat} :
      r.call = .store key val t →
      Moves recursive pool php r w (.smaUnlock c (some p) is) w (.persistFill c p
        (ImmutableCache.persistFill r.sp r.depth c (w.shm.clear p c.size) p
          (initEntry key val t)).2.shm)
  | write {w : World υ} {c : Ctxt} {p q : Nat} {copy : Mem} {o : Option Obj} :
      p ≤ q → q < p + c.size →
      Moves recursive pool php r w (.persistFill c p copy)
        { w with shm := Function.update w.shm q o } (.persistFill c p copy)
  | filled {w : World υ} {c : Ctxt} {p : Nat} {copy : Mem} :
      (∀ q, p ≤ q → q < p + c.size → w.shm q = copy q) →
      Moves recursive pool php r w (.persistFill c p copy) w (.wlock p)
  /- `immutable_cache_cache_wlock` -/
  | wlock {w : World υ} {key t p : Nat} {val : Zval} :
      r.call = .store key val t →
      Moves recursive pool php r w (.wlock p) w (.wlockFine p (keyHash r.sp w.shm key))
  | wlockFine {w : World υ} {p h : Nat} :
      Moves recursive pool php r w (.wlockFine p h) w (.insert p h none)
  /- `immutable_cache_cache_wlocked_insert_exclusive` -/
  | insertEntry {w : World υ} {p h q : Nat} {place : Option Nat} :
      w.load (w.newHash r.sp p) place = some q →
      Moves recursive pool php r w (.insert p h place) w (.insertCompare p h q)
  | insertEnd {w : World υ} {p h : Nat} {place : Option Nat} :
      w.load (w.newHash r.sp p) place = none →
      Moves recursive pool php r w (.insert p h place) w (.insertNext p h place)
  | insertFound {w : World υ} {p h q : Nat} :
      keyEquals r.sp w.shm (entryAt w.shm q) (entryAt w.shm p).key (w.newHash r.sp p) = true →
      Moves recursive pool php r w (.insertCompare p h q) w (.wunlockFine p h false)
  | insertSkip {w : World υ} {p h q : Nat} :
      keyEquals r.sp w.shm (entryAt w.shm q) (entryAt w.shm p).key (w.newHash r.sp p) = false →
      Moves recursive pool php r w (.insertCompare p h q) w (.insert p h (some q))
  | insertNext {w : World υ} {p h : Nat} {place : Option Nat} :
      Moves recursive pool php r w (.insertNext p h place)
        { w with shm := writeEntry w.shm p
                  { entryAt w.shm p with next := w.load (w.newHash r.sp p) place } }
        (.insertLink p h place)
  | insertLink {w : World υ} {p h : Nat} {place : Option Nat} {l : Mem × List (Option Nat)} :
      linkEntry w.shm w.slots (w.slotOf (w.newHash r.sp p)) p place = l →
      Moves recursive pool php r w (.insertLink p h place) { w with shm := l.1, slots := l.2 }
        (.insertMemSize p h)
  | insertMemSize {w : World υ} {p h : Nat} :
      Moves recursive pool php r w (.insertMemSize p h)
        { w with header := { w.header with
                              memSize := w.header.memSize + (entryAt w.shm p).memSize } }
        (.insertNentries p h)
  | insertNentries {w : World υ} {p h : Nat} :
      Moves recursive pool php r w (.insertNentries p h)
        { w with header := { w.header with nentries := w.header.nentries + 1 } }
        (.insertNinserts p h)
  | insertNinserts {w : World υ} {p h : Nat} :
      Moves recursive pool php r w (.insertNinserts p h)
        { w with header := { w.header with ninserts := w.header.ninserts + 1 } }
        (.wunlockFine p h true)
  /- `immutable_cache_cache_wunlock` -/
  | wunlockFine {w : World υ} {p h : Nat} {ret : Bool} :
      Moves recursive pool php r w (.wunlockFine p h ret) w (.wunlock p ret)
  | stored {w : World υ} {p : Nat} :
      Moves recursive pool php r w (.wunlock p true) w (.ret (some p) (.stored true))
  | notStored {w : World υ} {p : Nat} :
      Moves recursive pool php r w (.wunlock p false) w (.freeLock p)
  /- `immutable_cache_sma_free` -/
  | freeLock {w : World υ} {p : Nat} :
      Moves recursive pool php r w (.freeLock p) w (.freeDeallocate p)
  | freeDeallocate {w : World υ} {p i : Nat} :
      pool.segmentOf p = some i →
      Moves recursive pool php r w (.freeDeallocate p)
        { w with sma := w.sma.deallocate i (p - pool.shmaddr i) } (.freeUnlock p)
  | freeUnlock {w : World υ} {p : Nat} :
      Moves recursive pool php r w (.freeUnlock p) w (.ret (some p) (.stored false))
  /- the lookups -/
  | rlock {w : World υ} {key : Nat} :
      r.lookupKey = some key →
      Moves recursive pool php r w .rlock w (.findSlot (keyHash r.sp w.shm key))
  | findSlot {w : World υ} {h : Nat} :
      Moves recursive pool php r w (.findSlot h) w (.find h (w.headOf h))
  | found {w : World υ} {key h q : Nat} :
      r.lookupKey = some key → keyEquals r.sp w.shm (entryAt w.shm q) key h = true →
      Moves recursive pool php r w (.find h (some q)) w
        (.count h (some q) none (r.ticks recursive w.env.protectMemory (some q)))
  | skip {w : World υ} {key h q : Nat} :
      r.lookupKey = some key → keyEquals r.sp w.shm (entryAt w.shm q) key h = false →
      Moves recursive pool php r w (.find h (some q)) w (.findNext h q)
  | findNext {w : World υ} {h q : Nat} :
      Moves recursive pool php r w (.findNext h q) w (.find h (entryAt w.shm q).next)
  | missed {w : World υ} {h : Nat} :
      Moves recursive pool php r w (.find h none) w
        (.count h none none (r.ticks recursive w.env.protectMemory none))
  | tick {w : World υ} {h : Nat} {entry : Option Nat} {loaded : Option (Counter × Nat)} {a : Tick}
      {ticks : List Tick} {s : Lookups Unit υ} :
      a.apply () ⟨w, fun _ => loaded, []⟩ = s →
      Moves recursive pool php r w (.count h entry loaded (a :: ticks)) s.world
        (.count h entry (s.loaded ()) ticks)
  | counted {w : World υ} {h : Nat} {entry : Option Nat} {loaded : Option (Counter × Nat)} :
      Moves recursive pool php r w (.count h entry loaded []) w (.runlock h entry)
  | runlock {w : World υ} {h : Nat} {entry : Option Nat} :
      Moves recursive pool php r w (.runlock h entry) w (.answer entry)
  | answer {w : World υ} {entry : Option Nat} {o : Outcome υ} :
      r.reply php w entry = some o →
      Moves recursive pool php r w (.answer entry) w (.ret entry o)

end Request

/-- The calls made one after the other: what a call may return when the keys are bound as in `m`, with
the entry that it has produced or found, and how they are bound after it. -/
inductive Answers (php : Serializer υ) : (Bytes → Option Nat) →
    (Request υ × Bytes) × (Option Nat × Outcome υ) → (Bytes → Option Nat) → Prop
  | store {m m' : Bytes → Option Nat} {r : Request υ} {k : Bytes} {entry : Option Nat} {ret : Bool}
      {key t : Nat} {val : Zval} :
      r.call = .store key val t → WriteOnce.Step m (.insert k entry ret) m' →
      Answers php m ((r, k), (entry, .stored ret)) m'
  | lookup {m : Bytes → Option Nat} {r : Request υ} {k : Bytes} {o : Outcome υ} {w : World υ} :
      r.reply php w (m k) = some o → Answers php m ((r, k), (m k, o)) m

/-! ## Any number of processes -/

/-- A process that executes a call, with the number of the call and the bytes of its key. -/
structure Process (υ : Type) where
  id : Nat
  req : Request υ
  key : Bytes
  pc : Pc υ

/-- What the processes `ι` share, those that execute a call, and the calls and returns so far. A
return is that of an outcome, with the entry that the call has produced or found. -/
structure Processes (ι υ : Type) where
  world : World υ
  running : ι → Option (Process υ)
  history : List (Linear.Action (Request υ × Bytes) (Option Nat × Outcome υ))

namespace Processes

/-- No process has made a call. -/
def start (w : World υ) : Processes ι υ := ⟨w, fun _ => none, []⟩

/-- The locks that the process `i` holds at `pc` are not held in a conflicting mode by another one. -/
def Free (recursive : Bool) (s : Processes ι υ) (i : ι) (pc : Pc υ) : Prop :=
  ∀ l m, (l, m) ∈ pc.holds recursive → ∀ j, j ≠ i → ∀ q, s.running j = some q →
    ∀ m', (l, m') ∈ q.pc.holds recursive → m = .shared ∧ m' = .shared

variable [DecidableEq ι]

/-- A step of a process: it makes a call, it goes on with its call, it returns, or it bails out. While
a store updates the header, the number of entries in it is that before the store. -/
inductive Step (recursive : Bool) (pool : Pool) (z : Zend) (php : Serializer υ) :
    Processes ι υ → ι → Processes ι υ → Prop
  | call {s : Processes ι υ} {i : ι} {r : Request υ} {k : Bytes} {pc : Pc υ} {header : Header} :
      s.running i = none → r.start = some pc →
      r.Legal pool z { s.world with header := header } →
      r.key { s.world with header := header } = some k →
      Step recursive pool z php s i
        { s with
          running := Function.update s.running i (some ⟨s.history.length, r, k, pc⟩)
          history := s.history ++ [.call s.history.length (r, k)] }
  | move {s : Processes ι υ} {i : ι} {p : Process υ} {w : World υ} {pc : Pc υ} :
      s.running i = some p → p.req.Moves recursive pool php s.world p.pc w pc →
      s.Free recursive i pc →
      Step recursive pool z php s i
        { s with world := w, running := Function.update s.running i (some { p with pc := pc }) }
  | ret {s : Processes ι υ} {i : ι} {p : Process υ} {entry : Option Nat} {o : Outcome υ} :
      s.running i = some p → p.pc = .ret entry o →
      Step recursive pool z php s i
        { s with
          running := Function.update s.running i none
          history := s.history ++ [.ret p.id (entry, o)] }
  | bail {s : Processes ι υ} {i : ι} {p : Process υ} :
      s.running i = some p → p.pc.mayBail = true →
      Step recursive pool z php s i { s with running := Function.update s.running i none }

end Processes

end ImmutableCache
