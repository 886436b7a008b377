import ImmutableCache.Lib.Bail
import ImmutableCache.Persist.Context
import ImmutableCache.Sma.Pool

/-!
# The world of a cache operation

The shared state of the cache, and what the environment of a process decides: whether an attempt to
acquire a lock succeeds, and whether an allocation in the request heap does. An allocation that
fails bails out (`zend_bailout`). An operation is a program over the world; the world also keeps
the locks that the process holds, the number of exceptions thrown and, for every call of a
serializer's function, the locks held at that moment.
-/

namespace ImmutableCache

/-- The locks: `SMA_LCK(sma, sma->num)`, and the fine-grained ones. -/
inductive Lock where
  | global
  | fine (i : Nat)
  deriving DecidableEq, Repr

/-- What the environment decides: the outcomes of the attempts to acquire a lock and of the
allocations in the request heap, numbered from the start of the run,
`IMMUTABLE_CACHE_SHOULD_PROTECT_MEMORY`, and which warnings the user's error handler turns into
exceptions. -/
structure Env where
  lockOk : Nat → Bool
  emallocOk : Nat → Bool
  protectMemory : Bool
  handlerThrows : Nat → Bool := fun _ => false

/-- An `immutable_cache_cache_header_t`. -/
structure Header where
  nhits : Nat
  nmisses : Nat
  ninserts : Nat
  nentries : Nat
  memSize : Nat
  stime : Nat
  deriving DecidableEq, Repr, Inhabited

/-- A call of a serializer's function, with the locks that the process holds: `unserialize` for the
value of an entry, or `serialize`. -/
structure Callback (υ : Type) where
  serializer : Serializer υ
  entry : Option Nat
  held : List Lock

/-- The shared memory (the allocator, the objects in it, the cache header and the slots) and the
process's `immutable_cache_cache_t`, with the environment and the counters of its decisions, the
locks held, and what has happened so far: the calls of serializer functions, the warnings, the number
of exceptions thrown, the pointers passed to `immutable_cache_sma_free`, and which serializer made the
string that the entry at an address holds. -/
structure World (υ : Type) where
  env : Env
  lockTries : Nat
  emallocs : Nat
  held : List Lock
  callbacks : List (Callback υ)
  warnings : List String
  thrown : Nat
  freed : List Nat
  encoder : Nat → Option (Serializer υ)
  sma : Sma
  shm : Mem
  header : Header
  slots : List (Option Nat)
  serializer : Option (Serializer υ)
  loadedSerializer : Bool

/-- A program over the world. -/
abbrev Op (υ : Type) := Bail (World υ)

variable {υ : Type}

open Bail

/-! ## The request heap -/

/-- An allocation in the request heap. -/
def emalloc : Op υ Unit := do
  let w ← get
  set { w with emallocs := w.emallocs + 1 }
  if w.env.emallocOk w.emallocs then pure () else bailout

/-- Several allocations in the request heap. -/
def emallocN : Nat → Op υ Unit
  | 0 => pure ()
  | n + 1 => do
    emalloc
    emallocN n

/-- How many of the next `n` warnings the error handler turns into exceptions. -/
def World.handled (w : World υ) (n : Nat) : Nat :=
  (List.range n).countP fun i => w.env.handlerThrows (w.warnings.length + i)

/-- `immutable_cache_warning`: the message is formatted in the request heap. -/
def warning (msg : String) : Op υ Unit := do
  emalloc
  modify fun w => { w with warnings := w.warnings ++ [msg], thrown := w.thrown + w.handled 1 }

/-! ## Locks -/

/-- An attempt to acquire a lock, with a warning if it fails. -/
def acquire (l : Lock) (msg : String) : Op υ Bool := do
  let w ← get
  set { w with lockTries := w.lockTries + 1 }
  if w.env.lockOk w.lockTries then
    modify fun w => { w with held := l :: w.held }
    pure true
  else
    warning msg
    pure false

/-- `WLOCK`. -/
def wlock (l : Lock) : Op υ Bool := acquire l "Failed to acquire write lock"

/-- `RLOCK`. -/
def rlock (l : Lock) : Op υ Bool := acquire l "Failed to acquire read lock"

/-- `WUNLOCK` and `RUNLOCK`. -/
def unlock (l : Lock) : Op υ Unit := modify fun w => { w with held := w.held.erase l }

/-- `immutable_cache_sma_lookup_fine_grained_lock`: `key_hash & 15`. -/
def fineGrainedLock (hash : Nat) : Lock := .fine (hash % fineGrainedLockCount)

/-- `immutable_cache_cache_wlock`: the global lock and then the fine-grained one. -/
def cacheWlock (hash : Nat) : Op υ Bool := do
  if ← wlock .global then
    if ← wlock (fineGrainedLock hash) then pure true
    else
      unlock .global
      pure false
  else pure false

/-- `immutable_cache_cache_wunlock`. -/
def cacheWunlock (hash : Nat) : Op υ Unit := do
  unlock (fineGrainedLock hash)
  unlock .global

/-! ## Serializers -/

/-- A serializer's function is called. It may bail out, and it may run user code, which is assumed not
to call the cache again. -/
def callback (serializer : Serializer υ) (entry : Option Nat) : Op υ Unit := do
  modify fun w => { w with callbacks := w.callbacks ++ [⟨serializer, entry, w.held⟩] }
  emalloc

/-- Several calls of `serialize`. -/
def serializeN (serializer : Serializer υ) : Nat → Op υ Unit
  | 0 => pure ()
  | n + 1 => do
    callback serializer none
    serializeN serializer n

/-- The number of calls of `serialize` so far. -/
def World.serializations (w : World υ) : Nat := w.callbacks.countP (·.entry.isNone)

/-! ## Shared memory -/

/-- `sma_allocate` in segment `i`, as an address. -/
def smaTry (pool : Pool) (i n : Nat) : Op υ (Option Nat) := do
  let w ← get
  let r := w.sma.allocate i n
  set { w with sma := r.2 }
  pure (r.1.map fun a => pool.shmaddr i + a.1)

/-- The loop of `immutable_cache_sma_malloc_ex` over the other segments. -/
def smaMallocLoop (pool : Pool) (n last : Nat) : List Nat → Op υ (Option Nat)
  | [] => pure none
  | i :: is => do
    if i = last then smaMallocLoop pool n last is
    else if ← wlock .global then
      match ← smaTry pool i n with
      | some p =>
        modify fun w => { w with sma := { w.sma with last := i } }
        unlock .global
        pure (some p)
      | none =>
        unlock .global
        smaMallocLoop pool n last is
    else pure none

/-- `immutable_cache_sma_malloc`. -/
def smaMalloc (pool : Pool) (n : Nat) : Op υ (Option Nat) := do
  let last := (← get).sma.last
  if ← wlock .global then
    match ← smaTry pool last n with
    | some p =>
      unlock .global
      pure (some p)
    | none =>
      unlock .global
      smaMallocLoop pool n last (List.range pool.num)
  else pure none

/-- `immutable_cache_sma_free`. -/
def smaFree (pool : Pool) (p : Nat) : Op υ Unit := do
  modify fun w => { w with freed := p :: w.freed }
  match pool.segmentOf p with
  | some i =>
    if ← wlock .global then
      modify fun w => { w with sma := w.sma.deallocate i (p - pool.shmaddr i) }
      unlock .global
  | none =>
    -- `immutable_cache_error` is fatal
    warning "immutable_cache_sma_free: could not locate address"
    bailout

end ImmutableCache
