import ImmutableCache.Zend.Memory

/-!
# Copying a value into shared memory

`immutable_cache_persist.c`. Persisting an entry makes two passes over the value graph: the `calc`
pass adds up the bytes that the copy needs, the `copy` pass bump-allocates every string and table
from one block of that size and rewrites the pointers. Both passes skip what already lies in the
shared segments and visit a repeated pointer once, each with a memo table of its own. A value that
cannot be shared as a graph is serialized to one string, which the entry holds as an `IS_PTR`.

The mutual recursion of `calc_zval` and `calc_ht`, and of `copy_zval` and `copy_ht`, goes down one
level of nesting at each table. `calcHt` and `copyHt` recurse on a bound on the nesting depth, and
`calcZval` and `copyZval` take the function for the tables below as an argument. The copy of a
table's data area is built as a list and written once: the C code fills it in place, and reads
nothing of it until it is complete.
-/

namespace ImmutableCache

/-- The moment of a call of `serialize`: the number of serializations done before, and whether an
exception is pending (`EG(exception)`). -/
structure Moment where
  serializations : Nat
  exception : Bool

/-- An `immutable_cache_serializer_t`. `serialize` also gets the moment of the call (it may run user
code, so two calls on one value can differ) and the memory in which the value lies; `none` is failure.
The string it gives is one that the process has room for. `throws` tells whether the call leaves a new
exception. `unserialize` depends on the string alone. User code that runs in a call of either does not
call the cache. -/
structure Serializer (υ : Type) where
  name : String
  serialize : Moment → Mem → Zval → Option Bytes
  throws : Moment → Mem → Zval → Bool
  unserialize : Bytes → Option υ
  serialize_lt : ∀ {m : Moment} {rd : Mem} {v : Zval} {buf : Bytes},
    serialize m rd v = some buf → buf.length < 2 ^ 62

/-- The engine's `php_var_serialize`, with the exceptions that it throws, and
`php_var_unserialize`. -/
structure PhpVar (υ : Type) where
  varSerialize : Moment → Mem → Zval → Option Bytes
  varThrows : Moment → Mem → Zval → Bool
  varUnserialize : Bytes → Option υ
  varSerialize_lt : ∀ {m : Moment} {rd : Mem} {v : Zval} {buf : Bytes},
    varSerialize m rd v = some buf → buf.length < 2 ^ 62

/-- `IMMUTABLE_CACHE_SERIALIZER_NAME(php)` and `IMMUTABLE_CACHE_UNSERIALIZER_NAME(php)`. The string is
given up whenever an exception is pending afterwards, even if `php_var_serialize` has not thrown it. -/
def phpSerializer {υ : Type} (var : PhpVar υ) : Serializer υ where
  name := "php"
  serialize m rd v :=
    if m.exception || var.varThrows m rd v then none else var.varSerialize m rd v
  throws := var.varThrows
  unserialize := var.varUnserialize
  serialize_lt h := by
    split at h
    · cases h
    · exact var.varSerialize_lt h

/-- An `immutable_cache_persist_context_t`, with the shared memory as the copy writes it, the
warnings raised, the numbers of serializations and of request-heap allocations done, whether
`serialize` has thrown, and whether the assertion of `persist_alloc` has failed. An allocation is
counted for each new memo entry, each serialization and each warning; any of them may abort the
call. -/
structure Ctxt where
  size : Nat
  memoizationNeeded : Bool
  useSerialization : Bool
  serializedStr : Option Bytes
  alloc : Nat
  allocCur : Nat
  alreadyCounted : List Nat
  alreadyAllocated : List (Nat × Nat)
  shm : Mem
  warnings : List String
  serializations : Nat
  emallocs : Nat
  exception : Bool
  overrun : Bool

/-- `immutable_cache_shr3`: rotate right by three bits. -/
def shr3 (index : Nat) : Nat := 2 ^ 61 * (index % 8) + index / 8

/-- `immutable_cache_pointer_to_hash_key`. -/
def pointerToHashKey (p : Nat) : Nat := shr3 p

namespace Ctxt

/-- `immutable_cache_persist_init_context`. What has happened so far stays. -/
def initContext (shm : Mem) (warnings : List String) (serializations emallocs : Nat)
    (exception : Bool) : Ctxt where
  size := 0
  memoizationNeeded := false
  useSerialization := false
  serializedStr := none
  alloc := 0
  allocCur := 0
  alreadyCounted := []
  alreadyAllocated := []
  shm := shm
  warnings := warnings
  serializations := serializations
  emallocs := emallocs
  exception := exception
  overrun := false

/-- `ADD_SIZE`. -/
def addSize (c : Ctxt) (sz : Nat) : Ctxt := { c with size := c.size + alignedSize sz }

/-- `ADD_SIZE_STR`. -/
def addSizeStr (c : Ctxt) (len : Nat) : Ctxt := c.addSize (zstrStructSize len)

/-- `immutable_cache_persist_alloc`. -/
def persistAlloc (c : Ctxt) (sz : Nat) : Nat × Ctxt :=
  let cur := c.allocCur + alignedSize sz
  (c.allocCur,
    { c with allocCur := cur, overrun := c.overrun || decide (c.alloc + c.size < cur) })

/-- Write an object into shared memory. -/
def write (c : Ctxt) (p : Nat) (o : Obj) : Ctxt :=
  { c with shm := Function.update c.shm p (some o) }

@[simp] theorem persistAlloc_fst (c : Ctxt) (sz : Nat) : (c.persistAlloc sz).1 = c.allocCur := rfl

@[simp] theorem persistAlloc_allocCur (c : Ctxt) (sz : Nat) :
    (c.persistAlloc sz).2.allocCur = c.allocCur + alignedSize sz := rfl

@[simp] theorem persistAlloc_shm (c : Ctxt) (sz : Nat) : (c.persistAlloc sz).2.shm = c.shm := rfl

@[simp] theorem write_allocCur (c : Ctxt) (p : Nat) (o : Obj) :
    (c.write p o).allocCur = c.allocCur := rfl

/-- Writing an object changes its address. -/
theorem write_shm (c : Ctxt) (p : Nat) (o : Obj) :
    (c.write p o).shm = Function.update c.shm p (some o) := rfl

@[simp] theorem write_shm_self (c : Ctxt) (p : Nat) (o : Obj) : (c.write p o).shm p = some o := by
  simp [write_shm]

/-- And no other. -/
theorem write_shm_of_ne {c : Ctxt} {p q : Nat} {o : Obj} (h : q ≠ p) :
    (c.write p o).shm q = c.shm q := by
  simp [write_shm, h]

end Ctxt

section

variable {υ : Type} (sp : Space)

/-! ## The sizing pass -/

/-- `immutable_cache_persist_calc_memoize`: whether `p` has been counted before. -/
def calcMemoize (c : Ctxt) (p : Nat) : Bool × Ctxt :=
  if !c.memoizationNeeded then (false, c)
  else if pointerToHashKey p ∈ c.alreadyCounted then (true, c)
  else
    (false, { c with
      alreadyCounted := pointerToHashKey p :: c.alreadyCounted, emallocs := c.emallocs + 1 })

/-- `immutable_cache_persist_calc_str`. -/
def calcStr (c : Ctxt) (str : Nat) : Ctxt :=
  if sp.shared str then c
  else
    match calcMemoize c str with
    | (true, c) => c
    | (false, c) => c.addSizeStr (sp.zstr c.shm str).val.length

/-- `immutable_cache_persist_calc_serialize`. -/
def calcSerialize (serializer : Serializer υ) (c : Ctxt) (zv : Zval) : Bool × Ctxt :=
  let m : Moment := ⟨c.serializations, sp.exception || c.exception⟩
  let r := serializer.serialize m (sp.deref c.shm) zv
  let c := { c with
    serializations := c.serializations + 1
    emallocs := c.emallocs + 1
    exception := c.exception || serializer.throws m (sp.deref c.shm) zv }
  match r with
  | none => (false, c)
  | some buf => (true, { c with serializedStr := some buf }.addSizeStr buf.length)

/-- `immutable_cache_persist_calc_zval`, given the function for the tables below. -/
def calcZval (serializer : Serializer υ) (calcHt : Ctxt → HashTable → Bool × Ctxt) (c : Ctxt)
    (zv : Zval) : Bool × Ctxt :=
  if zv.isScalar then (true, c)
  else if c.useSerialization then calcSerialize sp serializer c zv
  else if sp.shared zv.counted then (true, c)
  else
    match calcMemoize c zv.counted with
    | (true, c) => (true, c)
    | (false, c) =>
      match zv with
      | .string p _ => (true, c.addSizeStr (sp.zstr c.shm p).val.length)
      | .array p _ => calcHt c (sp.ht c.shm p)
      | .reference _ | .object _ => (false, { c with useSerialization := true })
      | .resource _ =>
        (false, { c with
          warnings := c.warnings ++ ["Cannot store resources in immutable_cache cache"]
          emallocs := c.emallocs + 1 })
      -- `EMPTY_SWITCH_DEFAULT_CASE`
      | _ => (false, c)

/-- The loop of `immutable_cache_persist_calc_ht` over a packed table. -/
def calcPacked (calcZval : Ctxt → Zval → Bool × Ctxt) : Ctxt → List Zval → Bool × Ctxt
  | c, [] => (true, c)
  | c, v :: vs =>
    match calcZval c v with
    | (false, c) => (false, c)
    | (true, c) => calcPacked calcZval c vs

/-- Count the key of a bucket, if it has one. -/
def calcKey (c : Ctxt) : Option Nat → Ctxt
  | some key => calcStr sp c key
  | none => c

/-- The loop of `immutable_cache_persist_calc_ht` over a hashed table. -/
def calcBuckets (calcZval : Ctxt → Zval → Bool × Ctxt) : Ctxt → List Bucket → Bool × Ctxt
  | c, [] => (true, c)
  | c, b :: bs =>
    if b.val = .undef then calcBuckets calcZval c bs
    else if b.val.isIndirect then (false, { c with useSerialization := true })
    else
      match calcZval (calcKey sp c b.key) b.val with
      | (false, c) => (false, c)
      | (true, c) => calcBuckets calcZval c bs

/-- `immutable_cache_persist_calc_ht` on a table nested at most `depth` deep. -/
def calcHt (serializer : Serializer υ) : Nat → Ctxt → HashTable → Bool × Ctxt
  | 0, c, _ => (false, c)
  | depth + 1, c, ht =>
    let c := c.addSize sizeofHashTable
    if ht.nNumUsed = 0 then (true, c)
    else if ht.packed then
      calcPacked (calcZval sp serializer (calcHt serializer depth))
        (c.addSize (htPackedUsedSize ht)) (sp.arPacked c.shm ht).2
    else
      calcBuckets sp (calcZval sp serializer (calcHt serializer depth))
        (c.addSize (htUsedSize ht)) (sp.arData c.shm ht).2

/-- `immutable_cache_persist_calc`. -/
def persistCalc (serializer : Serializer υ) (depth : Nat) (c : Ctxt) (entry : Entry) :
    Bool × Ctxt :=
  let c := c.addSize sizeofEntry
  let c := calcStr sp c entry.key
  calcZval sp serializer (calcHt sp serializer depth) c entry.val

/-! ## The copying pass -/

/-- `immutable_cache_persist_get_already_allocated`. -/
def getAlreadyAllocated (c : Ctxt) (p : Nat) : Option Nat :=
  if sp.shared p then some p
  else if c.memoizationNeeded then c.alreadyAllocated.lookup (pointerToHashKey p)
  else none

/-- `immutable_cache_persist_add_already_allocated`. -/
def addAlreadyAllocated (c : Ctxt) (oldPtr newPtr : Nat) : Ctxt :=
  if c.memoizationNeeded then
    { c with
      alreadyAllocated := (pointerToHashKey oldPtr, newPtr) :: c.alreadyAllocated
      emallocs := c.emallocs + 1 }
  else c

@[simp] theorem addAlreadyAllocated_allocCur (c : Ctxt) (p q : Nat) :
    (addAlreadyAllocated c p q).allocCur = c.allocCur := by
  unfold addAlreadyAllocated
  split <;> rfl

@[simp] theorem addAlreadyAllocated_shm (c : Ctxt) (p q : Nat) :
    (addAlreadyAllocated c p q).shm = c.shm := by
  unfold addAlreadyAllocated
  split <;> rfl

/-- `immutable_cache_persist_copy_cstr`: an immutable string in shared memory with the hash
precomputed. -/
def copyCstr (c : Ctxt) (buf : Bytes) (hash : Nat) : Nat × Ctxt :=
  let (str, c) := c.persistAlloc (zstrStructSize buf.length)
  let s : ZendString := { gcImmutable := true, h := hash, val := buf }
  (str, c.write str (.str { s with h := sp.zend.zstrHash s }))

/-- `immutable_cache_persist_get_or_copy_zstr`. -/
def getOrCopyZstr (c : Ctxt) (origStr : Nat) : Nat × Ctxt :=
  match getAlreadyAllocated sp c origStr with
  | some str => (str, c)
  | none =>
    let orig := sp.zstr c.shm origStr
    let (str, c) := copyCstr sp c orig.val orig.h
    (str, addAlreadyAllocated c origStr str)

/-- `ZVAL_STR`: the type flags of the zval follow the string's interned flag. -/
def zvalStr (c : Ctxt) (str : Nat) : Zval := .string str (!(sp.zstr c.shm str).gcImmutable)

/-- `immutable_cache_persist_copy_serialize`: the serialized string as an `IS_PTR`. -/
def copySerialize (c : Ctxt) : Zval × Ctxt :=
  let (str, c) := copyCstr sp c (c.serializedStr.getD []) 0
  (.ptr str, c)

/-- `immutable_cache_persist_copy_zval` and its `_impl`, given the function for the tables below.
The last case is the fatal error on a reference and the unreachable default. -/
def copyZval (copyHt : Ctxt → Nat → Nat × Ctxt) (c : Ctxt) (zv : Zval) : Zval × Ctxt :=
  if zv.isScalar then (zv, c)
  else if c.useSerialization then copySerialize sp c
  else
    let ptr := getAlreadyAllocated sp c zv.counted
    match zv with
    | .string p _ =>
      let (str, c) := match ptr with
        | some str => (str, c)
        | none => getOrCopyZstr sp c p
      (zvalStr sp c str, c)
    | .array p _ =>
      let (arr, c) := match ptr with
        | some arr => (arr, c)
        | none => copyHt c p
      (.array arr false, c)
    | zv => (zv, c)

/-- `ht->nInternalPointer = idx` at the first element. -/
def HashTable.setInternalPointer (ht : HashTable) (idx : Nat) : HashTable :=
  if ht.nInternalPointer = htInvalidIdx then { ht with nInternalPointer := idx } else ht

/-- A `zend_ulong` read as a `zend_long`. -/
def toZendLong (n : Nat) : Int :=
  if n % 2 ^ 64 < 2 ^ 63 then (n % 2 ^ 64 : Nat) else (n % 2 ^ 64 : Nat) - 2 ^ 64

/-- `ht->nNextFreeElement = h + 1` when the integer key `h` is not below it. -/
def HashTable.bumpNextFree (ht : HashTable) (h : Nat) : HashTable :=
  if ht.nNextFreeElement ≤ toZendLong h then { ht with nNextFreeElement := toZendLong (h + 1) }
  else ht

/-- The loop of `immutable_cache_persist_copy_ht` over a packed table, from index `idx`. -/
def copyPacked (copyZval : Ctxt → Zval → Zval × Ctxt) :
    Ctxt → HashTable → Nat → List Zval → List Zval × HashTable × Ctxt
  | c, ht, _, [] => ([], ht, c)
  | c, ht, idx, v :: vs =>
    if v = .undef then
      let (vs', ht, c) := copyPacked copyZval c ht (idx + 1) vs
      (v :: vs', ht, c)
    else
      let ht := (ht.setInternalPointer idx).bumpNextFree idx
      let (v', c) := copyZval c v
      let (vs', ht, c) := copyPacked copyZval c ht (idx + 1) vs
      (v' :: vs', ht, c)

/-- Copy the key of a bucket, or account for its integer key. -/
def copyKey (c : Ctxt) (ht : HashTable) (b : Bucket) : Option Nat × HashTable × Ctxt :=
  match b.key with
  | some key =>
    let (key, c) := getOrCopyZstr sp c key
    (some key, ht, c)
  | none => (none, ht.bumpNextFree b.h, c)

/-- The loop of `immutable_cache_persist_copy_ht` over a hashed table, from index `idx`. -/
def copyBuckets (copyZval : Ctxt → Zval → Zval × Ctxt) :
    Ctxt → HashTable → Nat → List Bucket → List Bucket × HashTable × Ctxt
  | c, ht, _, [] => ([], ht, c)
  | c, ht, idx, b :: bs =>
    if b.val = .undef then
      let (bs', ht, c) := copyBuckets copyZval c ht (idx + 1) bs
      (b :: bs', ht, c)
    else
      let (key, ht, c) := copyKey sp c (ht.setInternalPointer idx) b
      let (val, c) := copyZval c b.val
      let (bs', ht, c) := copyBuckets copyZval c ht (idx + 1) bs
      ({ b with key := key, val := val } :: bs', ht, c)

/-- The header of the copy of a table without used elements. -/
def HashTable.copyEmpty (z : Zend) (orig : HashTable) : HashTable :=
  { orig with
    gcImmutable := true, packed := false, staticKeys := false, uninitialized := true
    nNextFreeElement := 0, hashSlots := htMinSlots, dataAddr := z.uninitializedBucket }

/-- The header of the copy of a table with used elements, before the loop over them. -/
def HashTable.copyHeader (orig : HashTable) : HashTable :=
  { orig with
    gcImmutable := true, staticKeys := true, nNextFreeElement := 0
    nInternalPointer := htInvalidIdx }

/-- The packed branch of `immutable_cache_persist_copy_ht`, for the copy at `p`. -/
def copyPackedData (copyZval : Ctxt → Zval → Zval × Ctxt) (c : Ctxt) (p : Nat)
    (orig : HashTable) : Ctxt :=
  let data := sp.arPacked c.shm orig
  let (d, c) := c.persistAlloc (htPackedUsedSize orig)
  let (vals, ht, c) := copyPacked copyZval c orig.copyHeader 0 data.2
  (c.write d (.packed data.1 vals)).write p (.ht { ht with dataAddr := d })

/-- The bucket branch of `immutable_cache_persist_copy_ht`, for the copy at `p`. -/
def copyBucketData (copyZval : Ctxt → Zval → Zval × Ctxt) (c : Ctxt) (p : Nat)
    (orig : HashTable) : Ctxt :=
  let data := sp.arData c.shm orig
  let (d, c) := c.persistAlloc (htUsedSize orig)
  let (bs, ht, c) := copyBuckets sp copyZval c orig.copyHeader 0 data.2
  (c.write d (.buckets data.1 bs)).write p (.ht { ht with dataAddr := d })

/-- `immutable_cache_persist_copy_ht` on the table at `origHt`, nested at most `depth` deep. -/
def copyHt : Nat → Ctxt → Nat → Nat × Ctxt
  | 0, c, origHt => (origHt, c)
  | depth + 1, c, origHt =>
    let orig := sp.ht c.shm origHt
    let (p, c) := c.persistAlloc sizeofHashTable
    let c := addAlreadyAllocated c origHt p
    if orig.nNumUsed = 0 then (p, c.write p (.ht (orig.copyEmpty sp.zend)))
    else if orig.packed then (p, copyPackedData sp (copyZval sp (copyHt depth)) c p orig)
    else (p, copyBucketData sp (copyZval sp (copyHt depth)) c p orig)

/-- `immutable_cache_persist_copy`, with the `mem_size` that `immutable_cache_persist` sets on the
finished entry. -/
def persistCopy (depth : Nat) (c : Ctxt) (orig : Entry) : Nat × Ctxt :=
  let (entry, c) := c.persistAlloc sizeofEntry
  let (key, c) := getOrCopyZstr sp c orig.key
  let (val, c) := copyZval sp (copyHt sp depth) c orig.val
  (entry, c.write entry (.entry { orig with key := key, val := val, memSize := c.size }))

/-! ## Both passes -/

/-- The sizing half of `immutable_cache_persist`: the first attempt, and the attempt with
serialization if the first one asks for it. `php` is the serializer used when none is set, and `k`
serializations have been done before. -/
def persistSize (php : Serializer υ) (serializer : Option (Serializer υ)) (depth : Nat) (shm : Mem)
    (k : Nat) (orig : Entry) : Bool × Ctxt :=
  let ser := serializer.getD php
  let c := { Ctxt.initContext shm [] k 0 false with
    memoizationNeeded := serializer.isNone && orig.val.isArray
    useSerialization := orig.val.isObject || (serializer.isSome && orig.val.isArray) }
  match persistCalc sp ser depth c orig with
  | (true, c) => (true, c)
  | (false, c) =>
    if c.useSerialization then
      persistCalc sp ser depth
        { Ctxt.initContext shm c.warnings c.serializations c.emallocs c.exception with
          useSerialization := true } orig
    else (false, c)

/-- The copying half of `immutable_cache_persist`, into the block that was allocated in `shm`. -/
def persistFill (depth : Nat) (c : Ctxt) (shm : Mem) (alloc : Nat) (orig : Entry) : Nat × Ctxt :=
  persistCopy sp depth { c with alloc := alloc, allocCur := alloc, shm := shm } orig

end

/-! ## Reading a value back -/

/-- What a fetch writes to its destination: a zval that points into memory, or a value that the
unserializer built. -/
inductive Fetched (υ : Type) where
  | zval (zv : Zval)
  | unserialized (v : υ)

/-- `immutable_cache_unpersist_zval_impl`: strings and arrays are used where they lie, and an array
without elements is replaced by the engine's empty array. -/
def unpersistZval (sp : Space) (shm : Mem) (zv : Zval) : Zval :=
  match zv with
  | .string p _ => .string p false
  | .array p rc =>
    if (sp.ht shm p).nNumOfElements = 0 then .array sp.zend.emptyArray false else .array p rc
  | zv => zv

/-- The values on which `immutable_cache_unpersist_zval_impl` ends in a fatal error ("Found a
reference in shared memory") or in a failed assertion. -/
def unpersistFatal : Zval → Bool
  | .reference _ | .object _ | .resource _ | .indirect _ => true
  | _ => false

/-- `immutable_cache_unpersist`, with `unpersist_serialized` for an `IS_PTR`: whether it succeeded
and what it wrote. -/
def unpersist {υ : Type} (sp : Space) (shm : Mem) (serializer : Serializer υ) (value : Zval) :
    Bool × Fetched υ :=
  match value with
  | .ptr p =>
    match serializer.unserialize (sp.zstr shm p).val with
    | some v => (true, .unserialized v)
    | none => (false, .zval .null)
  | zv => (true, .zval (unpersistZval sp shm zv))

/-! ## A small process

Processes with a few objects, for which instances of the results are stated. -/

namespace Small

/-- The engine, with the hash of `DJBX33A`. -/
def zend : Zend where
  hash b := b.foldl (fun h c => (h * 33 + c.toNat) % 2 ^ 63) 5381 + 2 ^ 63
  hash_ne_zero b := by omega
  emptyArray := 16
  uninitializedBucket := 24

/-- The shared segments: one of 1 MiB. -/
def shared (p : Nat) : Bool := decide (2 ^ 32 ≤ p ∧ p < 2 ^ 32 + 2 ^ 20)

/-- The engine's empty array. -/
def emptyArray : Nat × Obj :=
  (16, .ht { gcImmutable := true, packed := true, staticKeys := true, uninitialized := true
             hashSlots := 2, nNumUsed := 0, nNumOfElements := 0, nInternalPointer := 0
             nNextFreeElement := 0, dataAddr := 24 })

/-- What is found at an address is in the list. -/
theorem mem_of_find {os : List (Nat × Obj)} {p : Nat} {o : Obj}
    (h : (os.find? fun x => x.1 = p).map Prod.snd = some o) : (p, o) ∈ os := by
  obtain ⟨x, hx, rfl⟩ := Option.map_eq_some_iff.1 h
  have hp : x.1 = p := by simpa using List.find?_some hx
  rw [← hp]
  exact List.mem_of_find?_eq_some hx

/-- The address space of a process with the objects in a list. -/
def space (os : List (Nat × Obj)) (hlt : ∀ x ∈ os, x.1 < 2 ^ 64)
    (howned : ∀ x ∈ os, ∀ t, x.2 = .ht t → shared t.dataAddr = false)
    (hfits : (∑ p ∈ (os.map Prod.fst).toFinset,
      ((os.find? fun x => x.1 = p).map Prod.snd).elim 0 Obj.weight) < 2 ^ 62) : Space where
  zend := zend
  shared := shared
  req p := (os.find? fun x => x.1 = p).map Prod.snd
  req_lt h := hlt _ (mem_of_find h)
  data_owned h := howned _ (mem_of_find h) _ rfl
  objects := (os.map Prod.fst).toFinset
  mem_objects h := List.mem_toFinset.2 (List.mem_map_of_mem (mem_of_find h))
  fits := hfits

/-- The objects of the process: the engine's empty array, the strings `"a"` and `"b"`, and the
packed array `["b"]` with its data area. -/
def objects : List (Nat × Obj) :=
  [emptyArray, (104, .str ⟨false, 0, [97]⟩), (136, .str ⟨false, 0, [98]⟩),
    (168, .ht { gcImmutable := false, packed := true, staticKeys := true, uninitialized := false
                hashSlots := 2, nNumUsed := 1, nNumOfElements := 1, nInternalPointer := 0
                nNextFreeElement := 1, dataAddr := 224 }),
    (224, .packed [htInvalidIdx, htInvalidIdx] [.string 136 true])]

def sp : Space :=
  space objects (by decide) (fun x hx t ht => by fin_cases hx <;> cases ht <;> decide) (by decide)

/-- A process that has the string `s` at 104. -/
def strSpace (s : Bytes) (hs : s.length ≤ 20) : Space :=
  space [emptyArray, (104, .str ⟨false, 0, s⟩)] (by simp [emptyArray])
    (fun x hx t ht => by
      fin_cases hx <;> cases ht
      decide) (by
      have hpair : ([emptyArray, (104, .str ⟨false, 0, s⟩)].map Prod.fst).toFinset = {16, 104} := rfl
      rw [hpair, Finset.sum_pair (by decide)]
      change 56 + alignedSize (zstrStructSize s.length) < 2 ^ 62
      unfold alignedSize zstrStructSize
      omega)

/-- Every value is serialized to one string, without an exception, and the values that are
unserialized are the strings themselves. -/
def phpVar : PhpVar Bytes where
  varSerialize _ _ _ := some [78, 59]
  varThrows _ _ _ := false
  varUnserialize := some
  varSerialize_lt h := by
    cases h
    decide

/-- The built-in serializer. -/
def php : Serializer Bytes := phpSerializer phpVar

end Small

end ImmutableCache
