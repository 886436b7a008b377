import Mathlib.Algebra.BigOperators.Group.Finset.Basic
import Mathlib.Logic.Function.Basic
import Mathlib.Tactic

/-!
# Zend values in memory

The engine structures that the cache reads and writes: `zval`, `zend_string`, `Bucket`,
`HashTable` and the cache's own `immutable_cache_cache_entry_t`. A memory maps addresses to the
structures that start there; an address is a `Nat`, and a pointer field holds an address, so sharing
is equality of addresses. Fields that no modelled function reads (reference counts, `pDestructor`,
`nTableSize`) are left out.

The layout is that of PHP 8.2 on a 64-bit platform: packed arrays hold bare `zval`s, and the data
area of a table starts with the hash part.
-/

namespace ImmutableCache

/-- The bytes of a string. -/
abbrev Bytes := List UInt8

/-- A `zval`. The payload of a counted type is the address it points to; strings and arrays also
carry the refcounted bit of their type flags. -/
inductive Zval where
  | undef
  | null
  | bool (b : Bool)
  | long (lval : Int)
  | double (dval : UInt64)
  | string (p : Nat) (refcounted : Bool)
  | array (p : Nat) (refcounted : Bool)
  | object (p : Nat)
  | resource (p : Nat)
  | reference (p : Nat)
  | indirect (p : Nat)
  | ptr (p : Nat)
  deriving DecidableEq, Repr, Inhabited

namespace Zval

/-- `Z_TYPE_P(zv) < IS_STRING`: no data apart from the zval itself. -/
def isScalar : Zval → Bool
  | undef | null | bool _ | long _ | double _ => true
  | _ => false

/-- `Z_COUNTED_P` and `Z_PTR_P`: the pointer of the zval. -/
def counted : Zval → Nat
  | string p _ | array p _ | object p | resource p | reference p | indirect p | ptr p => p
  | _ => 0

/-- `Z_TYPE_P(zv) == IS_INDIRECT`. -/
def isIndirect : Zval → Bool
  | indirect _ => true
  | _ => false

/-- `Z_TYPE_P(zv) == IS_ARRAY`. -/
def isArray : Zval → Bool
  | array _ _ => true
  | _ => false

/-- `Z_TYPE_P(zv) == IS_OBJECT`. -/
def isObject : Zval → Bool
  | object _ => true
  | _ => false

end Zval

/-- A `zend_string`: whether its type info has the immutable and persistent flags, the cached hash
(0 when not yet computed) and the bytes. -/
structure ZendString where
  gcImmutable : Bool
  h : Nat
  val : Bytes
  deriving DecidableEq, Repr, Inhabited

/-- A `Bucket` of a hashed array; `key` is `NULL` for an integer key `h`. -/
structure Bucket where
  h : Nat
  key : Option Nat
  val : Zval
  deriving DecidableEq, Repr, Inhabited

/-- A `HashTable`. `hashSlots` is `-nTableMask`, the number of slots of the hash part, and
`dataAddr` is `HT_GET_DATA_ADDR`. -/
structure HashTable where
  gcImmutable : Bool
  packed : Bool
  staticKeys : Bool
  uninitialized : Bool
  hashSlots : Nat
  nNumUsed : Nat
  nNumOfElements : Nat
  nInternalPointer : Nat
  nNextFreeElement : Int
  dataAddr : Nat
  deriving DecidableEq, Repr, Inhabited

/-- An `immutable_cache_cache_entry_t`; `next` is `NULL` at the end of a chain. -/
structure Entry where
  key : Nat
  val : Zval
  next : Option Nat
  nhits : Nat
  ctime : Nat
  atime : Nat
  memSize : Nat
  deriving DecidableEq, Repr, Inhabited

/-- What starts at an address: a string, a table, the data area of a packed or of a hashed table
(its hash part and its used elements), a cache entry, or something that only the engine looks into
(an object, a resource, a reference). -/
inductive Obj where
  | str (s : ZendString)
  | ht (t : HashTable)
  | packed (hash : List Nat) (vals : List Zval)
  | buckets (hash : List Nat) (bs : List Bucket)
  | entry (e : Entry)
  | other
  deriving DecidableEq, Repr, Inhabited

/-- A memory. -/
abbrev Mem := Nat → Option Obj

/-! ## Sizes -/

/-- `ZEND_MM_ALIGNED_SIZE`. -/
def alignedSize (n : Nat) : Nat := (n + 7) / 8 * 8

/-- `_ZSTR_STRUCT_SIZE(len)`: header, bytes and the final NUL. -/
def zstrStructSize (len : Nat) : Nat := 24 + len + 1

/-- `sizeof(HashTable)`. -/
def sizeofHashTable : Nat := 56

/-- `sizeof(immutable_cache_cache_entry_t)`. -/
def sizeofEntry : Nat := 64

/-- `HT_USED_SIZE`: the hash part and the used buckets. -/
def htUsedSize (t : HashTable) : Nat := 4 * t.hashSlots + 32 * t.nNumUsed

/-- `HT_PACKED_USED_SIZE`: the hash part and the used zvals. -/
def htPackedUsedSize (t : HashTable) : Nat := 4 * t.hashSlots + 16 * t.nNumUsed

/-- `HT_INVALID_IDX`. -/
def htInvalidIdx : Nat := 2 ^ 32 - 1

/-- The number of slots behind `HT_MIN_MASK`. -/
def htMinSlots : Nat := 2

/-- Aligning a size does not make it 0. -/
theorem alignedSize_pos {n : Nat} (h : 0 < n) : 0 < alignedSize n := by
  unfold alignedSize
  omega

/-! ## The engine and the address space -/

/-- What the engine provides: the string hash, whose top bit is always set, and the addresses of
the two static arrays that tables without elements point to. -/
structure Zend where
  hash : Bytes → Nat
  hash_ne_zero : ∀ b, hash b ≠ 0
  /-- `zend_empty_array`. -/
  emptyArray : Nat
  /-- The persist code's own `uninitialized_bucket`. -/
  uninitializedBucket : Nat

/-- `ZSTR_HASH`: the cached hash of a string, or the hash of its bytes. -/
def Zend.zstrHash (z : Zend) (s : ZendString) : Nat := if s.h ≠ 0 then s.h else z.hash s.val

/-- The bytes that a string, or a table with its data area, takes up in memory. -/
def Obj.weight : Obj → Nat
  | .str s => alignedSize (zstrStructSize s.val.length)
  | .ht t => alignedSize sizeofHashTable + if t.nNumUsed = 0 then 0
      else alignedSize (if t.packed then htPackedUsedSize t else htUsedSize t)
  | _ => 0

/-- The address space of a process during a call: which addresses lie in the shared segments
(`immutable_cache_sma_contains_pointer`) and what the process has at the others. The memory of the
process lies at 64-bit addresses, its tables own their data areas, and its finitely many objects
fit side by side into less than a quarter of the address space. `exception` tells whether an exception
is pending when the call begins (`EG(exception)`). -/
structure Space where
  zend : Zend
  shared : Nat → Bool
  req : Mem
  req_lt : ∀ {p : Nat} {o : Obj}, req p = some o → p < 2 ^ 64
  data_owned : ∀ {p : Nat} {t : HashTable}, req p = some (.ht t) → shared t.dataAddr = false
  objects : Finset Nat
  mem_objects : ∀ {p : Nat} {o : Obj}, req p = some o → p ∈ objects
  fits : (∑ p ∈ objects, (req p).elim 0 Obj.weight) < 2 ^ 62
  exception : Bool := false

namespace Space

/-- What the process reads at `p` when the shared segments hold `shm`. -/
def deref (sp : Space) (shm : Mem) (p : Nat) : Option Obj :=
  if sp.shared p then shm p else sp.req p

/-- The string at `p`. -/
def zstr (sp : Space) (shm : Mem) (p : Nat) : ZendString :=
  match sp.deref shm p with
  | some (.str s) => s
  | _ => default

/-- The table at `p`. -/
def ht (sp : Space) (shm : Mem) (p : Nat) : HashTable :=
  match sp.deref shm p with
  | some (.ht t) => t
  | _ => default

/-- `HT_GET_DATA_ADDR` of a packed table: the hash part, and `arPacked` up to `nNumUsed`. -/
def arPacked (sp : Space) (shm : Mem) (t : HashTable) : List Nat × List Zval :=
  match sp.deref shm t.dataAddr with
  | some (.packed hash vals) => (hash, vals.take t.nNumUsed)
  | _ => ([], [])

/-- `HT_GET_DATA_ADDR` of a hashed table: the hash part, and `arData` up to `nNumUsed`. -/
def arData (sp : Space) (shm : Mem) (t : HashTable) : List Nat × List Bucket :=
  match sp.deref shm t.dataAddr with
  | some (.buckets hash bs) => (hash, bs.take t.nNumUsed)
  | _ => ([], [])

/-- Outside the shared segments a process reads its own memory. -/
theorem deref_req {sp : Space} {p : Nat} (h : sp.shared p = false) (shm : Mem) :
    sp.deref shm p = sp.req p := by simp [deref, h]

/-- Inside the shared segments every process reads the shared memory. -/
theorem deref_shared {sp : Space} {p : Nat} (h : sp.shared p = true) (shm : Mem) :
    sp.deref shm p = shm p := by simp [deref, h]

end Space

end ImmutableCache
