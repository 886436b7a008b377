import ImmutableCache.Cache.Memory
import ImmutableCache.Iterator.Stack

/-!
# The iterator

`immutable_cache_iterator.c`: an `ImmutableCacheIterator` keeps the next slot to read, and a stack
of the items of the last chunk, with an index into it. A chunk is read under the global lock, whole
chains at a time. The methods refill the stack when the index has come to its size.
-/

namespace ImmutableCache

open Bail

/-- The array that the iterator gives for an entry; a field is left out if the format does not ask
for it. -/
structure ItemValue (υ : Type) where
  type : Option String
  key : Option Nat
  value : Option (Fetched υ)
  numHits : Option Nat
  creationTime : Option Nat
  accessTime : Option Nat
  memSize : Option Nat

/-- An `immutable_cache_iterator_item_t`. -/
structure Item (υ : Type) where
  key : Nat
  value : ItemValue υ

/-- The first argument of the constructor: nothing, a regular expression (as the set of the keys
that match it), or an array of keys. -/
inductive Search where
  | all
  | regex (matches? : Bytes → Bool)
  | keys (ks : List Bytes)

/-- An initialized `immutable_cache_iterator_t`. -/
structure Iterator (υ : Type) where
  format : Nat
  slotIdx : Nat
  chunkSize : Nat
  stack : Stack (Item υ)
  stackIdx : Int
  regex : Option (Bytes → Bool)
  searchHash : Option (List Bytes)
  keyIdx : Int
  totalsFlag : Bool
  hits : Nat
  size : Nat
  count : Nat

variable {υ : Type}

/-- `immutable_cache_iterator_obj_init` with valid arguments. -/
def Iterator.init (search : Search) (format chunkSize : Nat) : Iterator υ where
  format := format
  slotIdx := 0
  chunkSize := if chunkSize = 0 then 100 else chunkSize
  stack := .create chunkSize
  stackIdx := 0
  regex := match search with
    | .regex f => some f
    | _ => none
  searchHash := match search with
    | .keys ks => some ks
    | _ => none
  keyIdx := 0
  totalsFlag := false
  hits := 0
  size := 0
  count := 0

/-- `ImmutableCacheIterator::__construct`, when the cache is enabled: the errors are fatal, and an
invalid list type leaves the iterator uninitialized. -/
def iteratorConstruct (search : Search) (format chunkSize : Int) (list : Int) :
    Op υ (Option (Iterator υ)) := do
  if chunkSize < 0 then
    warning "ImmutableCacheIterator chunk size must be 0 or greater"
    bailout
  else if (format % 2 ^ 64).toNat > 2 ^ 32 - 1 then
    warning "ImmutableCacheIterator format is invalid"
    bailout
  else if list = 1 then
    emallocN 2
    pure (some (.init search (format % 2 ^ 64).toNat chunkSize.toNat))
  else
    warning "ImmutableCacheIterator invalid list type"
    pure none

/-- `immutable_cache_iterator_search_match` on the bytes of the key. -/
def Iterator.searchMatch (it : Iterator υ) (key : Bytes) : Bool :=
  match it.searchHash with
  | some ks => decide (key ∈ ks)
  | none =>
    match it.regex with
    | some f => f key
    | none => true

/-- The bytes of the key of an entry. -/
def entryKey (sp : Space) (shm : Mem) (e : Entry) : Bytes := (sp.zstr shm e.key).val

/-- `immutable_cache_iterator_item_ctor`. -/
def itemCtor (sp : Space) (php : Serializer υ) (it : Iterator υ) (p : Nat) : Op υ (Item υ) := do
  emallocN 3
  let value ← if it.format.testBit 2 then (some ·.2) <$> entryFetchZval sp php p else pure none
  emallocN 2
  let e := entryAt (← get).shm p
  let f {α : Type} (i : Nat) (a : α) : Option α := if it.format.testBit i then some a else none
  pure {
    key := e.key
    value := {
      type := f 0 "user", key := f 1 e.key, value, numHits := f 3 e.nhits
      creationTime := f 5 e.ctime, accessTime := f 7 e.atime, memSize := f 9 e.memSize } }

/-- The inner loop of a fetch, along a chain: the number of the matching entries, whose items are
pushed. -/
def fetchChain (sp : Space) (php : Serializer υ) :
    Nat → Option Nat → Iterator υ → Op υ (Nat × Iterator υ)
  | _, none, it => pure (0, it)
  | 0, some _, it => pure (0, it)
  | fuel + 1, some p, it => do
    let e := entryAt (← get).shm p
    if it.searchMatch (entryKey sp (← get).shm e) then
      let item ← itemCtor sp php it p
      let r ← fetchChain sp php fuel e.next { it with stack := it.stack.push item }
      pure (r.1 + 1, r.2)
    else fetchChain sp php fuel e.next it

/-- The outer loop of a fetch, over the slots that are left. -/
def fetchSlots (sp : Space) (php : Serializer υ) :
    Nat → Nat → Iterator υ → Op υ (Nat × Iterator υ)
  | 0, count, it => pure (count, it)
  | fuel + 1, count, it => do
    let w ← get
    if count ≤ it.chunkSize ∧ it.slotIdx < w.slots.length then
      let r ← fetchChain sp php w.header.nentries (w.slots.getD it.slotIdx none) it
      fetchSlots sp php fuel (count + r.1) { r.2 with slotIdx := r.2.slotIdx + 1 }
    else pure (count, it)

/-- `immutable_cache_iterator_fetch_active`: the number of entries fetched. -/
def fetchActive (sp : Space) (php : Serializer υ) (it : Iterator υ) :
    Op υ (Nat × Iterator υ) := do
  let it := { it with stack := it.stack.popAll it.stack.data.length }
  if ← rlock .global then
    ensuring
      (do
        let w ← get
        let r ← fetchSlots sp php (w.slots.length - it.slotIdx) 0 it
        pure (r.1, { r.2 with stackIdx := 0 }))
      (unlock .global)
  else pure (0, it)

/-! ## Totals -/

/-- The inner loop of the totals, along a chain. -/
def totalsChain (sp : Space) (shm : Mem) : Nat → Option Nat → Iterator υ → Iterator υ
  | _, none, it => it
  | 0, some _, it => it
  | fuel + 1, some p, it =>
    let e := entryAt shm p
    totalsChain sp shm fuel e.next
      (if it.searchMatch (entryKey sp shm e) then
        { it with size := it.size + e.memSize, hits := it.hits + e.nhits, count := it.count + 1 }
      else it)

/-- `immutable_cache_iterator_totals`. -/
def iteratorTotals (sp : Space) (it : Iterator υ) : Op υ (Iterator υ) := do
  if ← rlock .global then
    ensuring
      (do
        let w ← get
        let it := (List.range w.slots.length).foldl
          (fun it i => totalsChain sp w.shm w.header.nentries (w.slots.getD i none) it) it
        pure { it with totalsFlag := true })
      (unlock .global)
  else pure it

/-- The totals are computed at the first call of `getTotalHits`, `getTotalSize` or
`getTotalCount`. -/
def ensureTotals (sp : Space) (it : Iterator υ) : Op υ (Iterator υ) :=
  if it.totalsFlag then pure it else iteratorTotals sp it

/-- `ImmutableCacheIterator::getTotalHits`. -/
def getTotalHits (sp : Space) (it : Iterator υ) : Op υ (Nat × Iterator υ) :=
  (fun it => (it.hits, it)) <$> ensureTotals sp it

/-- `ImmutableCacheIterator::getTotalSize`. -/
def getTotalSize (sp : Space) (it : Iterator υ) : Op υ (Nat × Iterator υ) :=
  (fun it => (it.size, it)) <$> ensureTotals sp it

/-- `ImmutableCacheIterator::getTotalCount`. -/
def getTotalCount (sp : Space) (it : Iterator υ) : Op υ (Nat × Iterator υ) :=
  (fun it => (it.count, it)) <$> ensureTotals sp it

/-! ## The methods -/

/-- What `current` and `key` give: an item, an exception, or whatever lies outside the stack. -/
inductive Got (α : Type) where
  | item (a : α)
  | threw (msg : String)
  | outOfRange

/-- `ImmutableCacheIterator::rewind`. -/
def iteratorRewind (sp : Space) (php : Serializer υ) (it : Iterator υ) : Op υ (Iterator υ) :=
  (·.2) <$> fetchActive sp php { it with slotIdx := 0, stackIdx := 0, keyIdx := 0 }

/-- `ImmutableCacheIterator::valid`. -/
def iteratorValid (sp : Space) (php : Serializer υ) (it : Iterator υ) :
    Op υ (Bool × Iterator υ) := do
  let it ← if it.stack.size = it.stackIdx then (·.2) <$> fetchActive sp php it else pure it
  pure (decide (it.stack.size ≠ 0), it)

/-- The common part of `current` and `key`: refill the stack if need be, and get the item at the
index. -/
def iteratorGet (sp : Space) (php : Serializer υ) (msg : String) (it : Iterator υ) :
    Op υ (Got (Item υ) × Iterator υ) := do
  let r ← if it.stack.size = it.stackIdx then fetchActive sp php it else pure (1, it)
  if r.1 = 0 then
    emalloc
    pure (.threw msg, r.2)
  else
    match r.2.stack.get? (r.2.stackIdx % 2 ^ 64).toNat with
    | some item => pure (.item item, r.2)
    | none => pure (.outOfRange, r.2)

/-- `ImmutableCacheIterator::current`. -/
def iteratorCurrent (sp : Space) (php : Serializer υ) (it : Iterator υ) :
    Op υ (Got (ItemValue υ) × Iterator υ) := do
  match ← iteratorGet sp php "Cannot call current() on invalid iterator" it with
  | (.item item, it) => pure (.item item.value, it)
  | (.threw msg, it) => pure (.threw msg, it)
  | (.outOfRange, it) => pure (.outOfRange, it)

/-- `ImmutableCacheIterator::key`. -/
def iteratorKey (sp : Space) (php : Serializer υ) (it : Iterator υ) :
    Op υ (Got Nat × Iterator υ) := do
  match ← iteratorGet sp php "Cannot call key() on invalid iterator" it with
  | (.item item, it) => pure (.item item.key, it)
  | (.threw msg, it) => pure (.threw msg, it)
  | (.outOfRange, it) => pure (.outOfRange, it)

/-- `ImmutableCacheIterator::next`. -/
def iteratorNext (it : Iterator υ) : Iterator υ :=
  if it.stack.size = 0 then it
  else { it with stackIdx := toInt (it.stackIdx + 1), keyIdx := it.keyIdx + 1 }

/-! ## Iteration changes nothing -/

section

variable {R : World υ → World υ → Prop} [IsPreorder (World υ) R] {php : Serializer υ}

/-- Fetching the value of an entry leads to related states if the calls of serializers do. -/
theorem within_entryFetchZval (h : ∀ serializer p, Within R (callback serializer (some p)))
    (sp : Space) (p : Nat) : Within R (entryFetchZval sp php p) := by
  refine Within.get.bind fun w => ?_
  dsimp only
  split
  · exact (h _ _).bind fun _ => .pure _
  · exact .pure _

/-- So does the construction of an item, if allocations do, too. -/
theorem within_itemCtor (he : Within R emalloc)
    (h : ∀ serializer p, Within R (callback serializer (some p))) (sp : Space) (it : Iterator υ)
    (p : Nat) : Within R (itemCtor sp php it p) := by
  refine (within_emallocN he _).bind fun _ => ?_
  dsimp only
  split
  · exact (within_entryFetchZval h sp p).map.bind fun _ => (within_emallocN he _).bind fun _ =>
      Within.get.bind fun _ => .pure _
  · exact Within.bind (.pure _) fun _ => (within_emallocN he _).bind fun _ =>
      Within.get.bind fun _ => .pure _

/-- So does the loop over a chain, if the construction of items does. -/
theorem within_fetchChain {sp : Space} (h : ∀ it p, Within R (itemCtor sp php it p)) (fuel : Nat)
    (head : Option Nat) (it : Iterator υ) : Within R (fetchChain sp php fuel head it) := by
  induction fuel generalizing head it with
  | zero => cases head <;> exact .pure _
  | succ fuel ih =>
    cases head with
    | none => exact .pure _
    | some p =>
      refine Within.get.bind fun w => Within.get.bind fun w' => .ite ?_ (ih _ _)
      exact (h it p).bind fun _ => (ih _ _).bind fun _ => .pure _

/-- So does the loop over the slots. -/
theorem within_fetchSlots {sp : Space} (h : ∀ it p, Within R (itemCtor sp php it p))
    (fuel count : Nat) (it : Iterator υ) : Within R (fetchSlots sp php fuel count it) := by
  induction fuel generalizing count it with
  | zero => exact .pure _
  | succ fuel ih =>
    exact Within.get.bind fun w =>
      .ite ((within_fetchChain h _ _ _).bind fun _ => ih _ _) (.pure _)

namespace Permits

/-- So does `immutable_cache_iterator_fetch_active`, which also locks. -/
theorem fetchActive (hp : Permits R) {sp : Space} (h : ∀ it p, Within R (itemCtor sp php it p))
    (it : Iterator υ) : Within R (fetchActive sp php it) :=
  (hp.acquire _ _).bind fun _ =>
    .ite (.ensuring (Within.get.bind fun _ => (within_fetchSlots h _ _ _).bind fun _ => .pure _)
      (hp.unlock _)) (.pure _)

/-- `immutable_cache_iterator_totals` only locks. -/
theorem iteratorTotals (hp : Permits R) (sp : Space) (it : Iterator υ) :
    Within R (iteratorTotals sp it) :=
  (hp.acquire _ _).bind fun _ => .ite (.ensuring (Within.get.bind fun _ => .pure _) (hp.unlock _))
    (.pure _)

end Permits

end

namespace Harmless

variable (sp : Space) (php : Serializer υ)

/-- The construction of an item is harmless. -/
theorem itemCtor (it : Iterator υ) (p : Nat) : Harmless (itemCtor sp php it p) :=
  within_itemCtor emalloc (fun serializer p => callback serializer (some p)) sp it p

/-- `immutable_cache_iterator_fetch_active` is harmless. -/
theorem fetchActive (it : Iterator υ) : Harmless (fetchActive sp php it) :=
  permits.fetchActive (itemCtor sp php) it

/-- `immutable_cache_iterator_totals` is harmless. -/
theorem iteratorTotals (it : Iterator υ) : Harmless (iteratorTotals sp it) :=
  permits.iteratorTotals sp it

/-- `valid` is harmless. -/
theorem iteratorValid (it : Iterator υ) : Harmless (iteratorValid sp php it) := by
  unfold ImmutableCache.iteratorValid
  split
  · exact (map (fetchActive sp php it)).bind fun _ => .pure _
  · exact (pure it).bind fun _ => .pure _

/-- Getting the item for `current` or `key` is harmless. -/
theorem iteratorGet (msg : String) (it : Iterator υ) : Harmless (iteratorGet sp php msg it) := by
  have h : ∀ r : Nat × Iterator υ, Harmless (if r.1 = 0 then do
      ImmutableCache.emalloc
      Pure.pure (.threw msg, r.2)
    else
      match r.2.stack.get? (r.2.stackIdx % 2 ^ 64).toNat with
      | some item => Pure.pure (.item item, r.2)
      | none => Pure.pure (.outOfRange, r.2) : Op υ (Got (Item υ) × Iterator υ)) := by
    intro r
    refine .ite (emalloc.bind fun _ => .pure _) ?_
    split <;> exact .pure _
  unfold ImmutableCache.iteratorGet
  split
  · exact (fetchActive sp php it).bind h
  · exact (pure _).bind h

/-- `current` is harmless. -/
theorem iteratorCurrent (it : Iterator υ) : Harmless (iteratorCurrent sp php it) := by
  refine (iteratorGet sp php _ it).bind fun r => ?_
  obtain ⟨got, it'⟩ := r
  cases got <;> exact .pure _

/-- `key` is harmless. -/
theorem iteratorKey (it : Iterator υ) : Harmless (iteratorKey sp php it) := by
  refine (iteratorGet sp php _ it).bind fun r => ?_
  obtain ⟨got, it'⟩ := r
  cases got <;> exact .pure _

end Harmless

end ImmutableCache
