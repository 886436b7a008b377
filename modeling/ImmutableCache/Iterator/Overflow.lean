import ImmutableCache.Iterator.Loop

/-!
# Stacks that are too large for an `int`

`immutable_cache_stack_size` returns the `size_t` size of a stack as an `int`. After a chunk with
2³² items the size of the stack is 0 for `valid`, and the loop ends without yielding any of them
(`loop_not_exact`).
-/

namespace ImmutableCache

open Bail

/-! ## With enough memory a fetch returns -/

namespace Steady

variable {υ : Type} (sp : Space) (php : Serializer υ)

/-- `immutable_cache_cache_entry_fetch_zval` keeps the environment. -/
theorem entryFetchZval (p : Nat) : Steady (entryFetchZval sp php p) := by
  refine get.bind fun w => ?_
  dsimp only
  split
  · exact (callback _ _).bind fun _ => .pure _
  · exact .pure _

/-- So does the construction of an item. -/
theorem itemCtor (it : Iterator υ) (p : Nat) : Steady (itemCtor sp php it p) := by
  refine (emallocN _).bind fun _ => ?_
  dsimp only
  split
  · exact (map (entryFetchZval sp php p)).bind fun _ => (emallocN _).bind fun _ =>
      get.bind fun _ => .pure _
  · exact (pure _).bind fun _ => (emallocN _).bind fun _ => get.bind fun _ => .pure _

/-- So does the loop over a chain. -/
theorem fetchChain (fuel : Nat) (head : Option Nat) (it : Iterator υ) :
    Steady (fetchChain sp php fuel head it) := by
  induction fuel generalizing head it with
  | zero => cases head <;> exact .pure _
  | succ fuel ih =>
    cases head with
    | none => exact .pure _
    | some p =>
      refine get.bind fun w => get.bind fun w' => .ite ?_ (ih _ _)
      exact (itemCtor sp php it p).bind fun _ => (ih _ _).bind fun _ => .pure _

/-- So does the loop over the slots. -/
theorem fetchSlots (fuel count : Nat) (it : Iterator υ) :
    Steady (fetchSlots sp php fuel count it) := by
  induction fuel generalizing count it with
  | zero => exact .pure _
  | succ fuel ih =>
    exact get.bind fun w => .ite ((fetchChain sp php _ _ _).bind fun _ => ih _ _) (.pure _)

/-- So does `immutable_cache_iterator_fetch_active`. -/
theorem fetchActive (it : Iterator υ) : Steady (fetchActive sp php it) :=
  (acquire _ _).bind fun _ =>
    .ite (.ensuring (get.bind fun _ => (fetchSlots sp php _ _ _).bind fun _ => .pure _) (unlock _))
      (.pure _)

end Steady

/-! ## A table with one long chain -/

namespace Wide

/-- An engine in whose tables all keys share a slot. -/
def zend : Zend where
  hash _ := 2 ^ 63 + 128
  hash_ne_zero _ := by decide
  emptyArray := 16
  uninitializedBucket := 24

def sp : Space where
  zend := zend
  shared p := decide (2 ^ 32 ≤ p ∧ p < 2 ^ 32 + 2 ^ 40)
  req _ := none
  req_lt h := nomatch h
  data_owned h := nomatch h
  objects := ∅
  mem_objects h := nomatch h
  fits := by decide

/-- The address of the `i`-th entry; its key follows the entry. -/
def addr (i : Nat) : Nat := 2 ^ 32 + 128 * i

/-- The key of the `i`-th entry: the five bytes of the number `i`. -/
def key (i : Nat) : Bytes :=
  [UInt8.ofNat i, UInt8.ofNat (i / 2 ^ 8), UInt8.ofNat (i / 2 ^ 16), UInt8.ofNat (i / 2 ^ 24),
    UInt8.ofNat (i / 2 ^ 32)]

/-- The address of the `i`-th entry, if there are so many. -/
def link (n i : Nat) : Option Nat := if i < n then some (addr i) else none

/-- The `i`-th of `n` entries. -/
def entry (n i : Nat) : Entry where
  key := addr i + 64
  val := .long 0
  next := link n (i + 1)
  nhits := 0
  ctime := 0
  atime := 0
  memSize := 96

/-- The shared memory with `n` entries and their keys. -/
def shm (n : Nat) : Mem := fun q =>
  let i := (q - 2 ^ 32) / 128
  if q = addr i ∧ i < n then some (.entry (entry n i))
  else if q = addr i + 64 ∧ i < n then some (.str ⟨true, 2 ^ 63 + 128, key i⟩)
  else none

def entries (n : Nat) : List (Nat × Bytes) := (List.range n).map fun i => (addr i, key i)

/-- The slots of a table with one chain. -/
def slots (n m : Nat) : List (Option Nat) := link n 0 :: List.replicate m none

/-- The cache with `n` entries. Locks are acquired, and the allocations in the request heap
succeed. -/
def world (n : Nat) : World Bytes where
  env := ⟨fun _ => true, fun _ => true, false, fun _ => false⟩
  lockTries := 0
  emallocs := 0
  held := []
  callbacks := []
  warnings := []
  thrown := 0
  freed := []
  encoder := fun _ => none
  sma := ⟨0, fun _ => smaInitSegment (2 ^ 40)⟩
  shm := shm n
  header := ⟨0, 0, n, n, 96 * n, 0⟩
  slots := slots n 256
  serializer := none
  loadedSerializer := false

/-- An iterator over all entries. -/
def iterator : Iterator Bytes := .init .all 0 0

variable {n i j : Nat}

/-- Different entries have different keys. -/
theorem key_inj (hi : i < 2 ^ 40) (hj : j < 2 ^ 40) (h : key i = key j) : i = j := by
  simp only [key, List.cons.injEq, and_true, ← UInt8.toNat_inj, UInt8.toNat_ofNat'] at h
  omega

/-- The entries are at their addresses. -/
theorem shm_addr (h : i < n) : shm n (addr i) = some (.entry (entry n i)) := by
  have hdiv : (addr i - 2 ^ 32) / 128 = i := by
    unfold addr
    omega
  rw [shm, hdiv, if_pos ⟨rfl, h⟩]

/-- So are their keys. -/
theorem shm_key (h : i < n) : shm n (addr i + 64) = some (.str ⟨true, 2 ^ 63 + 128, key i⟩) := by
  have hdiv : (addr i + 64 - 2 ^ 32) / 128 = i := by
    unfold addr
    omega
  rw [shm, hdiv, if_neg (by omega), if_pos ⟨rfl, h⟩]

/-- The addresses of the entries, in order. -/
theorem entries_fst : (entries n).map Prod.fst = (List.range n).map addr := by
  rw [entries, List.map_map]
  rfl

/-- The entries are linked one after the other. -/
theorem chain_from (m : Nat) (h : i + m = n) :
    Chain (nextAt (shm n)) (link n i) ((List.range' i m).map addr) := by
  induction m generalizing i with
  | zero => exact if_neg (by omega)
  | succ m ih =>
    have hi : i < n := by omega
    refine ⟨if_pos hi, ?_⟩
    rw [nextAt, entryAt_eq (shm_addr hi)]
    exact ih (by omega)

/-- One slot heads the chain of all entries. -/
theorem chain : Chain (nextAt (shm n)) (link n 0) ((List.range n).map addr) := by
  rw [List.range_eq_range']
  exact chain_from n (Nat.zero_add n)

/-- The other slots are empty. -/
theorem getD_slots (n m : Nat) {s : Nat} (hs : s ≠ 0) : (slots n m).getD s none = none := by
  obtain ⟨s, rfl⟩ := Nat.exists_eq_succ_of_ne_zero hs
  rw [slots, Nat.succ_eq_add_one, List.getD_cons_succ, List.getD_eq_getElem?_getD,
    List.getElem?_replicate]
  split <;> rfl

/-- The number of slots of the table. -/
theorem length_slots (n m : Nat) : (slots n m).length = m + 1 := by
  rw [slots, List.length_cons, List.length_replicate]

/-- The number of slots of the small table. -/
theorem length_world : (world n).slots.length = 257 := length_slots n 256

/-- The table is well-formed. -/
theorem table (h : n ≤ 2 ^ 32) : Table zend (fun p => sp.shared p = true) (world n).shm
    (world n).slots (entries n) where
  nslots := by
    rw [length_world]
    exact Nat.zero_lt_succ _
  nodup := by
    rw [entries_fst]
    exact List.nodup_range.map fun i j hij => by
      unfold addr at hij
      omega
  keys := by
    rw [entries, List.map_map]
    refine List.Nodup.map_on (fun i hi j hj hij => ?_) List.nodup_range
    rw [List.mem_range] at hi hj
    exact key_inj (by omega) (by omega) hij
  entry x hx := by
    obtain ⟨i, hi, rfl⟩ := List.mem_map.1 hx
    rw [List.mem_range] at hi
    refine ⟨entry n i, shm_addr hi, ?_, _, shm_key hi, rfl, rfl, rfl⟩
    simp only [sp, entry, addr, decide_eq_true_eq]
    omega
  chain s hs := by
    have hhash : ∀ k, zend.hash k % (world n).slots.length = 0 := by
      intro k
      rw [length_world]
      change (2 ^ 63 + 128) % 257 = 0
      norm_num
    rw [chainOf]
    simp only [hhash]
    by_cases h0 : s = 0
    · subst h0
      simp only [decide_true, List.filter_true, entries_fst]
      exact chain
    · simp only [Ne.symm h0, decide_false, List.filter_false, List.map_nil]
      exact getD_slots n 256 h0

/-- All entries lie in the first slot. -/
theorem matching (it : Iterator Bytes) (hit : it.searchMatch = fun _ => true) (s : Nat) :
    it.matching sp (world n) s = if s = 0 then (List.range n).map addr else [] := by
  have hselect (ps : List Nat) : it.select sp (world n) ps = ps := by
    rw [Iterator.select, hit]
    exact List.filter_true ps
  rw [Iterator.matching, hselect, World.chain]
  split
  next h0 =>
    subst h0
    exact walk_eq chain (by simp [world])
  next h0 =>
    rw [world, getD_slots n 256 h0]
    cases n <;> rfl

/-- Behind the first slot there is nothing. -/
theorem between (it : Iterator Bytes) (hit : it.searchMatch = fun _ => true) {s e : Nat}
    (hs : 0 < s) : it.between sp (world n) s e = [] := by
  refine List.flatMap_eq_nil_iff.2 fun i hi => ?_
  rw [List.mem_range'_1] at hi
  rw [matching it hit, if_neg (by omega)]

/-- A fetch at the start reads the first slot only. -/
theorem chunkEnd (it : Iterator Bytes) (hit : it.searchMatch = fun _ => true)
    (h0 : it.slotIdx = 0) (hn : it.chunkSize < n) : it.chunkEnd sp (world n) = 1 := by
  have hslot : it.slotIdx < (world n).slots.length := by
    rw [h0, length_world]
    exact Nat.zero_lt_succ _
  have hfuel : (world n).slots.length - it.slotIdx = 255 + 1 + 1 := by rw [h0, length_world]
  rw [Iterator.chunkEnd, hfuel, Iterator.chunkEndFrom, if_pos ⟨Nat.zero_le _, hslot⟩,
    Iterator.chunkEndFrom, h0, matching it hit, if_pos rfl, List.length_map, List.length_range,
    if_neg (by omega)]

/-- After `rewind` all the items are on the stack. -/
theorem rewind (hn : 100 < n) : ∃ it w', iteratorRewind sp Small.php iterator (world n) = .ok it w' ∧
    it.searchMatch = (fun _ => true) ∧ it.stack.data.length = n ∧ it.stackIdx = 0 ∧
      it.slotIdx = 1 := by
  have hsteady : Steady (iteratorRewind sp Small.php iterator) := .map (.fetchActive sp Small.php _)
  obtain ⟨it, w', hok, -⟩ := hsteady.ok (world n) fun _ => rfl
  refine ⟨it, w', hok, ?_⟩
  obtain ⟨r, hfetch, rfl⟩ := of_map_eq_ok hok
  have hhit : iterator.rewound.searchMatch = fun _ => true := rfl
  have hend : iterator.rewound.chunkEnd sp (world n) = 1 := chunkEnd _ hhit rfl hn
  have hchunk : iterator.rewound.chunk sp (world n) = (List.range n).map addr := by
    rw [Iterator.chunk, hend]
    exact (Iterator.between_succ 0).trans (matching _ hhit 0)
  have hlt : iterator.rewound.stack.data.length < 2 ^ 31 := by
    have hnil : iterator.rewound.stack.data = [] := rfl
    rw [hnil, List.length_nil]
    exact Nat.two_pow_pos 31
  obtain ⟨-, s, ⟨-, -, hr, hdata⟩ | ⟨hno, -⟩⟩ := Wp.of_ok (wp_fetchActive hlt) hfetch
  · rw [hr]
    dsimp only
    refine ⟨rfl, ?_, rfl, ?_⟩
    · rw [hdata, hchunk, List.length_map, List.length_map, List.length_range]
    · rw [← hend]
  · cases hno

/-- A stack whose size an `int` takes for 0 is taken for an empty one. -/
theorem valid {it : Iterator Bytes} (hit : it.searchMatch = fun _ => true)
    (hsize : it.stack.size = 0) (hidx : it.stackIdx = 0) (hslot : it.slotIdx = 1) :
    ∃ it' w', iteratorValid sp Small.php it (world n) = .ok (false, it') w' := by
  have hdue : it.stack.size = it.stackIdx := hsize.trans hidx.symm
  have hsteady : Steady (iteratorValid sp Small.php it) := by
    unfold iteratorValid
    rw [if_pos hdue]
    exact (Steady.map (.fetchActive sp Small.php _)).bind fun _ => .pure _
  obtain ⟨⟨b, it'⟩, w', hok, -⟩ := hsteady.ok (world n) fun _ => rfl
  suffices hb : b = false from ⟨it', w', hb ▸ hok⟩
  suffices hwp : Wp (iteratorValid sp Small.php it) (world n) (fun r _ => r.1 = false) fun _ => True
    from (hwp.of_ok hok :)
  unfold iteratorValid
  rw [if_pos hdue]
  simp only [wp_bind, wp_map, wp_pure]
  refine wp_fetchActive_popAll.mono (fun r w₁ h₁ => ?_) fun _ => id
  obtain ⟨-, s, ⟨-, -, hr, hdata⟩ | ⟨hno, -⟩⟩ := h₁
  · have hchunk : it.chunk sp (world n) = [] := between it hit (by rw [hslot]; exact one_pos)
    rw [Stack.popAll_of_size hsize.le, hchunk, List.map_nil, List.append_nil] at hdata
    have hs : s.size = it.stack.size := by
      unfold Stack.size
      rw [hdata]
    rw [hr]
    dsimp only
    rw [hs, hsize]
    rfl
  · cases hno

end Wide

/-- When an `int` takes the number of entries for 0, `rewind` fetches them all, `valid` says that
there is none, and the loop ends. -/
theorem Wide.loop {n : Nat} (hn : 100 < n) (hwrap : toInt n = 0) :
    ∃ evs, Loop sp Small.php iterator (world n) evs [] := by
  obtain ⟨it, w', hrewind, hit, hlen, hidx, hslot⟩ := rewind hn
  have hsize : it.stack.size = 0 := by
    unfold Stack.size
    rw [hlen, hwrap]
  obtain ⟨it', w'', hvalid⟩ := valid (n := n) hit hsize hidx hslot
  exact ⟨_, .mk ⟨rfl, w', map_eq_ok hrewind⟩ (.stop ⟨rfl, w'', map_eq_ok hvalid⟩)⟩

/-- Of 2³² entries the loop yields none. -/
theorem loop_not_exact : ∃ (w : World Bytes) (it : Iterator Bytes) (es : List (Nat × Bytes))
    (evs : List (IterEvent Bytes)),
    Table Wide.zend (fun p => Wide.sp.shared p = true) w.shm w.slots es ∧
      (it.all Wide.sp w).length = 2 ^ 32 ∧ Loop Wide.sp Small.php it w evs [] := by
  have hit : Wide.iterator.searchMatch = fun _ => true := rfl
  obtain ⟨evs, hloop⟩ := Wide.loop (n := 2 ^ 32) (by norm_num) (by decide)
  refine ⟨Wide.world (2 ^ 32), Wide.iterator, _, evs, Wide.table le_rfl, ?_, hloop⟩
  have hle : 1 ≤ (Wide.world (2 ^ 32)).slots.length := by
    rw [Wide.length_world]
    norm_num
  rw [Iterator.all, ← Iterator.between_append (Nat.zero_le 1) hle,
    Wide.between _ hit Nat.one_pos, List.append_nil]
  have hfirst : Wide.iterator.between Wide.sp (Wide.world (2 ^ 32)) 0 1 =
      (List.range (2 ^ 32)).map Wide.addr :=
    (Iterator.between_succ 0).trans (Wide.matching _ hit 0)
  rw [hfirst, List.length_map, List.length_range]

end ImmutableCache
