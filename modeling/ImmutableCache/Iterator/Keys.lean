import ImmutableCache.Iterator.Loop
import ImmutableCache.Zend.Array

/-!
# Iterating over an array of keys

Given an array, the iterator keeps its flipped form (`flipHash`) and looks the key of each entry up
in there. The strings of the array are found, and nothing else: an integer is an index of the
flipped array, and `zend_hash_exists` does not take a string for its integer. The loop over a table
that does not change gives what `immutable_cache_cache_fetch` and `immutable_cache_cache_stat` give
for each string of the array (`loop_keys`).
-/

namespace ImmutableCache

open Bail

/-! ## The flipped array -/

/-- `zend_hash_index_update`. -/
def zendHashIndexUpdate {α : Type} (a : ZendArray α) (h : Nat) (v : α) : ZendArray α :=
  if (zendHashFind a (.int h)).isSome then
    a.map fun x => if x.1 = .int h then (x.1, v) else x
  else a ++ [(.int h, v)]

/-- The body of the loop of `immutable_cache_flip_hash`. `lval` is what `Z_LVAL_P` reads of an
element that is not a string. -/
def flipEntry (sp : Space) (shm : Mem) (lval : Zval → Nat) (newHash : ZendArray Int) :
    Zval → ZendArray Int
  | .string p _ => zendHashUpdate newHash (sp.zstr shm p).val 1
  | entry => zendHashIndexUpdate newHash (lval entry) 1

/-- `immutable_cache_flip_hash` for an array with the given elements, once `ZVAL_DEREF` has been
applied to them. -/
def flipHash (sp : Space) (shm : Mem) (lval : Zval → Nat) (hash : List Zval) : ZendArray Int :=
  hash.foldl (flipEntry sp shm lval) []

/-- The strings for which `zend_hash_exists` finds something in the array. -/
def stringKeys {α : Type} (a : ZendArray α) : List Bytes :=
  a.filterMap fun x =>
    match x.1 with
    | .str k => some k
    | .int _ => none

/-- The search of an iterator that is constructed with an array whose flipped form is `a`. -/
def Search.flipped (a : ZendArray Int) : Search := .keys (stringKeys a)

variable {υ : Type} {sp : Space} {php : Serializer υ} {pool : Pool} {z : Zend} {shm : Mem}
  {w w' w₀ : World υ} {it : Iterator υ} {es : List (Nat × Bytes)} {live : Nat → Option Nat}
  {lval : Zval → Nat} {els : List Zval} {a : ZendArray Int} {p t key format chunkSize : Nat}
  {k : Bytes}

/-- The string keys of an array. -/
theorem mem_stringKeys : k ∈ stringKeys a ↔ Key.str k ∈ a.map Prod.fst := by
  simp only [stringKeys, List.mem_filterMap, List.mem_map]
  constructor
  · rintro ⟨⟨key, v⟩, hx, hk⟩
    cases key with
    | str k' =>
      cases hk
      exact ⟨_, hx, rfl⟩
    | int _ => cases hk
  · rintro ⟨⟨key, v⟩, hx, rfl⟩
    exact ⟨_, hx, rfl⟩

/-- An update at an integer key adds no string key. -/
theorem str_mem_indexUpdate {h : Nat} {v : Int} :
    Key.str k ∈ (zendHashIndexUpdate a h v).map Prod.fst ↔ Key.str k ∈ a.map Prod.fst := by
  unfold zendHashIndexUpdate
  split
  · rw [List.map_map]
    refine iff_of_eq (congrArg _ (List.map_congr_left fun x _ => ?_))
    dsimp only [Function.comp]
    split <;> rfl
  · simp

/-- An update at a string key adds no more than that key. -/
theorem str_mem_update {k' : Bytes} {v : Int} :
    Key.str k ∈ (zendHashUpdate a k' v).map Prod.fst ↔ Key.str k ∈ a.map Prod.fst ∨ k = k' := by
  rw [← zendHashFind_isSome, ← zendHashFind_isSome, zendHashFind_update]
  split
  next hk => simp_all
  next hk => simp_all

/-- An element adds a string key if and only if it is a string. -/
theorem str_mem_flipEntry {entry : Zval} :
    Key.str k ∈ (flipEntry sp shm lval a entry).map Prod.fst ↔
      Key.str k ∈ a.map Prod.fst ∨ ∃ p rc, entry = .string p rc ∧ (sp.zstr shm p).val = k := by
  unfold flipEntry
  split
  · rw [str_mem_update]
    grind
  next hne =>
    rw [str_mem_indexUpdate]
    exact (or_iff_left fun ⟨p, rc, hstr, _⟩ => hne p rc hstr).symm

/-- The string keys of the flipped array are the strings of the array. -/
theorem mem_flipHash : Key.str k ∈ (flipHash sp shm lval els).map Prod.fst ↔
    ∃ p rc, Zval.string p rc ∈ els ∧ (sp.zstr shm p).val = k := by
  suffices h : ∀ a : ZendArray Int,
      Key.str k ∈ (els.foldl (flipEntry sp shm lval) a).map Prod.fst ↔
        Key.str k ∈ a.map Prod.fst ∨ ∃ p rc, Zval.string p rc ∈ els ∧ (sp.zstr shm p).val = k by
    simpa [flipHash] using h []
  induction els with
  | nil => simp
  | cons entry els ih =>
    intro a
    rw [List.foldl_cons, ih, str_mem_flipEntry]
    grind

/-- The search looks keys up in the flipped array, with `zend_hash_exists`. -/
theorem searchMatch_flipped (k : Bytes) : (Iterator.init (.flipped a) format chunkSize :
    Iterator υ).searchMatch k = (zendHashFind a (.str k)).isSome := by
  rw [Bool.eq_iff_iff, zendHashFind_isSome, ← mem_stringKeys]
  exact decide_eq_true_iff

/-! ## The loop -/

/-- What the iterator gives for an entry with the key `k` is what the functions for a single key
give, as far as the format asks for it. -/
structure Item.Agrees (item : Item υ) (sp : Space) (php : Serializer υ) (w : World υ) (format : Nat)
    (k : Bytes) : Prop where
  key : (sp.zstr w.shm item.key).val = k
  fetch : ∀ key t r w', readStr sp.zend (w.view sp) key = some k →
    cacheFetch sp php key t w = .ok r w' →
      item.value.value = if format.testBit 2 then r.map Prod.snd else none
  stat : ∀ key r w', readStr sp.zend (w.view sp) key = some k → cacheStat sp key w = .ok r w' →
    item.value.numHits = (if format.testBit 3 then r.map Stat.hits else none) ∧
    item.value.creationTime = (if format.testBit 5 then r.map Stat.creationTime else none) ∧
    item.value.accessTime = if format.testBit 7 then r.map Stat.accessTime else none

/-- The bytes of the key of an entry of the table. -/
theorem World.Inv.entryKey_eq (h : w.Inv pool z es live) (hon : sp.On pool z) (hk : (p, k) ∈ es) :
    entryKey sp w.shm (entryAt w.shm p) = k := by
  obtain ⟨e, he, hpub, hstr⟩ := h.table.entry _ hk
  rw [entryAt_eq he]
  exact (hstr.zstr ((hon.shared _).trans (h.pub_shared hpub))).2

/-- What an iterator can give are the entries of the table that match. -/
theorem World.Inv.mem_all (h : w.Inv pool z es live) (hon : sp.On pool z) :
    p ∈ it.all sp w ↔ ∃ k, (p, k) ∈ es ∧ it.searchMatch k = true := by
  rw [Iterator.mem_all]
  constructor
  · rintro ⟨s, hs, hp⟩
    obtain ⟨k, hk, -, hm⟩ := (h.mem_matching hon hs).1 hp
    exact ⟨k, hk, hm⟩
  · rintro ⟨k, hk, hm⟩
    have hlt := Nat.mod_lt (z.hash k) h.table.nslots
    exact ⟨_, hlt, (h.mem_matching hon hlt).2 ⟨k, hk, rfl, hm⟩⟩

/-- It gives each of them once. -/
theorem World.Inv.nodup_all (h : w.Inv pool z es live) (hon : sp.On pool z)
    (php : Serializer υ) : (it.all sp w).Nodup := by
  have hlater : ∀ s < w.slots.length, Later pool z php w w ∧ Later pool z php w w :=
    fun _ _ => ⟨.refl, .refl⟩
  rw [Iterator.all, Iterator.between, Nat.sub_zero, ← List.range_eq_range']
  exact nodup_slots h hon hlater

/-- The item for an entry agrees with the functions for its key. -/
theorem World.Inv.agrees (h : w.Inv pool z es live) (hon : sp.On pool z)
    (hlocks : ∀ n, w.env.lockOk n = true) (hk : (p, k) ∈ es) :
    (it.itemOf sp php w p).Agrees sp php w it.format k := by
  have hz := hon.zend
  subst hz
  have hlookup : w.lookup es k = some p := by
    rw [World.lookup, if_pos (hlocks _)]
    exact (bound_eq_some h.table.keys).2 hk
  refine ⟨h.entryKey_eq hon hk, fun key t r w' hread hr => ?_, fun key r w' hread hr => ?_⟩
  · rw [h.view_eq] at hread
    obtain ⟨hfetch, -⟩ := Wp.of_ok (wp_cacheFetch h hon hread) hr
    rw [hfetch, World.fetched, hlookup]
    rfl
  · rw [h.view_eq] at hread
    obtain ⟨hstat, -⟩ := Wp.of_ok (wp_cacheStat h hon hread) hr
    rw [hstat, hlookup]
    exact ⟨rfl, rfl, rfl⟩

/-- On a table that does not change, a loop yields the items of the matching entries. -/
theorem Loop.yields_same {evs : List (IterEvent υ)} {ys : List (Got Nat × Got (ItemValue υ))}
    (h : Loop sp php it w₀ evs ys) (hp : it.Placed) (hs : ∀ e ∈ evs, e.Sound sp)
    (hsame : ∀ e ∈ evs, w₀.Same e.world) :
    ys = (it.all sp w₀).map fun p => (it.itemOf sp php w₀ p).yield := by
  obtain ⟨W, hW, rfl⟩ := h.yields hp hs fun e he => by rw [hsame e he]
  have hsame' (s : Nat) (hs : s ∈ List.range' 0 w₀.slots.length) :
      (it.matching sp (W s) s).map (it.itemOf sp php (W s)) =
        (it.matching sp w₀ s).map (it.itemOf sp php w₀) := by
    obtain ⟨e, he, hWe⟩ := hW s (by simpa [List.mem_range'] using hs)
    rw [hWe, (hsame e he).matching, (hsame e he).itemOf]
  rw [Iterator.items, Nat.sub_zero, List.flatMap_congr hsame', Iterator.all, Iterator.between,
    Nat.sub_zero, List.map_flatMap, List.map_flatMap]
  simp only [List.map_map]
  rfl

/-- The loop of an iterator over an array of keys, which may have been used before, yields each of
the strings of the array that are bound in the table, once, with what fetch and stat give for it. -/
theorem loop_keys {hist : List (Event υ)} {pre evs : List (IterEvent υ)}
    {ys : List (Got Nat × Got (ItemValue υ))} (hc : Created pool w)
    (hrun : Run (Step pool z php) w hist w₀) (hlocks : ∀ n, w.env.lockOk n = true)
    (hon : sp.On pool z) (hpre : Run (IterStep sp php)
      (.init (.flipped (flipHash sp shm lval els)) format chunkSize) pre it)
    (hspre : ∀ e ∈ pre, e.Sound sp) (hloop : Loop sp php it w₀ evs ys)
    (hs : ∀ e ∈ evs, e.Sound sp) (hsame : ∀ e ∈ evs, w₀.Same e.world) :
    ∃ ks : List Bytes, ks.Nodup ∧
      (∀ k, k ∈ ks ↔ (∃ p rc, Zval.string p rc ∈ els ∧ (sp.zstr shm p).val = k) ∧
        bound w₀.entries k ≠ none) ∧
      List.Forall₂ (fun k y => ∃ item : Item υ, y = item.yield ∧
        item.Agrees sp php w₀ format k) ks ys := by
  obtain ⟨-, hdr, sz, hinv⟩ := hc.inv z
  obtain ⟨es, live, hinv, hle⟩ := run_kept hrun hinv
  have hlocks : ∀ n, w₀.env.lockOk n = true := hle.env ▸ hlocks
  obtain ⟨hp, halike⟩ := iterRun_alike hpre (.init _ format chunkSize) hspre
  have hformat : it.format = format := halike.1
  have hmatch (k : Bytes) : it.searchMatch k = true ↔
      ∃ p rc, Zval.string p rc ∈ els ∧ (sp.zstr shm p).val = k := by
    rw [halike.searchMatch, searchMatch_flipped, zendHashFind_isSome, mem_flipHash]
  -- the matching entries, with their keys
  have hall {p : Nat} (hp : p ∈ it.all sp w₀) : ∃ k, (p, k) ∈ es ∧ it.searchMatch k = true ∧
      entryKey sp w₀.shm (entryAt w₀.shm p) = k := by
    obtain ⟨k, hk, hm⟩ := (hinv.mem_all hon).1 hp
    exact ⟨k, hk, hm, hinv.entryKey_eq hon hk⟩
  refine ⟨(it.all sp w₀).map fun p => entryKey sp w₀.shm (entryAt w₀.shm p), ?_, fun k => ?_, ?_⟩
  · refine (hinv.nodup_all hon php).map_on fun p hp q hq heq => ?_
    obtain ⟨k, hk, -, hkey⟩ := hall hp
    obtain ⟨k', hk', -, hkey'⟩ := hall hq
    obtain rfl : k = k' := hkey.symm.trans (heq.trans hkey')
    have hb := (bound_eq_some hinv.table.keys).2 hk
    exact Option.some.inj (hb.symm.trans ((bound_eq_some hinv.table.keys).2 hk'))
  · rw [← hmatch, hinv.bound_entries, List.mem_map]
    constructor
    · rintro ⟨p, hp, rfl⟩
      obtain ⟨k, hk, hm, hkey⟩ := hall hp
      rw [hkey, (bound_eq_some hinv.table.keys).2 hk]
      exact ⟨hm, by simp⟩
    · rintro ⟨hm, hb⟩
      obtain ⟨p, hp⟩ := Option.ne_none_iff_exists'.1 hb
      have hk := (bound_eq_some hinv.table.keys).1 hp
      exact ⟨p, (hinv.mem_all hon).2 ⟨k, hk, hm⟩, hinv.entryKey_eq hon hk⟩
  · rw [hloop.yields_same hp hs hsame, List.forall₂_map_left_iff, List.forall₂_map_right_iff,
      List.forall₂_same]
    intro p hp
    obtain ⟨k, hk, -, hkey⟩ := hall hp
    have hagrees : (it.itemOf sp php w₀ p).Agrees sp php w₀ it.format k :=
      hinv.agrees hon hlocks hk
    rw [hformat] at hagrees
    exact ⟨_, rfl, hkey ▸ hagrees⟩

namespace Small

/-- An iterator over the array `["a", 1]` that gives the values and the counters. -/
def keyIterator : Iterator Bytes :=
  .init (.flipped (flipHash Small.sp (fun _ => none) (fun _ => 1) [.string 104 true, .long 1])) 172 0

end Small

/-- The loop over the small table yields its entry. -/
theorem loop_keys_small : ∃ evs ys,
    Loop Small.sp Small.php Small.keyIterator Small.filled evs ys ∧ ys.length = 1 ∧
    ∃ ks : List Bytes, ks.Nodup ∧ List.Forall₂ (fun k y => ∃ item : Item Bytes, y = item.yield ∧
      item.Agrees Small.sp Small.php Small.filled 172 k) ks ys := by
  obtain ⟨hist, hrun⟩ := Small.filled_run
  have hgives : Small.gives (runLoop Small.sp Small.php 2 Small.keyIterator) Small.filled (fun r =>
      r.any fun r => decide (r.2.length = 1 ∧ ∀ e ∈ r.1, e.Sound Small.sp)) = true := by
    decide +kernel
  obtain ⟨r, w', hr, hf⟩ := Small.of_gives hgives
  cases r with
  | none => cases hf
  | some r =>
    obtain ⟨hlen, hs⟩ := of_decide_eq_true hf
    obtain ⟨hloop, hsame⟩ := runLoop_loop hr
    have hpre : Run (IterStep Small.sp Small.php) Small.keyIterator [] Small.keyIterator := .nil
    obtain ⟨ks, hnodup, -, hks⟩ :=
      loop_keys Small.created hrun (fun _ => rfl) Small.on hpre (by simp) hloop hs hsame
    exact ⟨r.1, r.2, hloop, hlen, ks, hnodup, hks⟩

end ImmutableCache
