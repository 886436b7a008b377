import ImmutableCache.Cache.Statistics
import ImmutableCache.Iterator.Calls

/-!
# The loop over an iterator

`rewind(); while (valid()) { key(); current(); next(); }`. Other processes may execute requests
between two calls, so that a slot is read in the state that the cache is in when its chunk is
fetched. The items of the slots that are left are still to come (`While.yields`): the loop yields
the matching entries of the table, each once, in the order of the slots and of the chains, and
those that are added meanwhile at most once (`loop_exact`).
-/

namespace ImmutableCache

open Bail

variable {υ : Type} {sp : Space} {php : Serializer υ} {pool : Pool} {z : Zend}
  {w w' w₀ : World υ} {it it' : Iterator υ} {es : List (Nat × Bytes)} {live : Nat → Option Nat}

/-- What the loop gets for an item, from `key` and `current`. -/
def Item.yield (item : Item υ) : Got Nat × Got (ItemValue υ) := (.item item.key, .item item.value)

/-- One round of the loop: `valid` says that there is an item, and `key`, `current` and `next` are
called. -/
inductive Round (sp : Space) (php : Serializer υ) (it : Iterator υ) :
    List (IterEvent υ) → Got Nat × Got (ItemValue υ) → Iterator υ → Prop
  | mk {it₁ it₂ it₃ it' : Iterator υ} {w₁ w₂ w₃ w₄ : World υ} {k : Got Nat}
      {v : Got (ItemValue υ)} :
      IterStep sp php it ⟨it, w₁, .valid, .valid true⟩ it₁ →
      IterStep sp php it₁ ⟨it₁, w₂, .key, .key k⟩ it₂ →
      IterStep sp php it₂ ⟨it₂, w₃, .current, .current v⟩ it₃ →
      IterStep sp php it₃ ⟨it₃, w₄, .next, .done⟩ it' →
      Round sp php it [⟨it, w₁, .valid, .valid true⟩, ⟨it₁, w₂, .key, .key k⟩,
        ⟨it₂, w₃, .current, .current v⟩, ⟨it₃, w₄, .next, .done⟩] (k, v) it'

/-- The loop after `rewind`, up to the `valid` that ends it, with what it yields. -/
inductive While (sp : Space) (php : Serializer υ) :
    Iterator υ → List (IterEvent υ) → List (Got Nat × Got (ItemValue υ)) → Prop
  | stop {it it' : Iterator υ} {w : World υ} :
      IterStep sp php it ⟨it, w, .valid, .valid false⟩ it' →
      While sp php it [⟨it, w, .valid, .valid false⟩] []
  | round {it it' : Iterator υ} {evs evs' : List (IterEvent υ)} {y : Got Nat × Got (ItemValue υ)}
      {ys : List (Got Nat × Got (ItemValue υ))} :
      Round sp php it evs y it' → While sp php it' evs' ys →
      While sp php it (evs ++ evs') (y :: ys)

/-- The whole loop, whose `rewind` meets the state `w₀`. -/
inductive Loop (sp : Space) (php : Serializer υ) (it : Iterator υ) (w₀ : World υ) :
    List (IterEvent υ) → List (Got Nat × Got (ItemValue υ)) → Prop
  | mk {it' : Iterator υ} {evs : List (IterEvent υ)} {ys : List (Got Nat × Got (ItemValue υ))} :
      IterStep sp php it ⟨it, w₀, .rewind, .done⟩ it' → While sp php it' evs ys →
      Loop sp php it w₀ (⟨it, w₀, .rewind, .done⟩ :: evs) ys

/-! ## The calls -/

namespace IterStep

/-- What a call of `rewind` runs. -/
theorem rewind_ok (h : IterStep sp php it ⟨it, w, .rewind, .done⟩ it') :
    ∃ w', iteratorRewind sp php it w = .ok it' w' := by
  obtain ⟨-, w', hrun⟩ := h
  obtain ⟨it₁, hok, heq⟩ := of_map_eq_ok hrun
  cases heq
  exact ⟨w', hok⟩

/-- What a call of `valid` runs. -/
theorem valid_ok {b : Bool} (h : IterStep sp php it ⟨it, w, .valid, .valid b⟩ it') :
    ∃ w', iteratorValid sp php it w = .ok (b, it') w' := by
  obtain ⟨-, w', hrun⟩ := h
  obtain ⟨r, hok, heq⟩ := of_map_eq_ok hrun
  cases heq
  exact ⟨w', hok⟩

/-- What a call of `key` runs. -/
theorem key_ok {k : Got Nat} (h : IterStep sp php it ⟨it, w, .key, .key k⟩ it') :
    ∃ w', iteratorKey sp php it w = .ok (k, it') w' := by
  obtain ⟨-, w', hrun⟩ := h
  obtain ⟨r, hok, heq⟩ := of_map_eq_ok hrun
  cases heq
  exact ⟨w', hok⟩

/-- What a call of `current` runs. -/
theorem current_ok {v : Got (ItemValue υ)}
    (h : IterStep sp php it ⟨it, w, .current, .current v⟩ it') :
    ∃ w', iteratorCurrent sp php it w = .ok (v, it') w' := by
  obtain ⟨-, w', hrun⟩ := h
  obtain ⟨r, hok, heq⟩ := of_map_eq_ok hrun
  cases heq
  exact ⟨w', hok⟩

end IterStep

namespace Iterator

/-- The items on the stack that have not been yielded. -/
def pending (it : Iterator υ) : List (Item υ) := it.stack.data.drop it.stackIdx.toNat

/-- The items of the slots from `s` to `e`, each read in its own state. -/
def items (it : Iterator υ) (sp : Space) (php : Serializer υ) (W : Nat → World υ) (s e : Nat) :
    List (Item υ) :=
  (List.range' s (e - s)).flatMap fun s => (it.matching sp (W s) s).map (it.itemOf sp php (W s))

variable {W W' : Nat → World υ} {s m e : Nat}

/-- Alike iterators have the same items. -/
theorem Alike.items (h : it.Alike it') : it'.items sp php W s e = it.items sp php W s e := by
  simp only [Iterator.items, h.matching, h.itemOf]

/-- The items of slots that are read in the same states. -/
theorem items_congr (h : ∀ i, s ≤ i → i < e → W' i = W i) :
    it.items sp php W' s e = it.items sp php W s e := by
  refine List.flatMap_congr fun i hi => ?_
  rw [List.mem_range'_1] at hi
  rw [h i hi.1 (by omega)]

/-- The items up to a slot, and those from it on. -/
theorem items_append (h1 : s ≤ m) (h2 : m ≤ e) :
    it.items sp php W s m ++ it.items sp php W m e = it.items sp php W s e := by
  have hr : List.range' s (e - s) = List.range' s (m - s) ++ List.range' m (e - m) := by
    have h1 : s + (m - s) = m := by omega
    have h2 : m - s + (e - m) = e - s := by omega
    rw [← h2, ← List.range'_append_1, h1]
  rw [items, items, items, hr, List.flatMap_append]

/-- The items of slots that are read in one state. -/
theorem items_const : it.items sp php (fun _ => w) s e =
    (it.between sp w s e).map (it.itemOf sp php w) := by
  rw [items, between, List.map_flatMap]

namespace Placed

variable (h : it.Placed)

include h

/-- When a fetch is due, no item is left on the stack. -/
theorem pending_of_due (hd : it.Due) : it.pending = [] := by
  have heq := h.due_iff.1 hd
  rw [pending, List.drop_eq_nil_iff]
  omega

/-- `next` at an item passes it. -/
theorem next_at (hlt : it.stackIdx < it.stack.data.length) :
    (iteratorNext it).Placed ∧ it.Alike (iteratorNext it) ∧
      (iteratorNext it).slotIdx = it.slotIdx ∧ (iteratorNext it).pending = it.pending.tail := by
  have hb := h.bound
  have h0 := h.nonneg
  have hne : ¬ it.stack.size = 0 := by
    rw [Stack.size_eq hb]
    omega
  have hidx : toInt (it.stackIdx + 1) = it.stackIdx + 1 := by
    unfold toInt
    rw [Int.bmod_def]
    omega
  have hnext : iteratorNext it = { it with stackIdx := it.stackIdx + 1, keyIdx := it.keyIdx + 1 } := by
    rw [iteratorNext, if_neg hne, hidx]
  refine ⟨h.next (.inr hlt), ?_⟩
  rw [hnext]
  refine ⟨⟨rfl, rfl, rfl, rfl⟩, rfl, ?_⟩
  have hsucc : (it.stackIdx + 1).toNat = it.stackIdx.toNat + 1 := by omega
  rw [pending, pending, hsucc, List.tail_drop]

/-- A round takes the first item that is pending, or fetches a chunk and takes its first item. -/
theorem round {evs : List (IterEvent υ)} {y : Got Nat × Got (ItemValue υ)}
    (hr : Round sp php it evs y it') (hs : ∀ e ∈ evs, e.Sound sp) :
    it'.Placed ∧ it.Alike it' ∧ ∃ item, y = item.yield ∧
      (it.pending = item :: it'.pending ∧ it'.slotIdx = it.slotIdx ∨
        it.pending = [] ∧ ∃ e ∈ evs, it'.slotIdx = it.chunkEnd sp e.world ∧
          (it.chunk sp e.world).map (it.itemOf sp php e.world) = item :: it'.pending) := by
  cases hr with
  | @mk it₁ it₂ it₃ it₄ w₁ w₂ w₃ w₄ k v hvalid hkey hcurrent hnext =>
    obtain ⟨w₁', hvalid⟩ := hvalid.valid_ok
    obtain ⟨w₂', hkey⟩ := hkey.key_ok
    obtain ⟨w₃', hcurrent⟩ := hcurrent.current_ok
    have hsv := hs _ (List.mem_cons_self ..)
    obtain ⟨hp₁, hat, -⟩ := h.of_valid hsv hvalid
    have hlt := hat rfl
    -- at an item, `key` and `current` do not fetch
    have hndue : ¬ it₁.Due := fun hd => by
      rw [hp₁.due_iff.1 hd] at hlt
      exact lt_irrefl _ hlt
    obtain ⟨-, -, -, hitem⟩ := Wp.of_ok (hp₁.key fun hd => absurd hd hndue) hkey
    obtain ⟨item, rest, hdrop, heq⟩ := hitem hlt
    cases heq
    obtain ⟨-, -, -, hitem, -⟩ := Wp.of_ok (hp₁.current fun hd => absurd hd hndue) hcurrent
    obtain ⟨item', rest', hdrop', heq⟩ := hitem hlt
    cases heq
    obtain ⟨rfl, rfl⟩ := List.cons.inj (hdrop.symm.trans hdrop')
    obtain ⟨-, w₄', hnext⟩ := hnext
    cases hnext
    obtain ⟨hp', halike, hidx, hpend⟩ := hp₁.next_at hlt
    have hcons : it₁.pending = item :: (iteratorNext it₁).pending := by
      rw [hpend, pending, hdrop, List.tail_cons]
    obtain ⟨-, -, hcases⟩ := Wp.of_ok (h.valid hsv) hvalid
    obtain ⟨-, heq⟩ | ⟨hd, -, -, hdata, hr⟩ | ⟨-, hfalse, -⟩ := hcases
    · cases heq
      exact ⟨hp', halike, item, rfl, .inl ⟨hcons, hidx⟩⟩
    · dsimp only at hdata hr
      have hal : it.Alike it₁ := hr ▸ ⟨rfl, rfl, rfl, rfl⟩
      refine ⟨hp', hal.trans halike, item, rfl, .inr ⟨h.pending_of_due hd, _,
        List.mem_cons_self .., ?_, ?_⟩⟩
      · rw [hidx, hr]
      · rw [← hcons, pending, hdata, hr]
        rfl
    · cases hfalse

/-- `rewind` fetches the first chunk, unless it does not get the lock. -/
theorem rewind_ok (hstep : IterStep sp php it ⟨it, w, .rewind, .done⟩ it')
    (hs : it.rewound.Fits sp w) :
    it'.Placed ∧ it.Alike it' ∧ ∃ e, it'.slotIdx = e ∧ (e ≤ w.slots.length) ∧
      it'.pending = it.items sp php (fun _ => w) 0 e := by
  obtain ⟨w', hrewind⟩ := hstep.rewind_ok
  obtain ⟨⟨n, it₁⟩, hok, rfl⟩ := of_map_eq_ok hrewind
  obtain ⟨-, hp, h0, hlen, hgranted, hrefused⟩ :=
    Wp.of_ok (h.rewound.fetchActive hs (.inr rfl)) hok
  dsimp only at hp h0 hlen hgranted hrefused ⊢
  have halike : it.Alike it.rewound := ⟨rfl, rfl, rfl, rfl⟩
  refine ⟨hp, ?_⟩
  by_cases hg : w.Grants
  · obtain ⟨hdata, hr⟩ := hgranted hg
    refine ⟨hr ▸ ⟨rfl, rfl, rfl, rfl⟩, _, rfl, ?_, ?_⟩
    · rw [hr]
      exact it.rewound.chunkEnd_le sp w (Nat.zero_le _)
    · rw [pending, h0, hdata, items_const, hr, chunk, halike.between, halike.itemOf]
      rfl
  · obtain ⟨hn, hr⟩ := hrefused hg
    subst hn
    refine ⟨hr ▸ ⟨rfl, rfl, rfl, rfl⟩, _, rfl, ?_, ?_⟩
    · rw [hr]
      exact Nat.zero_le _
    · have hnil : it₁.stack.data = [] := List.eq_nil_of_length_eq_zero hlen.symm
      rw [pending, hnil, hr]
      rfl

end Placed

end Iterator

/-! ## The loop -/

/-- The loop yields the items that are pending, and those of the slots that are left: each slot is
read in the state of one of the calls. -/
theorem While.yields {evs : List (IterEvent υ)} {ys : List (Got Nat × Got (ItemValue υ))} {n : Nat}
    (h : While sp php it evs ys) (hp : it.Placed) (hs : ∀ e ∈ evs, e.Sound sp)
    (hn : ∀ e ∈ evs, e.world.slots.length = n) (hle : it.slotIdx ≤ n) :
    ∃ W : Nat → World υ, (∀ i, it.slotIdx ≤ i → i < n → ∃ e ∈ evs, W i = e.world) ∧
      ys = (it.pending ++ it.items sp php W it.slotIdx n).map Item.yield := by
  induction h with
  | @stop it it' w hvalid =>
    have hsv := hs _ (List.mem_cons_self ..)
    obtain rfl := hn _ (List.mem_cons_self ..)
    obtain ⟨w', hvalid⟩ := hvalid.valid_ok
    obtain ⟨-, -, hcases⟩ := Wp.of_ok (hp.valid hsv) hvalid
    obtain ⟨-, heq⟩ | ⟨-, htrue, -⟩ | ⟨hd, -, hchunk, -⟩ := hcases
    · cases heq
    · cases htrue
    · refine ⟨fun _ => w, fun _ _ _ => ⟨_, List.mem_cons_self .., rfl⟩, ?_⟩
      have hend : it.chunkEnd sp w = w.slots.length :=
        le_antisymm (it.chunkEnd_le sp w hle) (it.le_chunkEnd_of_nil sp w hchunk)
      rw [hp.pending_of_due hd, Iterator.items_const, ← hend]
      change [] = ([] ++ (it.chunk sp w).map _).map _
      rw [hchunk]
      rfl
  | @round it it' evs evs' y ys hround _ ih =>
    simp only [List.mem_append] at hs hn
    obtain ⟨hp', halike, item, rfl, hcases⟩ := hp.round hround fun e he => hs e (.inl he)
    obtain ⟨hpend, hidx⟩ | ⟨hpend, e, he, hidx, hchunk⟩ := hcases
    · obtain ⟨W, hW, rfl⟩ := ih hp' (fun e he => hs e (.inr he)) (fun e he => hn e (.inr he))
        (hidx ▸ hle)
      rw [hidx] at hW
      refine ⟨W, fun i h1 h2 => ?_, ?_⟩
      · obtain ⟨e, he, hWe⟩ := hW i h1 h2
        exact ⟨e, List.mem_append_right _ he, hWe⟩
      · rw [halike.items, hidx, hpend]
        rfl
    · have hen := hn e (.inl he)
      have hle' : it'.slotIdx ≤ n := hidx ▸ hen ▸ it.chunkEnd_le sp e.world (hen ▸ hle)
      obtain ⟨W, hW, rfl⟩ := ih hp' (fun e he => hs e (.inr he)) (fun e he => hn e (.inr he)) hle'
      have hge := it.le_chunkEnd sp e.world
      rw [← hidx] at hge
      refine ⟨fun i => if i < it'.slotIdx then e.world else W i, fun i h1 h2 => ?_, ?_⟩
      · dsimp only
        split
        · exact ⟨e, List.mem_append_left _ he, rfl⟩
        next hi =>
          obtain ⟨e', he', hWe⟩ := hW i (by omega) h2
          exact ⟨e', List.mem_append_right _ he', hWe⟩
      · -- the chunk just fetched, and then the slots after it
        rw [hpend, List.nil_append, ← Iterator.items_append hge hle', halike.items,
          Iterator.items_congr (W := fun _ => e.world) fun i _ hi => if_pos hi,
          Iterator.items_congr (W := W) fun i hi _ => if_neg (by omega), Iterator.items_const,
          hidx]
        change _ = ((it.chunk sp e.world).map _ ++ _).map _
        rw [hchunk]
        rfl

/-- A loop yields the items of all the slots. -/
theorem Loop.yields {evs : List (IterEvent υ)} {ys : List (Got Nat × Got (ItemValue υ))}
    (h : Loop sp php it w₀ evs ys) (hp : it.Placed) (hs : ∀ e ∈ evs, e.Sound sp)
    (hn : ∀ e ∈ evs, e.world.slots.length = w₀.slots.length) :
    ∃ W : Nat → World υ, (∀ i < w₀.slots.length, ∃ e ∈ evs, W i = e.world) ∧
      ys = (it.items sp php W 0 w₀.slots.length).map Item.yield := by
  cases h with
  | @mk it' evs ys hrewind hwhile =>
    obtain ⟨hsr, hs⟩ := List.forall_mem_cons.1 hs
    obtain ⟨-, hn⟩ := List.forall_mem_cons.1 hn
    obtain ⟨hp', halike, e, hidx, hle, hpend⟩ := hp.rewind_ok hrewind hsr
    obtain ⟨W, hW, rfl⟩ := hwhile.yields hp' hs hn (hidx ▸ hle)
    refine ⟨fun i => if i < e then w₀ else W i, fun i hi => ?_, ?_⟩
    · dsimp only
      split
      · exact ⟨_, List.mem_cons_self .., rfl⟩
      next hie =>
        obtain ⟨e', he', hWe⟩ := hW i (by omega) hi
        exact ⟨e', List.mem_cons_of_mem _ he', hWe⟩
    · rw [← Iterator.items_append (Nat.zero_le e) hle, hpend, hidx, halike.items,
        Iterator.items_congr (W := fun _ => w₀) fun i _ hi => if_pos hi,
        Iterator.items_congr (W := W) fun i hi _ => if_neg (by omega)]

/-! ## The table between the calls -/

/-- From one state to a later one: processes execute requests, and do what leaves the shared state
alone. -/
def Later (pool : Pool) (z : Zend) (php : Serializer υ) : World υ → World υ → Prop :=
  Relation.ReflTransGen fun w w' => w.Same w' ∨ ∃ e, Step pool z php w e w'

/-- Later states keep the invariant and the entries. -/
theorem Later.kept (h : Later pool z php w w') (hinv : w.Inv pool z es live) :
    ∃ es' live', w'.Inv pool z es' live' ∧ w.Le es w' es' := by
  induction h with
  | refl => exact ⟨es, live, hinv, .refl w es⟩
  | tail _ hstep ih =>
    obtain ⟨es₁, live₁, hinv₁, hle⟩ := ih
    obtain hsame | ⟨e, hstep⟩ := hstep
    · exact ⟨es₁, live₁, hsame.inv hinv₁, hle.of_same hsame⟩
    · obtain ⟨es', live', heff⟩ := hstep.effect hinv₁
      exact ⟨es', live', heff.kept.1, hle.trans hinv heff.kept.2⟩

/-- In a chain of states all come after the first. -/
theorem Later.first {evs : List (IterEvent υ)} {e₀ : IterEvent υ}
    (h : ((e₀ :: evs).map IterEvent.world).IsChain (Later pool z php)) :
    ∀ e ∈ e₀ :: evs, Later pool z php e₀.world e.world := by
  have htrans : IsTrans (World υ) (Later pool z php) := ⟨fun _ _ _ => Relation.ReflTransGen.trans⟩
  rw [List.isChain_iff_pairwise, List.map_cons, List.pairwise_cons] at h
  exact List.forall_mem_cons.2 ⟨.refl, fun e he => h.1 _ (List.mem_map_of_mem he)⟩

/-- The states that calls meet one after the other have a common later one. -/
theorem Later.last {evs : List (IterEvent υ)} {e₀ : IterEvent υ}
    (h : ((e₀ :: evs).map IterEvent.world).IsChain (Later pool z php)) :
    ∃ w', ∀ e ∈ e₀ :: evs, Later pool z php e.world w' := by
  induction evs generalizing e₀ with
  | nil =>
    refine ⟨e₀.world, fun e he => ?_⟩
    obtain rfl := List.mem_singleton.1 he
    exact .refl
  | cons e₁ evs ih =>
    rw [List.map_cons, List.map_cons, List.isChain_cons_cons] at h
    obtain ⟨w', hw'⟩ := ih h.2
    refine ⟨w', List.forall_mem_cons.2 ⟨?_, hw'⟩⟩
    exact Relation.ReflTransGen.trans h.1 (hw' e₁ (by simp))

/-- The matching entries in the chain of a slot. -/
theorem World.Inv.mem_matching {s p : Nat} (h : w.Inv pool z es live) (hon : sp.On pool z)
    (hs : s < w.slots.length) : p ∈ it.matching sp w s ↔
      ∃ k, (p, k) ∈ es ∧ z.hash k % w.slots.length = s ∧ it.searchMatch k = true := by
  have hkey {k : Bytes} (hk : (p, k) ∈ es) : entryKey sp w.shm (entryAt w.shm p) = k := by
    obtain ⟨e, he, hpub, hstr⟩ := h.table.entry _ hk
    rw [entryAt_eq he]
    exact (hstr.zstr ((hon.shared _).trans (h.pub_shared hpub))).2
  rw [Iterator.matching, Iterator.select, List.mem_filter, h.chain_eq hs, Table.mem_chainOf]
  constructor
  · rintro ⟨⟨k, hk, hslot⟩, hm⟩
    exact ⟨k, hk, hslot, hkey hk ▸ hm⟩
  · rintro ⟨k, hk, hslot, hm⟩
    exact ⟨⟨k, hk, hslot⟩, (hkey hk).symm ▸ hm⟩

/-- The matching entries of a slot are distinct. -/
theorem World.Inv.nodup_matching {s : Nat} (h : w.Inv pool z es live)
    (hs : s < w.slots.length) : (it.matching sp w s).Nodup := by
  rw [Iterator.matching, Iterator.select, h.chain_eq hs]
  exact (h.table.nodup_chainOf s).filter _

/-- All the matching entries. -/
theorem Iterator.mem_all {p : Nat} :
    p ∈ it.all sp w ↔ ∃ s < w.slots.length, p ∈ it.matching sp w s := by
  simp [Iterator.all, between, List.mem_flatMap, List.mem_range'_1]

/-- Slots that are read in different states, with a common later one, have no entry in common. -/
theorem nodup_slots {W : Nat → World υ} (hinv : w₀.Inv pool z es live) (hon : sp.On pool z)
    (hlater : ∀ s < w₀.slots.length, Later pool z php w₀ (W s) ∧ Later pool z php (W s) w') :
    ((List.range w₀.slots.length).flatMap fun s => it.matching sp (W s) s).Nodup := by
  have hread : ∀ s < w₀.slots.length, ∃ es' live' esw livew, (W s).Inv pool z es' live' ∧
      w'.Inv pool z esw livew ∧ es' <+: esw ∧ (W s).slots.length = w₀.slots.length := by
    intro s hs
    obtain ⟨es', live', hinv', hle⟩ := (hlater s hs).1.kept hinv
    obtain ⟨esw, livew, hinvw, hlew⟩ := (hlater s hs).2.kept hinv'
    exact ⟨es', live', esw, livew, hinv', hinvw, hlew.entries, hle.slots⟩
  refine List.nodup_flatMap.2 ⟨fun s hs => ?_, ?_⟩
  · obtain ⟨es', live', -, -, hinv', -, -, hslots⟩ := hread s (List.mem_range.1 hs)
    exact hinv'.nodup_matching (hslots ▸ List.mem_range.1 hs)
  · refine List.nodup_range.imp_of_mem fun {s t} hs ht hne p hps hpt => hne ?_
    have hmem {s : Nat} (hs : s ∈ List.range w₀.slots.length) (hp : p ∈ it.matching sp (W s) s) :
        ∃ k, (p, k) ∈ w'.entries ∧ z.hash k % w₀.slots.length = s := by
      obtain ⟨es', live', esw, livew, hinv', hinvw, hpre, hslots⟩ := hread s (List.mem_range.1 hs)
      obtain ⟨k, hk, hslot, -⟩ := (hinv'.mem_matching hon (hslots ▸ List.mem_range.1 hs)).1 hp
      exact ⟨k, (hinvw.mem_entries _).2 (hpre.subset hk), hslots ▸ hslot⟩
    obtain ⟨k, hk, hks⟩ := hmem hs hps
    obtain ⟨k', hk', hkt⟩ := hmem ht hpt
    -- in the later state, the entry has one key
    obtain ⟨-, -, esw, livew, -, hinvw, -⟩ := hread s (List.mem_range.1 hs)
    have hnd := (hinvw.perm_entries.map Prod.fst).nodup_iff.2 hinvw.table.nodup
    obtain rfl : k = k' := (Prod.mk.inj (List.inj_on_of_nodup_map hnd hk hk' rfl)).2
    rw [← hks, ← hkt]

/-! ## Calls keep the search -/

/-- A fetch keeps the search and the chunk size. -/
theorem Iterator.Placed.fetchActive_alike (hp : it.Placed) :
    Wp (ImmutableCache.fetchActive sp php it) w (fun r _ => it.Alike r.2) fun _ => True := by
  refine (wp_fetchActive hp.bound).mono (fun r w₁ h₁ => ?_) fun _ => id
  obtain ⟨-, s, ⟨-, -, hr, -⟩ | ⟨-, rfl, -⟩⟩ := h₁
  · exact hr ▸ ⟨rfl, rfl, rfl, rfl⟩
  · exact ⟨rfl, rfl, rfl, rfl⟩

/-- So does getting the item for `current` or `key`. -/
theorem Iterator.Placed.iteratorGet_alike (hp : it.Placed) (msg : String) :
    Wp (ImmutableCache.iteratorGet sp php msg it) w (fun r _ => it.Alike r.2) fun _ => True := by
  unfold ImmutableCache.iteratorGet
  split
  · rw [wp_bind]
    refine hp.fetchActive_alike.mono (fun r w₁ h₁ => ?_) fun _ => id
    dsimp only
    split
    · rw [wp_bind]
      exact (Harmless.emalloc w₁).mono (fun _ _ _ => h₁) fun _ _ => trivial
    · split <;> exact h₁
  · -- there is an item, so that nothing is fetched
    rw [wp_bind, wp_pure]
    dsimp only
    rw [if_neg one_ne_zero]
    split <;> exact .refl it

/-- The methods keep the search and the chunk size. -/
theorem IterStep.alike {e : IterEvent υ} (h : IterStep sp php it e it') (hp : it.Placed) :
    it.Alike it' := by
  obtain ⟨-, w', hrun⟩ := h
  suffices hwp : Wp (e.call.run sp php it) e.world (fun r _ => it.Alike r.2) fun _ => True from
    (hwp.of_ok hrun :)
  generalize e.call = c
  cases c with
  | rewind =>
    rw [IterCall.run, wp_map, iteratorRewind, wp_map]
    exact hp.rewound.fetchActive_alike.mono (fun _ _ h => .trans ⟨rfl, rfl, rfl, rfl⟩ h) fun _ => id
  | valid =>
    rw [IterCall.run, wp_map]
    unfold iteratorValid
    split
    · simp only [wp_bind, wp_map]
      exact hp.fetchActive_alike.mono (fun _ _ h => h) fun _ => id
    · exact .refl it
  | current =>
    rw [IterCall.run, wp_map, iteratorCurrent, wp_bind]
    refine (hp.iteratorGet_alike _).mono (fun r _ h => ?_) fun _ => id
    obtain ⟨got, it₁⟩ := r
    cases got <;> exact h
  | key =>
    rw [IterCall.run, wp_map, iteratorKey, wp_bind]
    refine (hp.iteratorGet_alike _).mono (fun r _ h => ?_) fun _ => id
    obtain ⟨got, it₁⟩ := r
    cases got <;> exact h
  | next =>
    rw [IterCall.run, wp_pure, iteratorNext]
    split
    · exact .refl it
    · exact ⟨rfl, rfl, rfl, rfl⟩

/-- After sound calls the iterator is placed, and makes the same search. -/
theorem iterRun_alike {pre : List (IterEvent υ)} (h : Run (IterStep sp php) it pre it')
    (hp : it.Placed) (hs : ∀ e ∈ pre, e.Sound sp) : it'.Placed ∧ it.Alike it' := by
  induction h with
  | nil => exact ⟨hp, .refl _⟩
  | cons h1 _ ih =>
    obtain ⟨hp', halike⟩ := ih (h1.placed hp (hs _ (by simp))).1 fun e he => hs e (by simp [he])
    exact ⟨hp', (h1.alike hp).trans halike⟩

/-! ## Totals -/

namespace Iterator

/-- The totals are those of the matching entries in the state `w`, if they have been computed. -/
def Totaled (it : Iterator υ) (sp : Space) (w : World υ) : Prop :=
  if it.totalsFlag then
    it.count = (it.all sp w).length ∧
      it.size = ((it.all sp w).map fun p => (entryAt w.shm p).memSize).sum ∧
      it.hits = ((it.all sp w).map fun p => (entryAt w.shm p).nhits).sum
  else it.count = 0 ∧ it.size = 0 ∧ it.hits = 0

/-- Add the entries `ps` to the totals. -/
def addTotals (it : Iterator υ) (shm : Mem) (ps : List Nat) : Iterator υ :=
  { it with
    size := it.size + (ps.map fun p => (entryAt shm p).memSize).sum
    hits := it.hits + (ps.map fun p => (entryAt shm p).nhits).sum
    count := it.count + ps.length }

/-- Adding no entries. -/
theorem addTotals_nil (it : Iterator υ) (shm : Mem) : it.addTotals shm [] = it := rfl

/-- Adding the entries of two lists, one after the other. -/
theorem addTotals_append (it : Iterator υ) (shm : Mem) (ps qs : List Nat) :
    (it.addTotals shm ps).addTotals shm qs = it.addTotals shm (ps ++ qs) := by
  simp [addTotals, Nat.add_assoc]

/-- Totals do not change the search. -/
theorem alike_addTotals (it : Iterator υ) (shm : Mem) (ps : List Nat) :
    it.Alike (it.addTotals shm ps) := ⟨rfl, rfl, rfl, rfl⟩

/-- The loop over a chain adds its matching entries. -/
theorem totalsChain_eq (fuel : Nat) (head : Option Nat) : totalsChain sp w.shm fuel head it =
    it.addTotals w.shm (it.select sp w (walk w.shm fuel head)) := by
  induction fuel generalizing head it with
  | zero => cases head <;> rfl
  | succ fuel ih =>
    cases head with
    | none => rfl
    | some p =>
      rw [totalsChain, ih, walk, select, select, List.filter_cons]
      split
      next hm =>
        have heq : { it with
            size := it.size + (entryAt w.shm p).memSize
            hits := it.hits + (entryAt w.shm p).nhits
            count := it.count + 1 } = it.addTotals w.shm [p] := by simp [addTotals]
        rw [heq, addTotals_append, (it.alike_addTotals _ _).searchMatch]
        rfl
      next hm => rfl

/-- The loop over the slots adds their matching entries. -/
theorem totalsSlots_eq (is : List Nat) : is.foldl
    (fun it i => totalsChain sp w.shm w.header.nentries (w.slots.getD i none) it) it =
      it.addTotals w.shm (is.flatMap (it.matching sp w)) := by
  induction is generalizing it with
  | nil => rfl
  | cons i is ih =>
    rw [List.foldl_cons, ih, totalsChain_eq, addTotals_append,
      (it.alike_addTotals _ _).matching, List.flatMap_cons]
    rfl

/-- Totals that have been computed, for an iterator with the same search. -/
theorem Totaled.of_alike (halike : it.Alike it') (hflag : it'.totalsFlag = true)
    (hcount : it'.count = (it.all sp w).length)
    (hsize : it'.size = ((it.all sp w).map fun p => (entryAt w.shm p).memSize).sum)
    (hhits : it'.hits = ((it.all sp w).map fun p => (entryAt w.shm p).nhits).sum) :
    it'.Totaled sp w := by
  have hall : it'.all sp w = it.all sp w := halike.between ..
  rw [Totaled, if_pos hflag, hall]
  exact ⟨hcount, hsize, hhits⟩

/-- The totals are computed when they are first asked for. -/
theorem Totaled.ensureTotals (h : it.Totaled sp w₀) (hsame : w₀.Same w) (hg : w.Grants) :
    ∃ it' w', ensureTotals sp it w = .ok it' w' ∧ it'.totalsFlag = true ∧ it'.Totaled sp w₀ ∧
      it.Alike it' := by
  suffices hwp : Wp (ImmutableCache.ensureTotals sp it) w (fun it' _ => it'.totalsFlag = true ∧
      it'.Totaled sp w₀ ∧ it.Alike it') fun _ => False by
    unfold Wp at hwp
    cases hr : ImmutableCache.ensureTotals sp it w with
    | ok it' w' =>
      rw [hr] at hwp
      exact ⟨it', w', rfl, hwp⟩
    | error u w' =>
      rw [hr] at hwp
      exact hwp.elim
  unfold ImmutableCache.ensureTotals
  split
  next hflag => exact ⟨hflag, h, .refl it⟩
  next hflag =>
    rw [Totaled, if_neg hflag] at h
    simp only [iteratorTotals, rlock, wp_bind]
    refine Harmless.wp_acquire.mono (fun ok w₁ h₁ => ?_) fun w₁ h₁ => ?_
    · obtain ⟨h₁, rfl⟩ := h₁
      have hok : w.env.lockOk w.lockTries = true := hg
      rw [if_pos hok, wp_ensuring]
      have hsame₁ := hsame.trans h₁
      have hslots : w₁.slots = w₀.slots := by rw [hsame₁]
      have hall : (List.range w₁.slots.length).flatMap (it.matching sp w₁) = it.all sp w₀ := by
        rw [hsame₁.matching, hslots, all, between, Nat.sub_zero, List.range_eq_range']
      simp only [wp_bind, wp_get, wp_pure, unlock, wp_modify, totalsSlots_eq, hall]
      refine ⟨trivial, ?_, ⟨rfl, rfl, rfl, rfl⟩⟩
      obtain ⟨hcount, hsize, hhits⟩ := h
      refine .of_alike (show it.Alike _ from ⟨rfl, rfl, rfl, rfl⟩) rfl ?_ ?_ ?_
      · simp only [addTotals, hcount, Nat.zero_add]
      · simp only [addTotals, hsize, hsame₁.shm, Nat.zero_add]
      · simp only [addTotals, hhits, hsame₁.shm, Nat.zero_add]
    · rw [World.Grants, h₁.2] at hg
      cases hg

end Iterator

/-! ## Exact iteration -/

/-- The rounds come to an end: each takes an item off the stack, or moves on to later slots. -/
theorem rounds_end {its : Nat → Iterator υ} {evs : Nat → List (IterEvent υ)}
    {ys : Nat → Got Nat × Got (ItemValue υ)} {n : Nat} (hp : (its 0).Placed)
    (hle : (its 0).slotIdx ≤ n) (hr : ∀ i, Round sp php (its i) (evs i) (ys i) (its (i + 1)))
    (hs : ∀ i, ∀ e ∈ evs i, e.Sound sp)
    (hn : ∀ i, ∀ e ∈ evs i, e.world.slots.length = n) : False := by
  have hinv : ∀ i, (its i).Placed ∧ (its i).slotIdx ≤ n := by
    intro i
    induction i with
    | zero => exact ⟨hp, hle⟩
    | succ i ih =>
      obtain ⟨hp', -, item, -, hcases⟩ := ih.1.round (hr i) (hs i)
      refine ⟨hp', ?_⟩
      obtain ⟨-, hidx⟩ | ⟨-, e, he, hidx, -⟩ := hcases
      · exact hidx ▸ ih.2
      · have hen := hn i e he
        exact hidx ▸ hen ▸ (its i).chunkEnd_le sp e.world (hen ▸ ih.2)
  obtain ⟨i, hi⟩ := WellFounded.not_rel_apply_succ (r := Prod.Lex (· < ·) (· < ·))
    fun i => (n - (its i).slotIdx, (its i).pending.length)
  refine hi ?_
  obtain ⟨hp', -, item, -, hcases⟩ := (hinv i).1.round (hr i) (hs i)
  obtain ⟨hpend, hidx⟩ | ⟨-, e, he, hidx, hchunk⟩ := hcases
  · rw [hidx, hpend]
    exact .right _ (Nat.lt_succ_self _)
  · have hne : (its i).chunk sp e.world ≠ [] := fun hnil => by
      rw [hnil] at hchunk
      cases hchunk
    have hlt := (its i).lt_chunkEnd sp e.world hne
    have hle' := (hinv (i + 1)).2
    refine .left _ _ ?_
    rw [hidx] at hle' ⊢
    omega

/-- The loop over an iterator that may have been used before, on a table that processes add entries
to: it comes to an end, and yields entries of the table, none twice, and all of those that were
there at its `rewind`. On a table that does not change these are exactly the matching entries in
the order of the slots and of the chains, for any chunk size, and the totals are theirs. -/
theorem loop_exact {search : Search} {format chunkSize : Nat} {hist : List (Event υ)}
    {pre : List (IterEvent υ)} (hc : Created pool w) (hrun : Run (Step pool z php) w hist w₀)
    (hon : sp.On pool z) (hpre : Run (IterStep sp php) (.init search format chunkSize) pre it)
    (hspre : ∀ e ∈ pre, e.Sound sp) :
    let every : Iterator υ := .init search format 0
    (∀ evs ys, Loop sp php it w₀ evs ys → (∀ e ∈ evs, e.Sound sp) →
      (evs.map IterEvent.world).IsChain (Later pool z php) →
      (∃ vs : List (World υ × Nat),
        ys = vs.map (fun v => (every.itemOf sp php v.1 v.2).yield) ∧
        (∀ v ∈ vs, (∃ e ∈ evs, v.1 = e.world) ∧ v.2 ∈ every.all sp v.1) ∧
        (vs.map Prod.snd).Nodup ∧ ∀ p ∈ every.all sp w₀, p ∈ vs.map Prod.snd) ∧
      ((∀ e ∈ evs, w₀.Same e.world) →
        ys = (every.all sp w₀).map fun p => (every.itemOf sp php w₀ p).yield)) ∧
    (¬ ∃ (its : Nat → Iterator υ) (evs : Nat → List (IterEvent υ))
        (ys : Nat → Got Nat × Got (ItemValue υ)),
      IterStep sp php it ⟨it, w₀, .rewind, .done⟩ (its 0) ∧ it.rewound.Fits sp w₀ ∧
      (∀ i, Round sp php (its i) (evs i) (ys i) (its (i + 1))) ∧
      ∀ i, ∀ e ∈ evs i, e.Sound sp ∧ Later pool z php w₀ e.world) ∧
    ∀ it' w', it.Alike it' → it'.Totaled sp w₀ → w₀.Same w' → w'.Grants →
      (∃ it₁ w₁, getTotalCount sp it' w' = .ok ((every.all sp w₀).length, it₁) w₁ ∧
        it₁.Totaled sp w₀ ∧ it.Alike it₁) ∧
      (∃ it₁ w₁, getTotalSize sp it' w' =
        .ok (((every.all sp w₀).map fun p => (entryAt w₀.shm p).memSize).sum, it₁) w₁ ∧
        it₁.Totaled sp w₀ ∧ it.Alike it₁) ∧
      ∃ it₁ w₁, getTotalHits sp it' w' =
        .ok (((every.all sp w₀).map fun p => (entryAt w₀.shm p).nhits).sum, it₁) w₁ ∧
        it₁.Totaled sp w₀ ∧ it.Alike it₁ := by
  intro every
  obtain ⟨es, live, hinv⟩ := run_inv hc hrun
  obtain ⟨hp, halike⟩ := iterRun_alike hpre (.init search format chunkSize) hspre
  have hmatching : it.matching sp = every.matching sp := funext fun w => halike.matching sp w
  have hall : it.all sp w₀ = every.all sp w₀ := halike.between ..
  have hitemOf : it.itemOf sp php = every.itemOf sp php := funext fun w => halike.itemOf sp php w
  refine ⟨fun evs ys hloop hs hchain => ?_, ?_, fun it' w' halike' htot hsame hg => ?_⟩
  · cases hloop with
    | @mk it₁ evs ys hrewind hwhile =>
    obtain ⟨wl, hlast⟩ := Later.last hchain
    have hfirst : ∀ e ∈ _ :: evs, Later pool z php w₀ e.world := Later.first hchain
    have hn : ∀ e ∈ _ :: evs, e.world.slots.length = w₀.slots.length := fun e he => by
      obtain ⟨es', live', -, hle⟩ := (hfirst e he).kept hinv
      exact hle.slots
    obtain ⟨W, hW, rfl⟩ := (Loop.mk hrewind hwhile).yields hp hs hn
    rw [Iterator.items, Nat.sub_zero, ← List.range_eq_range', hmatching, hitemOf]
    refine ⟨⟨(List.range w₀.slots.length).flatMap fun s =>
      (every.matching sp (W s) s).map fun p => (W s, p), ?_, ?_, ?_, ?_⟩, fun hsame => ?_⟩
    · simp only [List.map_flatMap, List.map_map]
      rfl
    · intro v hv
      obtain ⟨s, hs, hv⟩ := List.mem_flatMap.1 hv
      obtain ⟨p, hp, rfl⟩ := List.mem_map.1 hv
      obtain ⟨e, he, hWe⟩ := hW s (List.mem_range.1 hs)
      refine ⟨⟨e, he, hWe⟩, Iterator.mem_all.2 ⟨s, ?_, hp⟩⟩
      rw [hWe, hn e he]
      exact List.mem_range.1 hs
    · simp only [List.map_flatMap, List.map_map]
      change ((List.range w₀.slots.length).flatMap fun s =>
        (every.matching sp (W s) s).map id).Nodup
      simp only [List.map_id]
      have hlater : ∀ s < w₀.slots.length, Later pool z php w₀ (W s) ∧ Later pool z php (W s) wl := by
        intro s hs
        obtain ⟨e, he, hWe⟩ := hW s hs
        exact hWe ▸ ⟨hfirst e he, hlast e he⟩
      exact nodup_slots hinv hon hlater
    · intro p hp
      obtain ⟨s, hs, hp⟩ := Iterator.mem_all.1 hp
      obtain ⟨e, he, hWe⟩ := hW s hs
      refine List.mem_map.2 ⟨(W s, p), List.mem_flatMap.2 ⟨s, List.mem_range.2 hs, ?_⟩, rfl⟩
      refine List.mem_map_of_mem ?_
      -- the chain of the slot has only grown
      obtain ⟨es', live', hinv', hle⟩ := (hfirst e he).kept hinv
      obtain ⟨k, hk, hslot, hm⟩ := (hinv.mem_matching hon hs).1 hp
      rw [hWe, hinv'.mem_matching hon (hle.slots ▸ hs)]
      exact ⟨k, hle.entries.subset hk, hle.slots ▸ hslot, hm⟩
    · have hW' : ∀ s ∈ List.range w₀.slots.length,
          (every.matching sp (W s) s).map (every.itemOf sp php (W s)) =
            (every.matching sp w₀ s).map (every.itemOf sp php w₀) := by
        intro s hs
        obtain ⟨e, he, hWe⟩ := hW s (List.mem_range.1 hs)
        rw [hWe, (hsame e he).matching, (hsame e he).itemOf]
      rw [List.flatMap_congr hW', Iterator.all, Iterator.between, Nat.sub_zero,
        ← List.range_eq_range', List.map_flatMap, List.map_flatMap]
      simp only [List.map_map]
      rfl
  · rintro ⟨its, evs, ys, hrewind, hfits, hround, hsound⟩
    obtain ⟨hp', -, e, hidx, hle, -⟩ := hp.rewind_ok hrewind hfits
    refine rounds_end hp' (hidx ▸ hle) hround (fun i e he => (hsound i e he).1) fun i e he => ?_
    obtain ⟨es', live', -, hle⟩ := (hsound i e he).2.kept hinv
    exact hle.slots
  · obtain ⟨it₁, w₁, hok, hflag, htot₁, halike₁⟩ := htot.ensureTotals hsame hg
    have halike₁ := halike'.trans halike₁
    have hall₁ : it₁.all sp w₀ = every.all sp w₀ := (halike₁.between ..).trans hall
    have htot := htot₁
    rw [Iterator.Totaled, if_pos hflag, hall₁] at htot
    refine ⟨⟨it₁, w₁, ?_, htot₁, halike₁⟩, ⟨it₁, w₁, ?_, htot₁, halike₁⟩, it₁, w₁, ?_, htot₁,
      halike₁⟩
    · rw [← htot.1]
      exact map_eq_ok hok
    · rw [← htot.2.1]
      exact map_eq_ok hok
    · rw [← htot.2.2]
      exact map_eq_ok hok

/-! ## Running the loop -/

/-- The loop after `rewind` when no other process does anything, for at most `fuel` rounds. -/
def runWhile (sp : Space) (php : Serializer υ) : Nat → Iterator υ →
    Op υ (Option (List (IterEvent υ) × List (Got Nat × Got (ItemValue υ))))
  | 0, _ => pure none
  | fuel + 1, it => do
    let w₁ ← get
    let r₁ ← iteratorValid sp php it
    if r₁.1 = true then
      let w₂ ← get
      let r₂ ← iteratorKey sp php r₁.2
      let w₃ ← get
      let r₃ ← iteratorCurrent sp php r₂.2
      let w₄ ← get
      let rest ← runWhile sp php fuel (iteratorNext r₃.2)
      pure (rest.map fun r => ([⟨it, w₁, .valid, .valid true⟩, ⟨r₁.2, w₂, .key, .key r₂.1⟩,
        ⟨r₂.2, w₃, .current, .current r₃.1⟩, ⟨r₃.2, w₄, .next, .done⟩] ++ r.1,
        (r₂.1, r₃.1) :: r.2))
    else pure (some ([⟨it, w₁, .valid, .valid false⟩], []))

/-- The loop when no other process does anything. -/
def runLoop (sp : Space) (php : Serializer υ) (fuel : Nat) (it : Iterator υ) :
    Op υ (Option (List (IterEvent υ) × List (Got Nat × Got (ItemValue υ)))) := do
  let w ← get
  let it' ← iteratorRewind sp php it
  let rest ← runWhile sp php fuel it'
  pure (rest.map fun r => (⟨it, w, .rewind, .done⟩ :: r.1, r.2))

/-- What runs as a loop of calls is one. -/
theorem wp_runWhile (fuel : Nat) : Wp (runWhile sp php fuel it) w (fun r _ =>
    ∀ evs ys, r = some (evs, ys) → While sp php it evs ys ∧ ∀ e ∈ evs, w.Same e.world)
    fun _ => True := by
  induction fuel generalizing it w with
  | zero => exact nofun
  | succ fuel ih =>
    simp only [runWhile, wp_bind, wp_get]
    refine (Harmless.iteratorValid sp php it w).eq.mono (fun r₁ w₁ h₁ => ?_) fun _ _ => trivial
    obtain ⟨b, it₁⟩ := r₁
    dsimp only at h₁ ⊢
    cases b with
    | false =>
      rw [if_neg (by decide), wp_pure]
      rintro evs ys heq
      cases heq
      exact ⟨.stop ⟨rfl, w₁, map_eq_ok h₁.1⟩, by simpa using .refl w⟩
    | true =>
      rw [if_pos rfl]
      simp only [wp_bind, wp_get]
      refine (Harmless.iteratorKey sp php it₁ w₁).eq.mono (fun r₂ w₂ h₂ => ?_) fun _ _ => trivial
      refine (Harmless.iteratorCurrent sp php r₂.2 w₂).eq.mono (fun r₃ w₃ h₃ => ?_)
        fun _ _ => trivial
      have hs₂ := h₁.2.trans h₂.2
      have hs₃ := hs₂.trans h₃.2
      refine ih.mono (fun rest w₄ h₄ => ?_) fun _ _ => trivial
      rw [wp_pure]
      intro evs ys heq
      obtain ⟨⟨evs', ys'⟩, rfl, heq⟩ := Option.map_eq_some_iff.1 heq
      cases heq
      obtain ⟨hwhile, hw⟩ := h₄ evs' ys' rfl
      refine ⟨.round (.mk ⟨rfl, w₁, map_eq_ok h₁.1⟩ ⟨rfl, w₂, map_eq_ok h₂.1⟩
        ⟨rfl, w₃, map_eq_ok h₃.1⟩ ⟨rfl, w₃, rfl⟩) hwhile, ?_⟩
      simp only [List.cons_append, List.nil_append, List.forall_mem_cons]
      exact ⟨.refl w, h₁.2, hs₂, hs₃, fun e he => hs₃.trans (hw e he)⟩

/-- What has been run is a loop on a table that has not changed. -/
theorem runLoop_loop {fuel : Nat} {evs : List (IterEvent υ)}
    {ys : List (Got Nat × Got (ItemValue υ))}
    (h : runLoop sp php fuel it w = .ok (some (evs, ys)) w') :
    Loop sp php it w evs ys ∧ ∀ e ∈ evs, w.Same e.world := by
  suffices hwp : Wp (runLoop sp php fuel it) w (fun r _ => ∀ evs ys, r = some (evs, ys) →
      Loop sp php it w evs ys ∧ ∀ e ∈ evs, w.Same e.world) fun _ => True from
    Wp.of_ok hwp h evs ys rfl
  simp only [runLoop, wp_bind, wp_get]
  have hrewind : Harmless (iteratorRewind sp php it) := .map (.fetchActive _ _ _)
  refine (hrewind w).eq.mono (fun it' w₁ h₁ => ?_) fun _ _ => trivial
  refine (wp_runWhile fuel).mono (fun rest w₂ h₂ => ?_) fun _ _ => trivial
  rw [wp_pure]
  intro evs ys heq
  obtain ⟨⟨evs', ys'⟩, rfl, heq⟩ := Option.map_eq_some_iff.1 heq
  cases heq
  obtain ⟨hwhile, hw⟩ := h₂ evs' ys' rfl
  exact ⟨.mk ⟨rfl, w₁, map_eq_ok h₁.1⟩ hwhile,
    List.forall_mem_cons.2 ⟨.refl w, fun e he => h₁.2.trans (hw e he)⟩⟩

namespace Small

/-- The number is stored in the small cache. -/
theorem filled_run : ∃ hist,
    Run (Step Small.pool zend Small.php) (start (env none)) hist filled := by
  have hlegal := storeA_legal (start (env none))
  unfold filled
  split
  next o w₁ hr =>
    exact ⟨[⟨_, storeA, some o⟩], .cons ⟨rfl, hlegal, by rw [hr]; exact ⟨rfl, rfl⟩⟩ .nil⟩
  next u w₁ hr =>
    exact ⟨[⟨_, storeA, none⟩], .cons ⟨rfl, hlegal, by rw [hr]; exact ⟨rfl, rfl⟩⟩ .nil⟩

/-- The loop over the small table has one round. -/
theorem loop : ∃ evs ys, Loop Small.sp Small.php iterator filled evs ys ∧
    (∀ e ∈ evs, filled.Same e.world) ∧ (∀ e ∈ evs, e.Sound Small.sp) ∧ ys.length = 1 := by
  have hgives : gives (runLoop Small.sp Small.php 2 iterator) filled (fun r => r.any fun r =>
      decide (r.2.length = 1 ∧ ∀ e ∈ r.1, e.Sound Small.sp)) = true := by decide +kernel
  obtain ⟨r, w', hr, hf⟩ := of_gives hgives
  cases r with
  | none => cases hf
  | some r =>
    obtain ⟨hlen, hs⟩ := of_decide_eq_true hf
    obtain ⟨hloop, hw⟩ := runLoop_loop hr
    exact ⟨r.1, r.2, hloop, hw, hs, hlen⟩

end Small

/-- The loop over the small table yields its entry. -/
theorem loop_exact_small : ∃ evs ys, Loop Small.sp Small.php Small.iterator Small.filled evs ys ∧
    ys.length = 1 ∧ ys = (Small.iterator.all Small.sp Small.filled).map
      fun p => (Small.iterator.itemOf Small.sp Small.php Small.filled p).yield := by
  obtain ⟨hist, hrun⟩ := Small.filled_run
  obtain ⟨evs, ys, hloop, hw, hs, hlen⟩ := Small.loop
  have hpre : Run (IterStep Small.sp Small.php) (.init .all 2 0) [] Small.iterator := .nil
  have hchain : (evs.map IterEvent.world).IsChain (Later Small.pool Small.zend Small.php) := by
    refine List.Pairwise.isChain (List.pairwise_of_forall_mem_list fun a ha b hb => ?_)
    obtain ⟨e, he, rfl⟩ := List.mem_map.1 ha
    obtain ⟨e', he', rfl⟩ := List.mem_map.1 hb
    exact .single (.inl ((hw e he).symm.trans (hw e' he')))
  have hexact := (loop_exact Small.created hrun Small.on hpre (by simp)).1 evs ys hloop hs hchain
  exact ⟨evs, ys, hloop, hlen, hexact.2 hw⟩

end ImmutableCache
