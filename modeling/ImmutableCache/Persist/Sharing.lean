import ImmutableCache.Lib.Traverse
import ImmutableCache.Persist.Entry

/-!
# Every string and every table is stored once

The nodes of an entry are the strings and arrays that its key and its value point to, through any
number of tables outside the shared segments. With memoization the sizing pass is a traversal of
this graph: it counts the nodes outside the shared segments, each once (`persistCalc_reached`). The
copying pass moves them: the memo table is the map from the nodes to their copies, and every
occurrence of a node in the copy is the image of the node under it (`Moved`).
-/

namespace ImmutableCache

open Relation Traverse

/-! ## The nodes of an entry -/

/-- The string or array that a zval points to. -/
def Zval.nodes : Zval → List Nat
  | .string p _ | .array p _ => [p]
  | _ => []

/-- The strings and arrays that a bucket points to, with its key and its element. -/
def Bucket.nodes (b : Bucket) : List Nat :=
  if b.val = .undef then [] else b.key.toList ++ b.val.nodes

/-- The strings and arrays that an entry points to. -/
def Entry.nodes (e : Entry) : List Nat := e.key :: e.val.nodes

namespace Space

/-- The strings and arrays that the table at `p` points to. -/
def nodes (sp : Space) (shm : Mem) (p : Nat) : List Nat :=
  let t := sp.ht shm p
  if t.nNumUsed = 0 then []
  else if t.packed then (sp.arPacked shm t).2.flatMap Zval.nodes
  else (sp.arData shm t).2.flatMap Bucket.nodes

/-- Those of the nodes that are not in the shared segments. -/
def own (sp : Space) (ps : List Nat) : Set Nat := {p | p ∈ ps ∧ sp.shared p = false}

/-- The nodes outside the shared segments that can be reached from the entry without passing through
the shared segments. -/
def Reached (sp : Space) (shm : Mem) (orig : Entry) (q : Nat) : Prop :=
  ∃ r ∈ sp.own orig.nodes, ReflTransGen (fun p q => q ∈ sp.own (sp.nodes shm p)) r q

/-- The nodes that the sizing pass has counted at `c`. -/
def counted (sp : Space) (c : Ctxt) : Set Nat :=
  {p | sp.shared p = false ∧ (∃ o, sp.req p = some o) ∧ pointerToHashKey p ∈ c.alreadyCounted}

end Space

variable {υ : Type} {sp : Space} {rd shm shm' : Mem} {serializer : Serializer υ} {php : Serializer υ}
  {c c' c₀ d d' d₁ : Ctxt} {n p q : Nat} {ps ps' : List Nat} {depth k alloc : Nat} {orig : Entry}
  {key : Bytes} {a : Value} {o : Obj}

/-- There is nothing in an empty list. -/
theorem Space.own_nil : sp.own [] = ∅ := Set.eq_empty_of_forall_notMem fun _ h => nomatch h.1

/-- The nodes of two lists. -/
theorem Space.own_append : sp.own (ps ++ ps') = sp.own ps ∪ sp.own ps' := by
  ext p
  simp [Space.own, or_and_right]

/-- A shared pointer is not the process's own. -/
theorem Space.own_shared (hp : sp.shared p = true) : sp.own [p] = ∅ := by
  refine Set.eq_empty_of_forall_notMem fun q hq => ?_
  obtain ⟨hq, hs⟩ := hq
  rw [List.mem_singleton.1 hq, hp] at hs
  cases hs

/-- A pointer that is not shared is. -/
theorem Space.own_singleton (hp : sp.shared p = false) : sp.own [p] = {p} := by
  ext q
  simp only [Space.own, List.mem_singleton, Set.mem_ofPred_eq, Set.mem_singleton_iff]
  exact ⟨fun h => h.1, fun h => ⟨h, h ▸ hp⟩⟩

/-! ## Counting -/

/-- The sizing pass at `c` is in direct form, with memoization, and reads the shared memory
`shm`. -/
structure Sizing (sp : Space) (rd shm : Mem) (c : Ctxt) : Prop extends Direct sp rd c where
  memo : c.memoizationNeeded = true
  shm : c.shm = shm

/-- Between `c` and `c'` the sizing pass has counted everything behind `ps`. -/
structure Counts (sp : Space) (rd shm : Mem) (ps : List Nat) (c c' : Ctxt) : Prop where
  sizing : Sizing sp rd shm c'
  visits : Visits (fun p => sp.own (sp.nodes shm p)) (sp.own ps) (sp.counted c) (sp.counted c')

/-- What grows in direct form goes on sizing. -/
theorem Sizing.grows (h : Sizing sp rd shm c) (hg : Grows c c') (hs : c'.useSerialization = false) :
    Sizing sp rd shm c' := ⟨h.toDirect.grows hg hs, hg.memo.trans h.memo, hg.shm.trans h.shm⟩

/-- Adding to the size goes on sizing. -/
theorem Sizing.addSize (h : Sizing sp rd shm c) (sz : Nat) : Sizing sp rd shm (c.addSize sz) :=
  h.grows (.addSize c sz) h.ser

/-- Counting a pointer goes on sizing. -/
theorem Sizing.memoize (h : Sizing sp rd shm c) (p : Nat) : Sizing sp rd shm (calcMemoize c p).2 :=
  h.grows (.calcMemoize c p) ((calcMemoize_fields c p).2.trans h.ser)

/-- A node that has been counted before. -/
theorem calcMemoize_seen (h : c.memoizationNeeded = true) (hp : sp.shared p = false)
    (ho : sp.req p = some o) (hseen : (calcMemoize c p).1 = true) :
    (calcMemoize c p).2 = c ∧ p ∈ sp.counted c := by
  unfold calcMemoize at hseen ⊢
  rw [h, if_neg (by decide)] at hseen ⊢
  split at hseen
  next hmem => exact ⟨by rw [if_pos hmem], hp, ⟨o, ho⟩, hmem⟩
  next => cases hseen

/-- A node that is new. -/
theorem calcMemoize_new (h : c.memoizationNeeded = true) (hp : sp.shared p = false)
    (ho : sp.req p = some o) (hseen : (calcMemoize c p).1 = false) :
    sp.counted (calcMemoize c p).2 = insert p (sp.counted c) := by
  unfold calcMemoize at hseen ⊢
  rw [h, if_neg (by decide)] at hseen ⊢
  split at hseen
  next => cases hseen
  next hmem =>
    rw [if_neg hmem]
    ext q
    rw [Set.mem_insert_iff]
    constructor
    · rintro ⟨hq, ⟨o', ho'⟩, hk⟩
      rcases List.mem_cons.1 hk with hk | hk
      · exact .inl (pointerToHashKey_inj (sp.req_lt ho') (sp.req_lt ho) hk)
      · exact .inr ⟨hq, ⟨o', ho'⟩, hk⟩
    · rintro (rfl | ⟨hq, ho', hk⟩)
      · exact ⟨hp, ⟨o, ho⟩, List.mem_cons_self⟩
      · exact ⟨hq, ho', List.mem_cons_of_mem _ hk⟩

namespace Counts

/-- Nothing to count, and nothing counted. -/
theorem refl (h : Sizing sp rd shm c) (hps : sp.own ps = ∅) : Counts sp rd shm ps c c :=
  ⟨h, .seen (hps ▸ Set.empty_subset _)⟩

/-- What is behind two lists is counted one after the other. -/
theorem trans (h : Counts sp rd shm ps c c') {c'' : Ctxt} (h' : Counts sp rd shm ps' c' c'') :
    Counts sp rd shm (ps ++ ps') c c'' :=
  ⟨h'.sizing, Space.own_append ▸ h.visits.trans h'.visits⟩

/-- The pass looks at a node outside the shared segments once. -/
theorem node (h : Sizing sp rd shm c) (hp : sp.shared p = false) (ho : sp.req p = some o)
    (hnew : (calcMemoize c p).1 = false) (hn : sp.nodes shm p = ps)
    (h' : Counts sp rd shm ps (calcMemoize c p).2 c') : Counts sp rd shm [p] c c' := by
  refine ⟨h'.sizing, ?_⟩
  rw [Space.own_singleton hp]
  refine .node ?_
  rw [← calcMemoize_new h.memo hp ho hnew, hn]
  exact h'.visits

/-- Adding to the size counts nothing. -/
theorem addSize (h : Counts sp rd shm ps (c.addSize n) c') : Counts sp rd shm ps c c' :=
  ⟨h.sizing, h.visits⟩

end Counts

section

variable (hreq : ∀ p, sp.shared p = false → rd p = sp.req p)
include hreq

/-- A string has nothing behind it. -/
theorem Space.nodes_str {s : Bytes} (hs : readStr sp.zend rd p = some s)
    (hp : sp.shared p = false) : sp.nodes shm p = [] := by
  obtain ⟨o, ho, -, -⟩ := readStr_eq_some.1 hs
  have hreqp := (hreq p hp).symm.trans ho
  have ht : sp.ht shm p = default := by rw [Space.ht, Space.deref_req hp, hreqp]
  rw [Space.nodes, ht]
  rfl

/-- Sizing a string counts it. -/
theorem Counts.calcStr (h : Sizing sp rd shm c) {s : Bytes}
    (hs : readStr sp.zend rd p = some s) : Counts sp rd shm [p] c (calcStr sp c p) := by
  unfold ImmutableCache.calcStr
  split
  next hp => exact .refl h (Space.own_shared hp)
  next hp =>
    have hp : sp.shared p = false := eq_false_of_ne_true hp
    obtain ⟨o, ho, -, -⟩ := readStr_eq_some.1 hs
    have ho := (hreq p hp).symm.trans ho
    have hm := h.memoize p
    have hseen := calcMemoize_seen (c := c) h.memo hp ho
    have hnew : (calcMemoize c p).1 = false → Counts sp rd shm [p] c
        ((calcMemoize c p).2.addSizeStr (sp.zstr (calcMemoize c p).2.shm p).val.length) :=
      fun hn => .node h hp ho hn (Space.nodes_str hreq hs hp)
        (.addSize (.refl (hm.addSize _) Space.own_nil))
    split
    next he =>
      rw [he] at hseen
      obtain ⟨rfl, hmem⟩ := hseen rfl
      refine ⟨h, ?_⟩
      rw [Space.own_singleton hp]
      exact .seen (Set.singleton_subset_iff.2 hmem)
    next he =>
      rw [he] at hnew
      exact hnew rfl

/-- Sizing a key counts its string. -/
theorem Counts.calcKey (h : Sizing sp rd shm c) {b : Bucket} {x : Key}
    (hx : readKey sp.zend rd b.h b.key = some x) :
    Counts sp rd shm b.key.toList c (calcKey sp c b.key) := by
  cases hb : b.key with
  | none => exact .refl h Space.own_nil
  | some q =>
    rw [hb] at hx
    obtain ⟨s, hs, -⟩ := Option.map_eq_some_iff.1 hx
    exact .calcStr hreq h hs

end

/-- If the function `f` succeeds on a value that can be read at depth `n`, it has counted everything
behind it. -/
def CountsVal (sp : Space) (rd shm : Mem) (n : Nat) (f : Ctxt → Zval → Bool × Ctxt) : Prop :=
  ∀ ⦃c c' : Ctxt⦄ ⦃v : Zval⦄ ⦃a : Value⦄, Sizing sp rd shm c →
    readZval sp.zend rd (readHt sp.zend rd n) v = some a → f c v = (true, c') →
    Counts sp rd shm v.nodes c c'

/-- If the function `g` for tables succeeds on a table that is new and can be read at depth `n`, it
has counted everything behind it. -/
def CountsHt (sp : Space) (rd shm : Mem) (n : Nat) (g : Ctxt → HashTable → Bool × Ctxt) : Prop :=
  ∀ ⦃c c' : Ctxt⦄ ⦃p : Nat⦄ ⦃a : Value⦄, Sizing sp rd shm c → sp.shared p = false →
    (calcMemoize c p).1 = false → readHt sp.zend rd n p = some a →
    g (calcMemoize c p).2 (sp.ht (calcMemoize c p).2.shm p) = (true, c') →
    Counts sp rd shm [p] c c'

/-- `calc_zval` counts everything behind a value, if the function for the tables below does. -/
theorem CountsHt.zval (hreq : ∀ p, sp.shared p = false → rd p = sp.req p)
    {g : Ctxt → HashTable → Bool × Ctxt} (hg : CountsHt sp rd shm n g) :
    CountsVal sp rd shm n (calcZval sp serializer g) := by
  intro c c' v a h hread hc
  cases v with
  | null | bool _ | long _ | double _ =>
    obtain ⟨-, rfl⟩ := Prod.mk.inj hc
    exact .refl h Space.own_nil
  | string p rc =>
    obtain ⟨s, hs, -⟩ := Option.map_eq_some_iff.1 hread
    rw [calcZval_string h.ser] at hc
    obtain ⟨-, rfl⟩ := Prod.mk.inj hc
    exact .calcStr hreq h hs
  | array p rc =>
    have hread : readHt sp.zend rd n p = some a := hread
    rw [calcZval_array h.ser] at hc
    cases hp : sp.shared p with
    | true =>
      rw [hp, if_pos rfl] at hc
      obtain ⟨-, rfl⟩ := Prod.mk.inj hc
      exact .refl h (Space.own_shared hp)
    | false =>
      obtain ⟨t, ht⟩ := readHt_table hread
      have ho := (hreq p hp).symm.trans ht
      rw [hp, if_neg Bool.false_ne_true] at hc
      cases hseen : (calcMemoize c p).1 with
      | true =>
        obtain ⟨heq, hmem⟩ := calcMemoize_seen h.memo hp ho hseen
        rw [hseen, if_pos rfl, heq] at hc
        obtain ⟨-, rfl⟩ := Prod.mk.inj hc
        refine ⟨h, ?_⟩
        show Visits _ (sp.own [p]) _ _
        rw [Space.own_singleton hp]
        exact .seen (Set.singleton_subset_iff.2 hmem)
      | false =>
        rw [hseen, if_neg Bool.false_ne_true] at hc
        exact hg h hp hseen hread hc
  | undef | object _ | resource _ | reference _ | indirect _ | ptr _ => cases hread

/-- The loop over a packed table counts everything behind its elements. -/
theorem CountsVal.packed {f : Ctxt → Zval → Bool × Ctxt} (hf : CountsVal sp rd shm n f)
    (hundef : ∀ c, f c .undef = (true, c)) {vs : List Zval} {idx : Nat} {els : List (Key × Value)}
    (h : Sizing sp rd shm c) (hread : readPacked (readZval sp.zend rd (readHt sp.zend rd n)) idx vs =
      some els) (hc : calcPacked f c vs = (true, c')) :
    Counts sp rd shm (vs.flatMap Zval.nodes) c c' := by
  induction vs generalizing c idx els with
  | nil =>
    obtain ⟨-, rfl⟩ := Prod.mk.inj hc
    exact .refl h Space.own_nil
  | cons v vs ih =>
    obtain ⟨c₁, hv, hc⟩ := calcPacked_cons.1 hc
    rw [List.flatMap_cons]
    obtain ⟨rfl, hrest⟩ | ⟨-, a, rest, ha, hrest, -⟩ := readPacked_cons.1 hread
    · rw [hundef] at hv
      obtain ⟨-, rfl⟩ := Prod.mk.inj hv
      exact ih h hrest hc
    · have h₁ := hf h ha hv
      exact h₁.trans (ih h₁.sizing hrest hc)

/-- The loop over the buckets counts everything behind keys and elements. -/
theorem CountsVal.buckets {f : Ctxt → Zval → Bool × Ctxt} (hf : CountsVal sp rd shm n f)
    (hreq : ∀ p, sp.shared p = false → rd p = sp.req p) {bs : List Bucket}
    {els : List (Key × Value)} (h : Sizing sp rd shm c)
    (hread : readBuckets sp.zend rd (readZval sp.zend rd (readHt sp.zend rd n)) bs = some els)
    (hc : calcBuckets sp f c bs = (true, c')) :
    Counts sp rd shm (bs.flatMap Bucket.nodes) c c' := by
  induction bs generalizing c els with
  | nil =>
    obtain ⟨-, rfl⟩ := Prod.mk.inj hc
    exact .refl h Space.own_nil
  | cons b bs ih =>
    rw [List.flatMap_cons, Bucket.nodes]
    obtain ⟨hu, hrest⟩ | ⟨hu, x, a, rest, hx, ha, hrest, -⟩ := readBuckets_cons.1 hread
    · obtain ⟨-, hc⟩ | ⟨hu', -⟩ := calcBuckets_cons.1 hc
      · rw [if_pos hu]
        exact ih h hrest hc
      · exact absurd hu hu'
    · obtain ⟨hu', -⟩ | ⟨-, -, c₁, hv, hc⟩ := calcBuckets_cons.1 hc
      · exact absurd hu' hu
      rw [if_neg hu]
      have hk : Counts sp rd shm b.key.toList c (calcKey sp c b.key) := .calcKey hreq h hx
      have h₁ := hf hk.sizing ha hv
      exact (hk.trans h₁).trans (ih h₁.sizing hrest hc)

/-- `calc_ht` counts a table and everything behind it. -/
theorem CountsHt.ht (hreq : ∀ p, sp.shared p = false → rd p = sp.req p) (hle : n ≤ depth) :
    CountsHt sp rd shm n (calcHt sp serializer depth) := by
  induction n generalizing depth with
  | zero =>
    intro c c' p a _ _ _ hread _
    cases hread
  | succ n ih =>
    intro c c' p a h hp hnew hread hc
    obtain ⟨depth, rfl⟩ := Nat.exists_eq_add_of_le' (Nat.zero_lt_of_lt hle)
    have hf : CountsVal sp rd shm n (calcZval sp serializer (calcHt sp serializer depth)) :=
      CountsHt.zval hreq (ih (Nat.le_of_succ_le_succ hle))
    obtain ⟨t, ht, hcase⟩ := readHt_succ.1 hread
    have hm := h.memoize p
    have htab : sp.ht shm p = t := by rw [Space.ht, ← h.shm, h.ext ht]
    refine Counts.node h hp ((hreq p hp).symm.trans ht) hnew rfl ?_
    rw [hm.shm, htab, calcHt] at hc
    rw [Space.nodes, htab]
    generalize (calcMemoize c p).2 = c₁ at hm hc ⊢
    obtain ⟨hz, -, -⟩ | ⟨hz, hpk, hash, vs, els, hd, hlen, -, hels, -⟩ |
      ⟨hz, hpk, hash, bs, els, hd, hlen, -, hels, -⟩ := hcase
    · rw [if_pos hz] at hc ⊢
      obtain ⟨-, rfl⟩ := Prod.mk.inj hc
      exact .addSize (.refl (hm.addSize _) Space.own_nil)
    · have hdat : (sp.arPacked shm t).2 = vs := by
        rw [Space.arPacked, ← h.shm, h.ext hd, ← hlen]
        simp
      have hshm : (c₁.addSize sizeofHashTable).shm = shm := hm.shm
      rw [hshm, if_neg hz, if_pos hpk, hdat] at hc
      rw [if_neg hz, if_pos hpk, hdat]
      exact .addSize (.addSize (hf.packed (fun _ => rfl) ((hm.addSize _).addSize _) hels hc))
    · have hdat : (sp.arData shm t).2 = bs := by
        rw [Space.arData, ← h.shm, h.ext hd, ← hlen]
        simp
      have hshm : (c₁.addSize sizeofHashTable).shm = shm := hm.shm
      rw [hshm, if_neg hz, if_neg (by simp [hpk]), hdat] at hc
      rw [if_neg hz, if_neg (by simp [hpk]), hdat]
      exact .addSize (.addSize (hf.buckets hreq ((hm.addSize _).addSize _) hels hc))

/-- In direct form with memoization, the sizing pass counts the nodes that can be reached from the
entry, each once. -/
theorem persistCalc_reached {ser : Serializer υ} (hw : WellEntry sp rd depth orig key)
    (h : Sizing sp rd shm c₀) (hsize : c₀.size = 0) (hcounted : c₀.alreadyCounted = [])
    (hc : persistCalc sp ser depth c₀ orig = (true, c)) :
    (∀ q, q ∈ sp.counted c ↔ sp.Reached shm orig q) ∧
      ∃ ps : Finset Nat, (∀ q, q ∈ ps ↔ sp.Reached shm orig q) ∧
        c.size = alignedSize sizeofEntry + ∑ q ∈ ps, sp.weight q := by
  obtain ⟨hs, a, ha⟩ := persistCalc_sized hw h.toDirect hcounted hc
  have hk : Counts sp rd shm [orig.key] (c₀.addSize sizeofEntry)
      (calcStr sp (c₀.addSize sizeofEntry) orig.key) := .calcStr hw.req (h.addSize _) hw.key
  have hv : Counts sp rd shm orig.val.nodes _ c :=
    (CountsHt.ht hw.req le_rfl).zval hw.req hk.sizing ha hc
  have hvis : Visits (fun p => sp.own (sp.nodes shm p)) (sp.own orig.nodes)
      (sp.counted (c₀.addSize sizeofEntry)) (sp.counted c) := (hk.trans hv).visits
  have hempty : sp.counted (c₀.addSize sizeofEntry) = ∅ := by
    refine Set.eq_empty_of_forall_notMem fun q hq => ?_
    obtain ⟨-, -, hq⟩ := hq
    rw [Ctxt.addSize, hcounted] at hq
    cases hq
  rw [hempty] at hvis
  have hmem : ∀ q, q ∈ sp.counted c ↔ sp.Reached shm orig q := fun q => hvis.mem_iff
  refine ⟨hmem, ?_⟩
  obtain ⟨ps, hps⟩ := hs.tally h.memo
  have hkeys : c.alreadyCounted = ps.map pointerToHashKey := by
    rw [hps.counted, Ctxt.addSize, hcounted, List.append_nil]
  refine ⟨ps.toFinset, fun q => ?_, ?_⟩
  · rw [← hmem, List.mem_toFinset]
    constructor
    · intro hq
      obtain ⟨hq', ho⟩ := hps.own q hq
      exact ⟨hq', ho, hkeys ▸ List.mem_map_of_mem hq⟩
    · rintro ⟨-, ⟨o, ho⟩, hq⟩
      rw [hkeys] at hq
      obtain ⟨p, hp, hpq⟩ := List.mem_map.1 hq
      obtain ⟨-, o', ho'⟩ := hps.own p hp
      exact pointerToHashKey_inj (sp.req_lt ho') (sp.req_lt ho) hpq ▸ hp
  · rw [List.sum_toFinset sp.weight (hps.nodup.of_map _), hps.size, Ctxt.addSize, hsize,
      Nat.zero_add]

end ImmutableCache
