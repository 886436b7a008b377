import ImmutableCache.Cache.Memory
import ImmutableCache.Cache.Table
import ImmutableCache.Persist.Entry

/-!
# The invariant of the cache

The entries of the table own the blocks that they lie in. The addresses in these blocks are
published (`Pub`): every published object is frozen, so that its pointers lead to published
addresses again, and from then on it does not change but for the `next`, `nhits` and `atime` of an
entry. `World.Inv` says so of a state, and `World.Le` of two states of a run.
-/

namespace ImmutableCache

/-- The address lies in the block of an entry of the table. -/
def Pub (shm : Mem) (es : List (Nat × Bytes)) (q : Nat) : Prop :=
  ∃ x ∈ es, x.1 ≤ q ∧ q < x.1 + (entryAt shm x.1).memSize

instance (shm : Mem) (es : List (Nat × Bytes)) (q : Nat) : Decidable (Pub shm es q) :=
  inferInstanceAs (Decidable (∃ x ∈ es, _))

/-- Every object at an address in `P` is frozen. -/
def AllFrozen (z : Zend) (P : Nat → Prop) (shm : Mem) : Prop :=
  ∀ q o, P q → shm q = some o → o.Frozen z P shm

variable {υ : Type} {z : Zend} {pool : Pool} {sp : Space} {shm shm' : Mem}
  {es es' es₁ : List (Nat × Bytes)} {w w' w₁ : World υ} {live live' : Nat → Option Nat}
  {P : Nat → Prop} {p q : Nat} {k : Bytes}

/-- The state of the cache: the allocator is sound with the payloads in `live`, and the table holds
the entries `es`, each in a payload of its own. -/
structure World.Inv (pool : Pool) (z : Zend) (w : World υ) (es : List (Nat × Bytes))
    (live : Nat → Option Nat) : Prop where
  sma : pool.Ok w.sma live
  table : Table z (Pub w.shm es) w.shm w.slots es
  nentries : w.header.nentries = es.length
  ninserts : w.header.ninserts = es.length
  memSize : w.header.memSize = (es.map fun x => (entryAt w.shm x.1).memSize).sum
  nhits : w.header.nhits = (es.map fun x => (entryAt w.shm x.1).nhits).sum
  block : ∀ x ∈ es, ∃ sz, live x.1 = some sz ∧ (entryAt w.shm x.1).memSize ≤ sz
  nonempty : ∀ x ∈ es, 0 < (entryAt w.shm x.1).memSize
  frozen : AllFrozen z (Pub w.shm es) w.shm
  /-- The entries in serialized form are those with an encoder. -/
  encoder : ∀ x ∈ es, (w.encoder x.1).isSome = true ↔ ∃ p, (entryAt w.shm x.1).val = .ptr p

/-- What a run of operations may do to the cache. -/
structure World.Le (w : World υ) (es : List (Nat × Bytes)) (w' : World υ)
    (es' : List (Nat × Bytes)) : Prop where
  entries : es <+: es'
  evolves : Evolves (Pub w.shm es) w.shm w'.shm
  slots : w'.slots.length = w.slots.length
  freed : ∃ new, w'.freed = new ++ w.freed ∧ ∀ q ∈ new, ¬ Pub w.shm es q
  env : w'.env = w.env
  encoder : ∀ x ∈ es, w'.encoder x.1 = w.encoder x.1
  serializer : w'.serializer = w.serializer

/-! ## Published addresses -/

namespace Pub

/-- The first byte of an entry's block is published. -/
theorem entry {x : Nat × Bytes} (hx : x ∈ es) (h : 0 < (entryAt shm x.1).memSize) :
    Pub shm es x.1 := ⟨x, hx, le_rfl, by omega⟩

/-- Without entries nothing is published. -/
theorem nil : ¬ Pub shm [] q := by simp [Pub]

/-- What is published stays so when entries are added. -/
theorem mono (hes : es <+: es') (h : Pub shm es q) : Pub shm es' q := by
  obtain ⟨x, hx, hb⟩ := h
  exact ⟨x, hes.subset hx, hb⟩

/-- A new entry publishes its block. -/
theorem append : Pub shm (es ++ [(p, k)]) q ↔
    Pub shm es q ∨ p ≤ q ∧ q < p + (entryAt shm p).memSize := by
  simp only [Pub, List.mem_append, List.mem_singleton]
  constructor
  · rintro ⟨x, hx | rfl, hb⟩
    · exact .inl ⟨x, hx, hb⟩
    · exact .inr hb
  · rintro (⟨x, hx, hb⟩ | hb)
    · exact ⟨x, .inl hx, hb⟩
    · exact ⟨_, .inr rfl, hb⟩

/-- The blocks of the entries are as large as they were. -/
theorem congr (h : ∀ x ∈ es, (entryAt shm' x.1).memSize = (entryAt shm x.1).memSize) :
    Pub shm' es q ↔ Pub shm es q := by
  unfold Pub
  constructor
  · rintro ⟨x, hx, hb⟩
    exact ⟨x, hx, by rwa [← h x hx]⟩
  · rintro ⟨x, hx, hb⟩
    exact ⟨x, hx, by rwa [h x hx]⟩

end Pub

/-- The entry at a published address is the same but for three fields. -/
theorem Evolves.entryAt (h : Evolves P shm shm') (hp : P p) :
    (entryAt shm p).Touched (entryAt shm' p) := by
  rcases h p hp with h1 | ⟨e, e', h1, h2, h3⟩
  · rw [ImmutableCache.entryAt, ImmutableCache.entryAt, h1]
    exact .refl _
  · rwa [entryAt_eq h1, entryAt_eq h2]

/-- Frozen objects stay frozen. -/
theorem AllFrozen.evolves (h : AllFrozen z P shm) (hev : Evolves P shm shm') :
    AllFrozen z P shm' := by
  intro q o hq ho
  rcases hev q hq with h1 | ⟨e, e', h1, h2, h3⟩
  · exact (h q o hq (h1 ▸ ho)).mono (fun _ => id) hev.retains
  · obtain rfl : Obj.entry e' = o := by simpa [h2] using ho
    have hfr := (h q _ hq h1).mono (fun _ => id) hev.retains
    rw [h3.eq]
    exact hfr

namespace World.Inv

/-- Published addresses lie in the payload of an entry. -/
theorem pub_block (h : w.Inv pool z es live) (hq : Pub w.shm es q) :
    ∃ x ∈ es, ∃ sz, live x.1 = some sz ∧ x.1 ≤ q ∧ q < x.1 + sz := by
  obtain ⟨x, hx, h1, h2⟩ := hq
  obtain ⟨sz, hsz, hle⟩ := h.block x hx
  exact ⟨x, hx, sz, hsz, h1, by omega⟩

/-- Published addresses lie in the shared segments. -/
theorem pub_shared (h : w.Inv pool z es live) (hq : Pub w.shm es q) :
    pool.containsPointer q = true := by
  obtain ⟨x, -, sz, hsz, h1, h2⟩ := h.pub_block hq
  exact h.sma.containsPointer hsz h1 h2

/-- An entry is published. -/
theorem pub_entry (h : w.Inv pool z es live) {x : Nat × Bytes} (hx : x ∈ es) :
    Pub w.shm es x.1 := .entry hx (h.nonempty x hx)

/-- A payload that is not live is not published. -/
theorem not_pub (h : w.Inv pool z es live) {s : Sma} {sz n : Nat} (hp : live p = none)
    (hok : pool.Ok s (Function.update live p (some sz))) (hn : n ≤ sz) (hle : p ≤ q)
    (hlt : q < p + n) : ¬ Pub w.shm es q := by
  intro hq
  obtain ⟨x, -, b, hb, h1, h2⟩ := h.pub_block hq
  have hne : x.1 ≠ p := by
    rintro rfl
    rw [hp] at hb
    cases hb
  have := hok.apart (Function.update_self p (some sz) live)
    ((Function.update_of_ne hne _ _).trans hb) hne.symm
  omega

/-- An address that is not live is not that of an entry. -/
theorem not_entry (h : w.Inv pool z es live) (hp : live p = none) : p ∉ es.map Prod.fst := by
  intro hmem
  obtain ⟨x, hx, rfl⟩ := List.mem_map.1 hmem
  obtain ⟨sz, hsz, -⟩ := h.block x hx
  rw [hp] at hsz
  cases hsz

end World.Inv

/-! ## Growing states -/

namespace World.Le

/-- A state comes after itself. -/
theorem refl (w : World υ) (es : List (Nat × Bytes)) : w.Le es w es where
  entries := List.prefix_rfl
  evolves := .refl _ _
  slots := rfl
  freed := ⟨[], rfl, by simp⟩
  env := rfl
  encoder := fun _ _ => rfl
  serializer := rfl

/-- What is published stays published. -/
theorem pub (h : w.Le es w' es') (hinv : w.Inv pool z es live) (hq : Pub w.shm es q) :
    Pub w'.shm es' q := by
  refine .mono h.entries ((Pub.congr fun x hx => ?_).2 hq)
  rw [(h.evolves.entryAt (hinv.pub_entry hx)).eq]

/-- What comes later in two steps comes later. -/
theorem trans (h : w.Le es w₁ es₁) (hinv : w.Inv pool z es live) (h' : w₁.Le es₁ w' es') :
    w.Le es w' es' where
  entries := h.entries.trans h'.entries
  evolves := h.evolves.trans (h'.evolves.anti fun _ hq => h.pub hinv hq)
  slots := h'.slots.trans h.slots
  freed := by
    obtain ⟨new, hnew, hn⟩ := h.freed
    obtain ⟨new', hnew', hn'⟩ := h'.freed
    refine ⟨new' ++ new, by rw [hnew', hnew, List.append_assoc], fun q hq hpub => ?_⟩
    rcases List.mem_append.1 hq with hq | hq
    · exact hn' q hq (h.pub hinv hpub)
    · exact hn q hq hpub
  env := h'.env.trans h.env
  encoder x hx := (h'.encoder x (h.entries.subset hx)).trans (h.encoder x hx)
  serializer := h'.serializer.trans h.serializer

end World.Le

/-- Programs that leave the shared state alone. -/
theorem World.Le.of_same (h : w.Le es w₁ es₁) (hs : w₁.Same w') : w.Le es w' es₁ := by
  rw [hs]
  exact ⟨h.entries, h.evolves, h.slots, h.freed, h.env, h.encoder, h.serializer⟩

/-- A state with the same shared part comes after. -/
theorem World.Same.le (h : w.Same w') : w.Le es w' es := (World.Le.refl w es).of_same h

/-- Changes outside the published blocks, and to the `nhits` and `atime` of entries. -/
theorem World.Inv.evolves (h : w.Inv pool z es live)
    (hev : Evolves (Pub w.shm es) w.shm w'.shm)
    (hnext : ∀ x ∈ es, nextAt w'.shm x.1 = nextAt w.shm x.1) (hsma : pool.Ok w'.sma live')
    (hlive : ∀ x ∈ es, live' x.1 = live x.1)
    (henc : ∀ x ∈ es, w'.encoder x.1 = w.encoder x.1)
    (hfreed : ∃ new, w'.freed = new ++ w.freed ∧ ∀ q ∈ new, ¬ Pub w.shm es q)
    (hn : w'.header.nentries = w.header.nentries) (hi : w'.header.ninserts = w.header.ninserts)
    (hm : w'.header.memSize = w.header.memSize)
    (hh : w'.header.nhits = (es.map fun x => (entryAt w'.shm x.1).nhits).sum)
    (hslots : w'.slots = w.slots) (henv : w'.env = w.env) (hser : w'.serializer = w.serializer) :
    w'.Inv pool z es live' ∧ w.Le es w' es := by
  have hat : ∀ x ∈ es, (entryAt w.shm x.1).Touched (entryAt w'.shm x.1) :=
    fun x hx => hev.entryAt (h.pub_entry hx)
  have hsize : ∀ x ∈ es, (entryAt w'.shm x.1).memSize = (entryAt w.shm x.1).memSize :=
    fun x hx => by rw [(hat x hx).eq]
  have hpub : Pub w'.shm es = Pub w.shm es := funext fun q => propext (Pub.congr hsize)
  refine ⟨?_, List.prefix_rfl, hev, by rw [hslots], hfreed, henv, henc, hser⟩
  refine { sma := hsma, table := ?_, nentries := hn.trans h.nentries
           ninserts := hi.trans h.ninserts, memSize := ?_, nhits := hh, block := ?_
           nonempty := ?_, frozen := ?_, encoder := ?_ }
  · rw [hslots, hpub]
    exact h.table.of_evolves (fun x hx => h.pub_entry hx) hev hnext
  · rw [hm, h.memSize]
    exact congrArg _ (List.map_congr_left fun x hx => (hsize x hx).symm)
  · intro x hx
    rw [hlive x hx, hsize x hx]
    exact h.block x hx
  · intro x hx
    rw [hsize x hx]
    exact h.nonempty x hx
  · rw [hpub]
    exact h.frozen.evolves hev
  · intro x hx
    rw [(hat x hx).eq, henc x hx]
    exact h.encoder x hx

/-- Changes outside the published blocks and the header. -/
theorem World.Inv.frame (h : w.Inv pool z es live)
    (hshm : ∀ q, Pub w.shm es q → w'.shm q = w.shm q) (hsma : pool.Ok w'.sma live')
    (hlive : ∀ x ∈ es, live' x.1 = live x.1)
    (henc : ∀ x ∈ es, w'.encoder x.1 = w.encoder x.1)
    (hfreed : ∃ new, w'.freed = new ++ w.freed ∧ ∀ q ∈ new, ¬ Pub w.shm es q)
    (hheader : w'.header = w.header) (hslots : w'.slots = w.slots) (henv : w'.env = w.env)
    (hser : w'.serializer = w.serializer) : w'.Inv pool z es live' ∧ w.Le es w' es := by
  have hat : ∀ x ∈ es, entryAt w'.shm x.1 = entryAt w.shm x.1 := fun x hx => by
    rw [entryAt, entryAt, hshm _ (h.pub_entry hx)]
  refine h.evolves (fun q hq => .inl (hshm q hq)) (fun x hx => by rw [nextAt, nextAt, hat x hx])
    hsma hlive henc hfreed (by rw [hheader]) (by rw [hheader]) (by rw [hheader]) ?_ hslots henv hser
  rw [hheader, h.nhits]
  exact congrArg _ (List.map_congr_left fun x hx => by rw [hat x hx])

/-- The invariant is about the shared part. -/
theorem World.Same.inv (h : w.Same w') (hinv : w.Inv pool z es live) : w'.Inv pool z es live := by
  rw [h]
  exact ⟨hinv.sma, hinv.table, hinv.nentries, hinv.ninserts, hinv.memSize, hinv.nhits, hinv.block,
    hinv.nonempty, hinv.frozen, hinv.encoder⟩

/-! ## What a process reads -/

/-- The process's address space is that of the cache: its shared segments are those of the pool,
and the engine's empty array is in its own memory. -/
structure Space.On (sp : Space) (pool : Pool) (z : Zend) : Prop where
  zend : sp.zend = z
  shared : ∀ q, sp.shared q = pool.containsPointer q
  emptyArray : sp.shared z.emptyArray = false ∧
    ∃ t, sp.req z.emptyArray = some (.ht t) ∧ t.nNumUsed = 0 ∧ t.nNumOfElements = 0

/-- What a process may read: the published strings and tables, and its own memory. -/
def view (sp : Space) (shm : Mem) (es : List (Nat × Bytes)) : Mem := fun q =>
  if sp.shared q then
    if Pub shm es q then
      match shm q with
      | some (.entry _) => none
      | o => o
    else none
  else sp.req q

/-- In the shared segments a process sees what is published there. -/
theorem view_shared {o : Obj} (hq : sp.shared q = true) :
    view sp shm es q = some o ↔ Pub shm es q ∧ shm q = some o ∧ ∀ e, o ≠ .entry e := by
  rw [view, if_pos hq]
  by_cases hp : Pub shm es q
  · rw [if_pos hp]
    split
    next e he =>
      rw [he]
      grind
    next hne =>
      constructor
      · intro ho
        exact ⟨hp, ho, fun e he => hne e (ho.trans (congrArg some he))⟩
      · exact fun h => h.2.1
  · simp [hp]

/-- Later states still have everything that a process may read. -/
theorem extends_view (h : Retains (Pub shm es) shm shm') :
    Extends (view sp shm es) (sp.deref shm') := by
  intro q o ho
  cases hq : sp.shared q with
  | true =>
    obtain ⟨hp, ho, hne⟩ := (view_shared hq).1 ho
    rw [Space.deref_shared hq]
    exact h hp hne ho
  | false =>
    rw [Space.deref_req hq]
    simpa [view, hq] using ho

/-- In a later state a process reads the same. -/
theorem view_mono (hpub : ∀ q, Pub shm es q → Pub shm' es' q)
    (h : Retains (Pub shm es) shm shm') : Extends (view sp shm es) (view sp shm' es') := by
  intro q o ho
  cases hq : sp.shared q with
  | true =>
    obtain ⟨hp, ho, hne⟩ := (view_shared hq).1 ho
    exact (view_shared hq).2 ⟨hpub q hp, h hp hne ho, hne⟩
  | false => simpa [view, hq] using ho

/-- Later a process sees all that it has seen. -/
theorem World.Le.view (h : w.Le es w' es') (hinv : w.Inv pool z es live) (sp : Space) :
    Extends (view sp w.shm es) (ImmutableCache.view sp w'.shm es') :=
  view_mono (fun _ => h.pub hinv) h.evolves.retains

/-- A process reads its own memory and frozen strings. -/
theorem World.Inv.source (h : w.Inv pool z es live) (hon : sp.On pool z) {P : Nat → Prop}
    (hpub : ∀ q, Pub w.shm es q → P q) (hP : ∀ q, P q → sp.shared q = true) :
    Source sp P (view sp w.shm es) where
  req q hq := by simp [view, hq]
  pub q o hq ho := hpub q ((view_shared hq).1 ho).1
  str q s hq hs := by
    obtain ⟨hp, hs, -⟩ := (view_shared hq).1 hs
    rw [hon.zend]
    exact h.frozen q _ hp hs
  shared := hP

/-- A published object other than an entry is in the view. -/
theorem view_pub {o : Obj} (hsh : ∀ q, Pub shm es q → sp.shared q = true) (hq : Pub shm es q)
    (hne : ∀ e, o ≠ .entry e) (ho : sp.deref shm q = some o) :
    shm q = some o ∧ view sp shm es q = some o := by
  rw [Space.deref_shared (hsh q hq)] at ho
  exact ⟨ho, (view_shared (hsh q hq)).2 ⟨hq, ho, hne⟩⟩

/-- A published string that can be read is seen. -/
theorem readStr_view {s : Bytes} (hsh : ∀ q, Pub shm es q → sp.shared q = true)
    (hq : Pub shm es q) (hs : readStr z (sp.deref shm) q = some s) :
    readStr z (view sp shm es) q = some s := by
  obtain ⟨o, ho, hh⟩ := readStr_eq_some.1 hs
  exact readStr_eq_some.2 ⟨o, (view_pub hsh hq (by simp) ho).2, hh⟩

/-- The value of a published zval can be read in the view if those of the published tables can. -/
theorem readZval_view {f g : Nat → Option Value} (hsh : ∀ q, Pub shm es q → sp.shared q = true)
    (hfg : ∀ q a, Pub shm es q → f q = some a → g q = some a) {v : Zval} {a : Value}
    (hv : v.Frozen (Pub shm es) shm) (ha : readZval z (sp.deref shm) f v = some a) :
    readZval z (view sp shm es) g v = some a := by
  cases v with
  | null | bool _ | long _ | double _ => exact ha
  | string q rc =>
    obtain ⟨s, hs, rfl⟩ := Option.map_eq_some_iff.1 ha
    exact Option.map_eq_some_iff.2 ⟨s, readStr_view hsh hv.1 hs, rfl⟩
  | array q rc => exact hfg q a hv.1 ha
  | undef | object _ | resource _ | reference _ | indirect _ | ptr _ => cases ha

/-- A published table leads to published objects only, so it can be read in the view. -/
theorem readHt_view (h : AllFrozen z (Pub shm es) shm)
    (hsh : ∀ q, Pub shm es q → sp.shared q = true) {n : Nat} {a : Value} (hp : Pub shm es p)
    (ha : readHt z (sp.deref shm) n p = some a) : readHt z (view sp shm es) n p = some a := by
  induction n generalizing p a with
  | zero => cases ha
  | succ n ih =>
    have hval := fun {v a} => readZval_view (z := z) (v := v) (a := a) hsh
      fun q a hq => ih (p := q) (a := a) hq
    obtain ⟨t, ht, hcase⟩ := readHt_succ.1 ha
    obtain ⟨ht, htv⟩ := view_pub hsh hp (by simp) ht
    obtain ⟨-, hfr⟩ := h p _ hp ht
    refine readHt_succ.2 ⟨t, htv, ?_⟩
    obtain hz | ⟨hz, hpk, hash, vs, els, hd, hlen, hcount, hels, rfl⟩ |
      ⟨hz, hpk, hash, bs, els, hd, hlen, hcount, hels, rfl⟩ := hcase
    · exact .inl hz
    · have hpub := (hfr.resolve_left fun h => hz h.1).1
      obtain ⟨hd, hdv⟩ := view_pub hsh hpub (by simp) hd
      exact .inr (.inl ⟨hz, hpk, hash, vs, els, hdv, hlen, hcount,
        readPacked_mono (fun v hv _ _ => hval (h _ _ hpub hd v hv)) hels, rfl⟩)
    · have hpub := (hfr.resolve_left fun h => hz h.1).1
      obtain ⟨hd, hdv⟩ := view_pub hsh hpub (by simp) hd
      refine .inr (.inr ⟨hz, hpk, hash, bs, els, hdv, hlen, hcount, ?_, rfl⟩)
      refine readBuckets_mono (fun b hb hu k hk => ?_)
        (fun b hb hu _ => hval (h _ _ hpub hd b hb hu).2) hels
      cases hkey : b.key with
      | none =>
        rw [hkey] at hk
        exact hk
      | some key =>
        rw [hkey] at hk
        obtain ⟨s, hs, rfl⟩ := Option.map_eq_some_iff.1 hk
        exact Option.map_eq_some_iff.2
          ⟨s, readStr_view hsh ((h _ _ hpub hd b hb hu).1 key hkey).1 hs, rfl⟩

end ImmutableCache
