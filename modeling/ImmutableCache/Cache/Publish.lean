import ImmutableCache.Cache.Inv

/-!
# Publishing a draft

A store fills a block that nothing points to, and then links it. `Drafted` says that the block is
ready: its entry has the key, and with the block among the published ones everything is still frozen.
That stays so while other entries are added (`Drafted.mono`), and linking the block at the end of its
chain adds its entry to the table (`World.Shaped.link`). `World.Shaped` is the part of the invariant
that does not count anything.
-/

namespace ImmutableCache

variable {υ : Type} {z : Zend} {pool : Pool} {sp : Space} {shm shm' rd rd' : Mem}
  {es es' : List (Nat × Bytes)} {w w' : World υ} {live live' : Nat → Option Nat} {P : Nat → Prop}
  {ser : Serializer υ} {depth n p q sz : Nat} {orig : Entry} {k : Bytes} {c : Ctxt} {val v : Zval}

/-! ## The shape of the cache -/

/-- The table holds the entries `es`, each in a payload of its own among those in `live`. -/
structure World.Shaped (pool : Pool) (z : Zend) (w : World υ) (es : List (Nat × Bytes))
    (live : Nat → Option Nat) : Prop where
  sma : pool.Ok w.sma live
  table : Table z (Pub w.shm es) w.shm w.slots es
  block : ∀ x ∈ es, ∃ sz, live x.1 = some sz ∧ (entryAt w.shm x.1).memSize ≤ sz
  nonempty : ∀ x ∈ es, 0 < (entryAt w.shm x.1).memSize
  frozen : AllFrozen z (Pub w.shm es) w.shm

/-- Without its counters the invariant is that of the table. -/
theorem World.Inv.shaped (h : w.Inv pool z es live) : w.Shaped pool z es live :=
  ⟨h.sma, h.table, h.block, h.nonempty, h.frozen⟩

/-- With the counters and the serializers that fit the table, the whole invariant holds. -/
theorem World.Shaped.inv (h : w.Shaped pool z es live) (ser : Serializer υ) :
    ∃ header encoder, { w with header := header, encoder := encoder }.Inv pool z es live := by
  classical
  refine ⟨⟨(es.map fun x => (entryAt w.shm x.1).nhits).sum, 0, es.length, es.length,
      (es.map fun x => (entryAt w.shm x.1).memSize).sum, 0⟩,
    fun p => if ∃ q, (entryAt w.shm p).val = .ptr q then some ser else none, ?_⟩
  refine { sma := h.sma, table := h.table, nentries := rfl, ninserts := rfl, memSize := rfl
           nhits := rfl, block := h.block, nonempty := h.nonempty, frozen := h.frozen
           encoder := fun x _ => ?_ }
  dsimp only
  split
  next hptr => exact iff_of_true rfl hptr
  next hptr => exact iff_of_false (by simp) hptr

/-! ## Drafts -/

/-- A value reads the same in a memory with more objects. -/
theorem readValue_mono {a : Value} (hext : Extends rd rd')
    (ha : readZval z rd (readHt z rd depth) v = some a) :
    readZval z rd' (readHt z rd' depth) v = some a :=
  hext.readZval (fun p a => hext.readHt le_rfl p a) v a ha

/-- In the memory `rd`, the value `v` stands for the value `orig`: it reads the same, or it is a
string that the serializer has made of it. -/
def StandsFor (sp : Space) (rd : Mem) (ser : Serializer υ) (depth : Nat) (orig v : Zval) : Prop :=
  (∃ a, readZval sp.zend rd (readHt sp.zend rd depth) orig = some a ∧
    readZval sp.zend rd (readHt sp.zend rd depth) v = some a) ∨
  ∃ q buf i mem, v = .ptr q ∧ readStr sp.zend rd q = some buf ∧ ser.serialize i mem orig = some buf

/-- A value stands for another one also in a larger memory. -/
theorem StandsFor.mono (h : StandsFor sp rd ser depth val v) (hext : Extends rd rd') :
    StandsFor sp rd' ser depth val v := by
  obtain ⟨a, ha, ha'⟩ | ⟨q, buf, i, mem, hv, hbuf, hser⟩ := h
  · exact .inl ⟨a, readValue_mono hext ha, readValue_mono hext ha'⟩
  · exact .inr ⟨q, buf, i, mem, hv, hext.readStr hbuf, hser⟩

/-- The `n` bytes at `p` hold a copy of `orig` with the key `k` that can be added to the table with
the entries `es`. -/
structure Drafted (sp : Space) (ser : Serializer υ) (depth n : Nat) (orig : Entry) (k : Bytes)
    (es : List (Nat × Bytes)) (p : Nat) (shm : Mem) : Prop where
  entry : ∃ kp v, shm p = some (.entry { orig with key := kp, val := v, memSize := n })
  pos : 0 < n
  key : HasKey sp.zend (Pub shm (es ++ [(p, k)])) shm p k
  frozen : ∀ q o, p ≤ q → q < p + n → shm q = some o →
    o.Frozen sp.zend (Pub shm (es ++ [(p, k)])) shm
  value : StandsFor sp (view sp shm (es ++ [(p, k)])) ser depth orig.val (entryAt shm p).val

namespace Drafted

/-- The draft has the size of its block. -/
theorem memSize (h : Drafted sp ser depth n orig k es p shm) : (entryAt shm p).memSize = n := by
  obtain ⟨kp, v, he⟩ := h.entry
  rw [entryAt_eq he]

/-- Adding the draft publishes its block. -/
theorem pub (h : Drafted sp ser depth n orig k es p shm) :
    Pub shm (es ++ [(p, k)]) q ↔ Pub shm es q ∨ p ≤ q ∧ q < p + n := by
  rw [Pub.append, h.memSize]

/-- With the draft, everything that is published is frozen. -/
theorem allFrozen (h : Drafted sp ser depth n orig k es p shm)
    (hes : AllFrozen sp.zend (Pub shm es) shm) :
    AllFrozen sp.zend (Pub shm (es ++ [(p, k)])) shm := by
  intro q o hq ho
  rcases h.pub.1 hq with hq | ⟨h1, h2⟩
  · exact (hes q o hq ho).mono (fun q hq => hq.mono (List.prefix_append _ _))
      (Extends.refl _).retains
  · exact h.frozen q o h1 h2 ho

/-- Nothing in the block changes, and other entries are added. -/
theorem mono (h : Drafted sp ser depth n orig k es p shm)
    (hpub : ∀ q, Pub shm es q → Pub shm' es' q) (hretains : Retains (Pub shm es) shm shm')
    (hblock : ∀ q, p ≤ q → q < p + n → shm' q = shm q) :
    Drafted sp ser depth n orig k es' p shm' := by
  obtain ⟨kp, v, he⟩ := h.entry
  have hpos := h.pos
  have he' : shm' p = some (.entry { orig with key := kp, val := v, memSize := n }) :=
    (hblock p le_rfl (by omega)).trans he
  have hP : ∀ q, Pub shm (es ++ [(p, k)]) q → Pub shm' (es' ++ [(p, k)]) q := by
    intro q hq
    rw [Pub.append, entryAt_eq he']
    exact (h.pub.1 hq).imp_left (hpub q)
  have hR : Retains (Pub shm (es ++ [(p, k)])) shm shm' := by
    intro q o hq hne ho
    rcases h.pub.1 hq with hq | ⟨h1, h2⟩
    · exact hretains hq hne ho
    · exact (hblock q h1 h2).trans ho
  refine ⟨⟨kp, v, he'⟩, hpos, ?_, fun q o h1 h2 ho => ?_, ?_⟩
  · obtain ⟨e, hke, hkey, o, ho, hfr⟩ := h.key
    obtain rfl : { orig with key := kp, val := v, memSize := n } = e := by
      simpa [he] using hke
    exact ⟨_, he', hP _ hkey, o, hR hkey (by simp) ho, hfr⟩
  · rw [hblock q h1 h2] at ho
    exact (h.frozen q o h1 h2 ho).mono hP hR
  · rw [entryAt_eq he', ← entryAt_eq he]
    exact h.value.mono (view_mono hP hR)

end Drafted

/-- The value that the copy has, in what a process may read. -/
theorem CopiedVal.standsFor {shm₁ : Mem} (h : CopiedVal sp P rd shm depth c val v)
    (hst : Stored sp rd ser depth shm₁ orig c) (horig : orig.val = val)
    (hP : ∀ q, P q → Pub shm es q) (hsh : ∀ q, Pub shm es q → sp.shared q = true)
    (hfr : AllFrozen sp.zend (Pub shm es) shm) (hext : Extends rd (view sp shm es)) :
    StandsFor sp (view sp shm es) ser depth val v := by
  subst horig
  unfold CopiedVal at h
  cases hst with
  | direct hu ha =>
    rw [hu, if_neg Bool.false_ne_true] at h
    obtain ⟨hv, a, ha, ha'⟩ := h
    refine .inl ⟨a, readValue_mono hext ha, readZval_view hsh (fun q a hq hr => readHt_view hfr hsh hq hr)
      (hv.mono hP (Extends.refl _).retains) ha'⟩
  | serialized hu hbuf _ hser =>
    rw [hu, if_pos rfl] at h
    obtain ⟨q, buf, hv, hq, hbuf', hstr⟩ := h
    obtain rfl := Option.some.inj (hbuf.symm.trans hbuf')
    exact .inr ⟨q, _, _, _, hv, readStr_view hsh (hP q hq) hstr.read, hser⟩

/-- A copy into a block that is not published is a draft. -/
theorem Copied.drafted {shm₁ : Mem} (h : Copied sp P rd depth c orig k p shm shm')
    (hst : Stored sp rd ser depth shm₁ orig c)
    (hP : ∀ q, P q ↔ Pub shm' es q ∨ p ≤ q ∧ q < p + c.size)
    (hsh : ∀ q, P q → sp.shared q = true) (hes : AllFrozen sp.zend (Pub shm' es) shm')
    (hext : Extends rd (view sp shm' es)) : Drafted sp ser depth c.size orig k es p shm' := by
  obtain ⟨kp, v, he, hkp, hfr, hval⟩ := h.entry
  have hpub (q : Nat) : Pub shm' (es ++ [(p, k)]) q ↔ P q := by
    rw [Pub.append, entryAt_eq he, hP]
  have hsh' (q : Nat) (hq : Pub shm' (es ++ [(p, k)]) q) : sp.shared q = true :=
    hsh q ((hpub q).1 hq)
  have hkey : HasKey sp.zend (Pub shm' (es ++ [(p, k)])) shm' p k := by
    obtain ⟨o, ho, hh⟩ := hfr
    rw [Space.deref_shared (hsh kp hkp)] at ho
    exact ⟨_, he, (hpub kp).2 hkp, o, ho, hh⟩
  have hblock (q : Nat) (o : Obj) (h1 : p ≤ q) (h2 : q < p + c.size) (ho : shm' q = some o) :
      o.Frozen sp.zend (Pub shm' (es ++ [(p, k)])) shm' :=
    (h.frozen q o h1 h2 ho).mono (fun q hq => (hpub q).2 hq) (Extends.refl _).retains
  have hall : AllFrozen sp.zend (Pub shm' (es ++ [(p, k)])) shm' := by
    intro q o hq ho
    rcases (hP q).1 ((hpub q).1 hq) with hq | ⟨h1, h2⟩
    · exact (hes q o hq ho).mono (fun q hq => hq.mono (List.prefix_append _ _))
        (Extends.refl _).retains
    · exact hblock q o h1 h2 ho
  refine ⟨⟨kp, v, he⟩, h.nonempty, hkey, hblock, ?_⟩
  rw [entryAt_eq he]
  exact hval.standsFor hst rfl (fun q hq => (hpub q).2 hq) hsh' hall
    (hext.trans (view_mono (fun q hq => hq.mono (List.prefix_append _ _)) (Extends.refl _).retains))

/-! ## Linking -/

/-- Linking writes to the slot or to the last entry of the chain. -/
theorem linkEntry_of_ne {shm : Mem} {slots : List (Option Nat)} {s : Nat} {place : Option Nat}
    (h : place ≠ some q) : (linkEntry shm slots s p place).1 q = shm q := by
  cases place with
  | none => rfl
  | some p' =>
    refine Function.update_of_ne ?_ _ _
    rintro rfl
    exact h rfl

/-- Linking a draft with a free key at the end of its chain adds it to the table. -/
theorem World.Shaped.link (h : w.Shaped pool sp.zend es live)
    (hd : Drafted sp ser depth n orig k es p w.shm) (hnext : orig.next = none)
    (hlive : live p = some sz) (hn : n ≤ sz) (hfresh : p ∉ es.map Prod.fst)
    (hfree : bound es k = none) {r : Mem × List (Option Nat)}
    (hr : r = linkEntry w.shm w.slots (sp.zend.hash k % w.slots.length) p
      (chainOf sp.zend w.slots.length es (sp.zend.hash k % w.slots.length)).getLast?) :
    { w with shm := r.1, slots := r.2 }.Shaped pool sp.zend (es ++ [(p, k)]) live ∧
      Evolves (Pub w.shm (es ++ [(p, k)])) w.shm r.1 ∧ r.2.length = w.slots.length := by
  obtain ⟨kp, v, he⟩ := hd.entry
  have hpos := hd.pos
  have hmono : ∀ q, Pub w.shm es q → Pub w.shm (es ++ [(p, k)]) q :=
    fun q hq => hq.mono (List.prefix_append _ _)
  have hpub (x : Nat × Bytes) (hx : x ∈ es) : Pub w.shm es x.1 := .entry hx (h.nonempty x hx)
  obtain ⟨ht, hev, hlen⟩ := (h.table.mono hmono).linkEntry (fun x hx => hmono _ (hpub x hx)) hd.key
    (hd.pub.2 (.inr ⟨le_rfl, by omega⟩)) (by rw [nextAt, entryAt_eq he]; exact hnext) hfresh hfree hr
  have hnonempty : ∀ x ∈ es ++ [(p, k)], 0 < (entryAt w.shm x.1).memSize := by
    intro x hx
    rcases List.mem_append.1 hx with hx | hx
    · exact h.nonempty x hx
    · obtain rfl := List.mem_singleton.1 hx
      exact hd.memSize ▸ hpos
  -- the entries keep their blocks
  have hsize : ∀ x ∈ es ++ [(p, k)], (entryAt r.1 x.1).memSize = (entryAt w.shm x.1).memSize :=
    fun x hx => by rw [(hev.entryAt (.entry hx (hnonempty x hx))).eq]
  have hpub' : Pub r.1 (es ++ [(p, k)]) = Pub w.shm (es ++ [(p, k)]) :=
    funext fun q => propext (Pub.congr hsize)
  refine ⟨{ sma := h.sma, table := hpub' ▸ ht, block := ?_, nonempty := ?_, frozen := ?_ }, hev, hlen⟩
  · intro x hx
    rw [hsize x hx]
    rcases List.mem_append.1 hx with hx | hx
    · exact h.block x hx
    · obtain rfl := List.mem_singleton.1 hx
      exact ⟨sz, hlive, hd.memSize ▸ hn⟩
  · intro x hx
    rw [hsize x hx]
    exact hnonempty x hx
  · rw [hpub']
    exact (hd.allFrozen h.frozen).evolves hev

end ImmutableCache
