import ImmutableCache.Cache.Alone
import ImmutableCache.Cache.Progress

/-!
# The cache is linearizable

Any number of processes execute stores and lookups, a step at a time and in any order
(`Processes.Step`). `Processes.Inv` holds at every point of such a run: the table has its shape, every
process knows what it is to know at the point that it has come to (`Process.Sound`), no two processes
own one block or hold one lock, and the calls that have taken effect stand in one order, in which they
could have been made one after the other. The map of this order is that of the table.
-/

namespace ImmutableCache

open Procs Linear

variable {ι υ : Type} {z : Zend} {pool : Pool} {php : Serializer υ} {es es' : List (Nat × Bytes)}
  {w w' w₀ : World υ} {live live' : Nat → Option Nat} {recursive : Bool} {k : Bytes} {p : Nat}
  {sp : Space} {r : Request υ} {pc pc' : Pc υ}

/-! ## What a call reads when it is made -/

/-- However far a chain is followed, only its entries are met. -/
theorem walk_subset {shm : Mem} {head : Option Nat} {ps : List Nat} (fuel : Nat)
    (hc : Chain (nextAt shm) head ps) : walk shm fuel head ⊆ ps := by
  induction ps generalizing fuel head with
  | nil =>
    rw [Chain.nil_iff.1 hc]
    cases fuel <;> simp [walk]
  | cons p ps ih =>
    obtain ⟨rfl, hc⟩ := hc
    cases fuel with
    | zero => simp [walk]
    | succ fuel =>
      rw [walk]
      exact List.cons_subset_cons _ (ih fuel hc)

/-- What the walks along the chains come to is in the table, whatever the number of entries in the
header. -/
theorem World.Shaped.entries (h : w.Shaped pool z es live) (header : Header) :
    { w with header := header }.entries ⊆ es := by
  intro x hx
  simp only [World.entries, List.mem_flatMap, List.mem_range, List.mem_map] at hx
  obtain ⟨s, hs, p, hp, rfl⟩ := hx
  have hmem := walk_subset _ (h.table.chain s hs) hp
  obtain ⟨k, hk, -⟩ := Table.mem_chainOf.1 hmem
  rwa [(h.table.entry _ hk).keyBytes]

/-- Whatever the header says, a process can read no more than the memory that is published. -/
theorem World.Shaped.view (h : w.Shaped pool z es live) (header : Header) (sp : Space) :
    Extends ({ w with header := header }.view sp) (ImmutableCache.view sp w.shm es) := by
  refine view_mono (fun q hq => ?_) fun {q o} _ _ ho => ho
  obtain ⟨x, hx, hb⟩ := hq
  exact ⟨x, h.entries header hx, hb⟩

/-- A legal call reads its key and its value. -/
theorem Request.Legal.reads {header : Header} (h : r.Legal pool z { w with header := header })
    (hk : r.key { w with header := header } = some k) (hstart : r.start = some pc)
    (hw : w.Shaped pool z es live) :
    r.sp.On pool z ∧ r.Reads (ImmutableCache.view r.sp w.shm es) k := by
  refine ⟨h.1, ?_⟩
  have hview := hw.view header r.sp
  have hcall := h.2
  unfold Request.Reads
  unfold Request.key at hk
  unfold Request.start at hstart
  cases hc : r.call with
  | store key val t =>
    rw [hc] at hcall hk
    obtain ⟨k', hwell⟩ := hcall
    obtain rfl : k' = k := Option.some.inj (hwell.key.symm.trans hk)
    exact hwell.mono hview fun p hp => view_req hp
  | fetch key t | find key t | exist key =>
    rw [hc] at hk
    exact hview.readStr hk
  | stat _ | info _ | smaInfo _ | iteratorFetch _ | iteratorTotals _ =>
    rw [hc] at hstart
    cases hstart

/-- Where a call begins. -/
theorem Request.start_pc (hstart : r.start = some pc) :
    pc = .persistSize ∨ pc = .rlock := by
  unfold Request.start at hstart
  cases hc : r.call with
  | store _ _ _ =>
    rw [hc] at hstart
    exact .inl (Option.some.inj hstart).symm
  | fetch _ _ | find _ _ | exist _ =>
    rw [hc] at hstart
    exact .inr (Option.some.inj hstart).symm
  | stat _ | info _ | smaInfo _ | iteratorFetch _ | iteratorTotals _ =>
    rw [hc] at hstart
    cases hstart

/-! ## The invariant -/

/-- Two processes execute different calls, own different blocks and do not hold one lock in
conflicting modes. -/
structure Process.Apart (recursive : Bool) (p q : Process υ) : Prop where
  id : p.id ≠ q.id
  block : ∀ a, p.pc.owns = some a → q.pc.owns ≠ some a
  lock : ∀ l m m', (l, m) ∈ p.pc.holds recursive → (l, m') ∈ q.pc.holds recursive →
    m = .shared ∧ m' = .shared

/-- Being apart is symmetric. -/
theorem Process.Apart.symm {p q : Process υ} (h : p.Apart recursive q) : q.Apart recursive p where
  id := h.id.symm
  block a hq hp := h.block a hp hq
  lock l m m' hq hp := (h.lock l m' m hp hq).symm

namespace Processes

/-- The state of the processes: the table holds the entries `es`, and the calls in `seq` have taken
effect. -/
structure Inv (recursive : Bool) (pool : Pool) (z : Zend) (php : Serializer υ) (s : Processes ι υ)
    (es : List (Nat × Bytes)) (live : Nat → Option Nat) (seq : List (Taken υ)) : Prop where
  shaped : s.world.Shaped pool z es live
  linear : Linearization (Answers php) s.history (fun _ => none) seq (bound es)
  numbered : ∀ id a, .call id a ∈ s.history → id < s.history.length
  sound : ∀ i p, s.running i = some p →
    p.Sound pool z php s.world es live seq ∧ .call p.id (p.req, p.key) ∈ s.history
  apart : ∀ i j p q, i ≠ j → s.running i = some p → s.running j = some q → p.Apart recursive q
  fits : ∀ x ∈ seq, x.2.1.1.sp.On pool z ∧ Fits php s.world es x.2

section

variable [DecidableEq ι] {f : ι → Option (Process υ)} {i : ι} {x : Option (Process υ)}

/-- What holds of the processes that are left alone and of the one that is not. -/
theorem forall_update {P : Process υ → Prop} (h : ∀ j q, j ≠ i → f j = some q → P q)
    (hx : ∀ p, x = some p → P p) (j : ι) (q : Process υ) (hq : Function.update f i x j = some q) :
    P q := by
  by_cases hj : j = i
  · subst hj
    rw [Function.update_self] at hq
    exact hx q hq
  · rw [Function.update_of_ne hj] at hq
    exact h j q hj hq

/-- Processes stay apart if the one that has changed is apart from the others. -/
theorem apart_update
    (h : ∀ i j p q, i ≠ j → f i = some p → f j = some q → p.Apart recursive q)
    (hx : ∀ p, x = some p → ∀ j q, j ≠ i → f j = some q → p.Apart recursive q) (j l : ι)
    (p q : Process υ) (hjl : j ≠ l) (hp : Function.update f i x j = some p)
    (hq : Function.update f i x l = some q) : p.Apart recursive q := by
  by_cases hj : j = i
  · subst hj
    rw [Function.update_self] at hp
    rw [Function.update_of_ne hjl.symm] at hq
    exact hx p hp l q hjl.symm hq
  · rw [Function.update_of_ne hj] at hp
    by_cases hl : l = i
    · subst hl
      rw [Function.update_self] at hq
      exact (hx q hq j p hj hp).symm
    · rw [Function.update_of_ne hl] at hq
      exact h j l p q hjl hp hq

end

/-! ## Steps -/

namespace Inv

variable [DecidableEq ι] {s s' : Processes ι υ} {seq : List (Taken υ)} {i : ι} {p : Process υ}

/-- A process makes a call. -/
theorem call {header : Header} (h : s.Inv recursive pool z php es live seq)
    (hstart : r.start = some pc) (hlegal : r.Legal pool z { s.world with header := header })
    (hk : r.key { s.world with header := header } = some k) :
    Inv recursive pool z php
      { s with
        running := Function.update s.running i (some ⟨s.history.length, r, k, pc⟩)
        history := s.history ++ [.call s.history.length (r, k)] } es live seq := by
  have hfresh : ∀ a, .call s.history.length a ∉ s.history := fun a ha =>
    Nat.lt_irrefl _ (h.numbered _ _ ha)
  have hwait : s.history.length ∉ seq.map Prod.fst := by
    intro hmem
    obtain ⟨x, hx, hid⟩ := List.mem_map.1 hmem
    exact Nat.lt_irrefl _ (hid ▸ h.numbered _ _ (h.linear.called x hx))
  obtain ⟨hon, hreads⟩ := hlegal.reads hk hstart h.shaped
  let pr : Process υ := ⟨s.history.length, r, k, pc⟩
  have hpr : pr.At pool php s.world es live seq pc ∧ pc.holds recursive = [] ∧ pc.owns = none := by
    rcases Request.start_pc hstart with rfl | rfl
    · exact ⟨hwait, rfl, rfl⟩
    · exact ⟨hwait, rfl, rfl⟩
  obtain ⟨hat, hholds, howns⟩ := hpr
  refine
    { shaped := h.shaped
      linear := h.linear.call hfresh (r, k)
      numbered := fun id a ha => ?_
      sound := ?_
      apart := ?_
      fits := h.fits }
  · rw [List.length_append]
    rcases List.mem_append.1 ha with ha | ha
    · have := h.numbered id a ha
      omega
    · cases List.mem_singleton.1 ha
      exact Nat.lt_succ_self _
  · refine forall_update (fun j q _ hq => ?_) fun p hp => ?_
    · exact ⟨(h.sound j q hq).1, List.mem_append_left _ (h.sound j q hq).2⟩
    · cases hp
      exact ⟨⟨hon, hreads, hat⟩, by simp⟩
  · refine apart_update h.apart fun p hp j q hj hq => ?_
    cases hp
    refine ⟨fun hid => ?_, fun a ha => ?_, fun l m m' hl => ?_⟩
    · have hlt := h.numbered _ _ (h.sound j q hq).2
      exact Nat.ne_of_gt hlt hid
    · rw [howns] at ha
      cases ha
    · rw [hholds] at hl
      cases hl

/-- A process goes on with its call. -/
theorem move (h : s.Inv recursive pool z php es live seq) (hrun : s.running i = some p)
    (hmove : p.req.Moves recursive pool php s.world p.pc w pc') (hfree : s.Free recursive i pc') :
    ∃ es' live' new, p.Progress pool z php seq s.world es live p.pc w es' live' new pc' ∧
      Inv recursive pool z php
        { s with world := w, running := Function.update s.running i (some { p with pc := pc' }) }
        es' live' (seq ++ new) := by
  obtain ⟨hsound, hcall⟩ := h.sound i p hrun
  have hon := hsound.on
  have hz := hon.zend
  subst hz
  obtain ⟨es', live', new, hp⟩ := Process.progress hmove h.shaped hon hsound.reads
    (fun x hx => (h.fits x hx).2) hsound.at_pc
  have hnew : ∀ x ∈ new, x.1 = p.id := by
    intro x hx
    cases hp.takesEffect with
    | no => cases hx
    | yes =>
      rw [List.mem_singleton.1 hx]
  refine ⟨es', live', new, hp,
    { shaped := hp.shaped
      linear := ?_
      numbered := h.numbered
      sound := ?_
      apart := ?_
      fits := fun x hx => ?_ }⟩
  · cases hp.takesEffect with
    | no hes =>
      rw [List.append_nil, hes]
      exact h.linear
    | yes hwait hans _ => exact h.linear.take hcall hwait hans
  · refine forall_update (fun j q hj hq => ?_) fun q hq => ?_
    · -- the step is one of another process
      have hapart := h.apart i j p q hj.symm hrun hq
      refine ⟨(h.sound j q hq).1.others h.shaped (hp.others.anti (fun a ha hpa => ?_) fun hl hpl => ?_)
        (fun x hx => List.mem_append_left _ hx) fun x hx hid => ?_, (h.sound j q hq).2⟩
      · exact hapart.block a hpa ha
      · have := hapart.lock .global .exclusive .exclusive (Pc.locks_iff.2 ⟨rfl, hpl⟩)
          (Pc.locks_iff.2 ⟨rfl, hl⟩)
        cases this.1
      · rcases List.mem_append.1 hx with hx | hx
        · exact hx
        · exact absurd ((hnew x hx).symm.trans hid) hapart.id
    · cases hq
      refine ⟨⟨hon, hsound.reads.mono (hp.others.view h.shaped _) fun q hq => view_req hq, hp.at_pc⟩,
        hcall⟩
  · refine apart_update h.apart fun p' hp' j q hj hq => ?_
    cases hp'
    have hapart := h.apart i j p q hj.symm hrun hq
    refine ⟨hapart.id, fun a ha hqa => ?_, fun l m m' hl hl' => hfree l m hl j hj q hq m' hl'⟩
    rcases hp.payloads.new a ha with hown | hnone
    · exact hapart.block a hown hqa
    · obtain ⟨sz, hsz, -⟩ := (h.sound j q hq).1.at_pc.owned hqa
      rw [hnone] at hsz
      cases hsz
  · rcases List.mem_append.1 hx with hx | hx
    · exact ⟨(h.fits x hx).1, (h.fits x hx).2.others hp.others h.shaped (h.fits x hx).1⟩
    · cases hp.takesEffect with
      | no => cases hx
      | yes _ _ hfits =>
        rw [List.mem_singleton.1 hx]
        exact ⟨hon, hfits⟩

/-- A process stops: it has returned, or it bails out. -/
theorem leave (h : s.Inv recursive pool z php es live seq) :
    Inv recursive pool z php { s with running := Function.update s.running i none } es live seq where
  shaped := h.shaped
  linear := h.linear
  numbered := h.numbered
  sound := forall_update (fun j q _ hq => h.sound j q hq) fun p hp => by cases hp
  apart := apart_update h.apart fun p hp => by cases hp
  fits := h.fits

omit [DecidableEq ι] in
/-- A call returns. -/
theorem ret {entry : Option Nat} {o : Outcome υ} (h : s.Inv recursive pool z php es live seq)
    (hx : (p.id, (p.req, p.key), (entry, o)) ∈ seq) :
    Inv recursive pool z php { s with history := s.history ++ [.ret p.id (entry, o)] } es live seq where
  shaped := h.shaped
  linear := h.linear.ret hx
  numbered id a ha := by
    have := h.numbered id a (by simpa using ha)
    rw [List.length_append]
    omega
  sound j q hq := ⟨(h.sound j q hq).1, List.mem_append_left _ (h.sound j q hq).2⟩
  apart := h.apart
  fits := h.fits

/-- The invariant is kept. -/
theorem step (h : s.Inv recursive pool z php es live seq)
    (hstep : Step recursive pool z php s i s') :
    ∃ es' live' new, s'.Inv recursive pool z php es' live' (seq ++ new) := by
  cases hstep with
  | call _ hstart hlegal hk =>
    refine ⟨es, live, [], ?_⟩
    rw [List.append_nil]
    exact h.call hstart hlegal hk
  | move hrun hmove hfree =>
    obtain ⟨es', live', new, -, h'⟩ := h.move hrun hmove hfree
    exact ⟨es', live', new, h'⟩
  | ret hrun hpc =>
    refine ⟨es, live, [], ?_⟩
    rw [List.append_nil]
    have hat := (h.sound _ _ hrun).1.at_pc
    rw [hpc] at hat
    exact (h.ret hat).leave
  | bail hrun _ =>
    refine ⟨es, live, [], ?_⟩
    rw [List.append_nil]
    exact h.leave

/-- What is known of the state is kept over a whole run. -/
theorem run {is : List ι} (h : s.Inv recursive pool z php es live seq)
    (hrun : Run (Step recursive pool z php) s is s') :
    ∃ es' live' seq', s'.Inv recursive pool z php es' live' seq' := by
  induction hrun generalizing es live seq with
  | nil => exact ⟨es, live, seq, h⟩
  | cons h1 _ ih =>
    obtain ⟨es₁, live₁, new, h₁⟩ := h.step h1
    exact ih h₁

omit [DecidableEq ι] in
/-- No call has been made yet. -/
theorem start (h : w.Shaped pool z [] live) :
    (Processes.start w : Processes ι υ).Inv recursive pool z php [] live [] where
  shaped := h
  linear := .nil _ _
  numbered id a ha := by cases ha
  sound i p hp := by cases hp
  apart i j p q _ hp := by cases hp
  fits x hx := by cases hx

end Inv

end Processes

/-! ## The order of the calls -/

/-- A call with its result, as an operation on the map from keys to entries. -/
def mapOp (x : (Request υ × Bytes) × (Option Nat × Outcome υ)) : WriteOnce Bytes Nat :=
  match x.2.2 with
  | .stored ret => .insert x.1.2 x.2.1 ret
  | _ => .lookup x.1.2 x.2.1

section

variable {entry : Option Nat} {o : Outcome υ} {x : (Request υ × Bytes) × (Option Nat × Outcome υ)}
  {m m' : Bytes → Option Nat} {key : Nat}

/-- A call that only replies is a lookup of the map. -/
theorem mapOp_reply (h : r.reply php w entry = some o) (k : Bytes) :
    mapOp ((r, k), (entry, o)) = .lookup k entry := by
  unfold Request.reply at h
  cases hc : r.call with
  | fetch _ _ | find _ _ | exist _ | stat _ =>
    rw [hc] at h
    cases h
    rfl
  | store _ _ _ | info _ | smaInfo _ | iteratorFetch _ | iteratorTotals _ =>
    rw [hc] at h
    cases h

/-- Calls made one after the other are operations on a write-once map. -/
theorem Answers.step (h : Answers php m x m') : WriteOnce.Step m (mapOp x) m' := by
  cases h with
  | store _ hstep => exact hstep
  | lookup hreply =>
    rw [mapOp_reply hreply]
    exact .lookup

/-- The same for any number of calls. -/
theorem Answers.run {xs : List ((Request υ × Bytes) × (Option Nat × Outcome υ))}
    (h : Run (Answers php) m xs m') :
    Run (fun m x m' => WriteOnce.Step m (mapOp x) m') m xs m' := by
  induction h with
  | nil => exact .nil
  | cons h1 _ ih => exact .cons h1.step ih

/-- A call that has inserted an entry is a store that has put a copy of its value there. -/
theorem Fits.insert (h : Fits php w es x) (hop : mapOp x = .insert k (some p) true) :
    ∃ r key val t, r.call = .store key val t ∧ x = ((r, k), (some p, .stored true)) ∧
      StandsFor r.sp (view r.sp w.shm es) (w.serializer.getD php) r.depth val
        (entryAt w.shm p).val := by
  cases h with
  | added hcall hp hval =>
    cases hop
    exact ⟨_, _, _, _, hcall, rfl, hval⟩
  | refused hcall => cases hop
  | replied hkey hreply hp =>
    rw [mapOp_reply hreply] at hop
    cases hop

/-- A lookup in the order of the calls has given the reply for its entry, which is in the table. -/
theorem Fits.lookup (h : Fits php w es ((r, k), (entry, o))) (hkey : r.lookupKey = some key) :
    r.reply php w entry = some o ∧ ∀ p, entry = some p → (p, k) ∈ es := by
  cases h with
  | added hcall _ _ | refused hcall =>
    rw [Request.lookupKey, hcall] at hkey
    cases hkey
  | replied _ hreply hp => exact ⟨hreply, hp⟩

end

namespace Processes

namespace Inv

variable {s : Processes ι υ} {seq : List (Taken υ)} {id id' key : Nat} {r' : Request υ}
  {e e' entry : Option Nat} {o : Outcome υ} (h : s.Inv recursive pool z php es live seq)

include h

/-- A key is bound to an entry with its bytes, which holds a copy of the value of a store that has
returned true or will. -/
theorem bound_entry (hk : bound es k = some p) : keyBytes s.world.shm p = k ∧
    ∃ id r key val t, (id, (r, k), (some p, .stored true)) ∈ seq ∧ r.call = .store key val t ∧
      StandsFor r.sp (r.sp.deref s.world.shm) (s.world.serializer.getD php) r.depth val
        (entryAt s.world.shm p).val := by
  have hmem := (bound_eq_some h.shaped.table.keys).1 hk
  obtain ⟨x, hx, hop⟩ := WriteOnce.run_bound (Answers.run h.linear.run) rfl hk
  obtain ⟨y, hy, rfl⟩ := List.mem_map.1 hx
  obtain ⟨r, key, val, t, hcall, hxe, hval⟩ := (h.fits y hy).2.insert hop
  refine ⟨(h.shaped.table.entry _ hmem).keyBytes, y.1, r, key, val, t, ?_, hcall, ?_⟩
  · rw [← hxe]
    exact hy
  · exact hval.mono (extends_view fun _ _ _ _ ho => ho)

/-- A lookup in the order of the calls would give its reply again, and its entry is bound to its
key. -/
theorem lookup (hx : (id, (r, k), (entry, o)) ∈ seq) (hkey : r.lookupKey = some key) :
    r.reply php s.world entry = some o ∧ ∀ p, entry = some p → bound es k = some p := by
  obtain ⟨hreply, hp⟩ := (h.fits _ hx).2.lookup hkey
  exact ⟨hreply, fun p he => (bound_eq_some h.shaped.table.keys).2 (hp p he)⟩

/-- A store that has returned true has inserted an entry. -/
theorem stored (hcall : .call id (r, k) ∈ s.history) (hret : .ret id (e, .stored true) ∈ s.history) :
    (id, (r, k), (e, .stored true)) ∈ seq ∧ ∃ p, e = some p := by
  have hx := h.linear.result hcall hret
  refine ⟨hx, ?_⟩
  cases (h.fits _ hx).2 with
  | added _ _ _ => exact ⟨_, rfl⟩
  | replied _ hreply _ => cases mapOp_reply hreply k

/-- Two stores of a key that have returned true are one. -/
theorem stored_unique (hcall : .call id (r, k) ∈ s.history) (hcall' : .call id' (r', k) ∈ s.history)
    (hret : .ret id (e, .stored true) ∈ s.history)
    (hret' : .ret id' (e', .stored true) ∈ s.history) : id = id' := by
  have hrun := Answers.run h.linear.run
  obtain ⟨hx, p, rfl⟩ := h.stored hcall hret
  obtain ⟨hy, p', rfl⟩ := h.stored hcall' hret'
  by_contra hne
  have hxy : ((id, (r, k), (some p, .stored true)) : Taken υ) ≠
      (id', (r', k), (some p', .stored true)) := by
    intro he
    cases he
    exact hne rfl
  rcases Precedes.total hx hy hxy with hlt | hlt
  · exact WriteOnce.run_inserted_ne hrun (hlt.map Prod.snd) rfl rfl
  · exact WriteOnce.run_inserted_ne hrun (hlt.map Prod.snd) rfl rfl

/-- A lookup that is called after a store of its key has returned true finds the entry of the
store. -/
theorem stored_found (hcall : .call id (r, k) ∈ s.history)
    (hprec : Precedes s.history (.ret id (e, .stored true)) (.call id' (r', k)))
    (hkey : r'.lookupKey = some key) (hret : .ret id' (entry, o) ∈ s.history) :
    entry = e ∧ e ≠ none := by
  obtain ⟨hx, p, rfl⟩ := h.stored hcall hprec.mem.1
  have hy := h.linear.result hprec.mem.2 hret
  have hlt := h.linear.order _ hx _ hy _ _ hprec
  have hreply := (h.lookup hy hkey).1
  exact ⟨WriteOnce.run_inserted_lookup (Answers.run h.linear.run) (hlt.map Prod.snd) rfl
    (mapOp_reply hreply k), by simp⟩

end Inv

variable [DecidableEq ι] {s : Processes ι υ} {is : List ι}

/-- Of every run from the creation of the cache the invariant is known. -/
theorem inv_of_run (hc : Created pool w₀)
    (h : Run (Step recursive pool z php) (start w₀ : Processes ι υ) is s) :
    ∃ es live seq, s.Inv recursive pool z php es live seq := by
  obtain ⟨-, hdr, sz, hinv⟩ := hc.inv z
  exact (Inv.start hinv.shaped).run h

/-- In any interleaving of stores and lookups, the calls can be put into one order that agrees with the
order in which they were made and have returned, and in which, made one after the other on a map from
keys to entries that binds each key once, they give the results that they have returned. In the end a
key is bound to an entry with its bytes, which holds a copy of the value of the store that has added
it, and a lookup that has found an entry has returned what it would return now. -/
theorem run_linearizable (hc : Created pool w₀)
    (h : Run (Step recursive pool z php) (start w₀ : Processes ι υ) is s) :
    ∃ seq m, Linearization (Answers php) s.history (fun _ => none) seq m ∧
      (∀ k p, m k = some p → keyBytes s.world.shm p = k ∧
        ∃ id r key val t, (id, (r, k), (some p, .stored true)) ∈ seq ∧ r.call = .store key val t ∧
          StandsFor r.sp (r.sp.deref s.world.shm) (s.world.serializer.getD php) r.depth val
            (entryAt s.world.shm p).val) ∧
      ∀ id r k entry o key, (id, (r, k), (entry, o)) ∈ seq → r.lookupKey = some key →
        r.reply php s.world entry = some o ∧ ∀ p, entry = some p → m k = some p := by
  obtain ⟨es, live, seq, hs⟩ := inv_of_run hc h
  exact ⟨seq, bound es, hs.linear, fun k p hk => hs.bound_entry hk,
    fun id r k entry o key hx hkey => hs.lookup hx hkey⟩

/-- A process asks for a key, and another one stores it in the meantime. -/
theorem run_linearizable_overlapping : ∃ is, ∃ s : Processes Bool Bytes, ∃ e e₁ e₂,
    Run (Step false Small.pool Small.zend Small.php) (start (Small.start (Small.env none))) is s ∧
    s.history = [.call 0 (Small.existA, [97]), .call 1 (Small.storeA, [97]),
      .ret 1 (e, .stored true), .call 3 (Small.existA, [97]), .ret 3 (e₁, .exist true),
      .ret 0 (e₂, .exist true)] ∧
    ∃ seq m, Linearization (Answers Small.php) s.history (fun _ => none) seq m ∧
      (∀ k p, m k = some p → keyBytes s.world.shm p = k ∧
        ∃ id r key val t, (id, (r, k), (some p, .stored true)) ∈ seq ∧ r.call = .store key val t ∧
          StandsFor r.sp (r.sp.deref s.world.shm) (s.world.serializer.getD Small.php) r.depth val
            (entryAt s.world.shm p).val) ∧
      ∀ id r k entry o key, (id, (r, k), (entry, o)) ∈ seq → r.lookupKey = some key →
        r.reply Small.php s.world entry = some o ∧ ∀ p, entry = some p → m k = some p := by
  obtain ⟨is, w, e, e₁, e₂, hrun⟩ := Small.overlapping false
  exact ⟨is, _, e, e₁, e₂, hrun, rfl, run_linearizable Small.created hrun⟩

/-- In any interleaving, at most one store of a key returns true, and a lookup that is called after it has
returned finds its entry. -/
theorem run_stored_once (hc : Created pool w₀)
    (h : Run (Step recursive pool z php) (start w₀ : Processes ι υ) is s) :
    (∀ id id' r r' k e e', .call id (r, k) ∈ s.history → .call id' (r', k) ∈ s.history →
      .ret id (e, .stored true) ∈ s.history → .ret id' (e', .stored true) ∈ s.history → id = id') ∧
    ∀ id id' r r' k e entry o key, .call id (r, k) ∈ s.history →
      Precedes s.history (.ret id (e, .stored true)) (.call id' (r', k)) →
      r'.lookupKey = some key → .ret id' (entry, o) ∈ s.history → entry = e ∧ e ≠ none := by
  obtain ⟨es, live, seq, hs⟩ := inv_of_run hc h
  exact ⟨fun id id' r r' k e e' hcall hcall' hret hret' => hs.stored_unique hcall hcall' hret hret',
    fun id id' r r' k e entry o key hcall hprec hkey hret => hs.stored_found hcall hprec hkey hret⟩

/-- What is asked for after the store has returned is what has been stored. -/
theorem run_stored_once_overlapping : ∃ is, ∃ s : Processes Bool Bytes, ∃ e e₁ e₂,
    Run (Step true Small.pool Small.zend Small.php) (start (Small.start (Small.env none))) is s ∧
    s.history = [.call 0 (Small.existA, [97]), .call 1 (Small.storeA, [97]),
      .ret 1 (e, .stored true), .call 3 (Small.existA, [97]), .ret 3 (e₁, .exist true),
      .ret 0 (e₂, .exist true)] ∧ e₁ = e ∧ e ≠ none := by
  obtain ⟨is, w, e, e₁, e₂, hrun⟩ := Small.overlapping true
  have hfound := (run_stored_once Small.created hrun).2 1 3 Small.storeA Small.existA [97] e e₁
    (.exist true) 104 (by simp)
    (List.Sublist.cons _ (.cons _ (.cons_cons _ (.cons_cons _ (List.nil_sublist _))))) rfl (by simp)
  exact ⟨is, _, e, e₁, e₂, hrun, rfl, hfound⟩

/-- The history of stores and lookups by any number of processes, in any interleaving, is that of a
write-once map: the calls that have returned can be put into one order that agrees with the history and
in which, made one after the other, they give the same results. At most one store of a key returns
true; a lookup that is called after it has returned finds its entry; and the entry that a lookup
returns has the bytes of its key, and holds a whole copy of the value of a store of this key. -/
theorem run_writeOnce (hc : Created pool w₀)
    (h : Run (Step recursive pool z php) (start w₀ : Processes ι υ) is s) :
    (∃ seq m, Linearization (Answers php) s.history (fun _ => none) seq m) ∧
    (∀ id id' r r' k e e', .call id (r, k) ∈ s.history → .call id' (r', k) ∈ s.history →
      .ret id (e, .stored true) ∈ s.history → .ret id' (e', .stored true) ∈ s.history → id = id') ∧
    (∀ id id' r r' k e entry o key, .call id (r, k) ∈ s.history →
      Precedes s.history (.ret id (e, .stored true)) (.call id' (r', k)) →
      r'.lookupKey = some key → .ret id' (entry, o) ∈ s.history → entry = e ∧ e ≠ none) ∧
    ∀ id r k key p o, .call id (r, k) ∈ s.history → r.lookupKey = some key →
      .ret id (some p, o) ∈ s.history → r.reply php s.world (some p) = some o ∧
        keyBytes s.world.shm p = k ∧
        ∃ id' r' key' val t, .call id' (r', k) ∈ s.history ∧ r'.call = .store key' val t ∧
          StandsFor r'.sp (r'.sp.deref s.world.shm) (s.world.serializer.getD php) r'.depth val
            (entryAt s.world.shm p).val := by
  obtain ⟨es, live, seq, hs⟩ := inv_of_run hc h
  refine ⟨⟨seq, bound es, hs.linear⟩, fun id id' r r' k e e' => hs.stored_unique,
    fun id id' r r' k e entry o key => hs.stored_found, ?_⟩
  intro id r k key p o hcall hkey hret
  obtain ⟨hreply, hbound⟩ := hs.lookup (hs.linear.result hcall hret) hkey
  obtain ⟨hbytes, id', r', key', val, t, hmem, hstore, hval⟩ := hs.bound_entry (hbound p rfl)
  exact ⟨hreply, hbytes, id', r', key', val, t, hs.linear.called _ hmem, hstore, hval⟩

/-- A lookup is called before a store and returns after it, and another one is called then: the latter
returns the entry of the store, and the entries of both have the bytes of the key. -/
theorem run_writeOnce_overlapping : ∃ is, ∃ s : Processes Bool Bytes, ∃ p q,
    Run (Step false Small.pool Small.zend Small.php) (start (Small.start (Small.env none))) is s ∧
    s.history = [.call 0 (Small.existA, [97]), .call 1 (Small.storeA, [97]),
      .ret 1 (some p, .stored true), .call 3 (Small.existA, [97]), .ret 3 (some p, .exist true),
      .ret 0 (some q, .exist true)] ∧
    keyBytes s.world.shm p = [97] ∧ keyBytes s.world.shm q = [97] := by
  obtain ⟨is, w, e, e₁, e₂, hrun⟩ := Small.overlapping false
  obtain ⟨-, -, hfound, hreturned⟩ := run_writeOnce Small.created hrun
  obtain ⟨rfl, hne⟩ := hfound 1 3 Small.storeA Small.existA [97] e e₁ (.exist true) 104 (by simp)
    (List.Sublist.cons _ (.cons _ (.cons_cons _ (.cons_cons _ (List.nil_sublist _))))) rfl (by simp)
  obtain ⟨p, rfl⟩ := Option.ne_none_iff_exists'.1 hne
  -- only an entry makes the first lookup return true
  obtain ⟨es, live, seq, hs⟩ := inv_of_run Small.created hrun
  have hfirst : (0, (Small.existA, [97]), (e₂, .exist true)) ∈ seq :=
    hs.linear.result (by simp) (by simp)
  have hkey : Small.existA.lookupKey = some 104 := rfl
  have hreply := (hs.lookup hfirst hkey).1
  cases e₂ with
  | none => cases hreply
  | some q =>
    exact ⟨is, _, p, q, hrun, rfl,
      (hreturned 3 Small.existA [97] 104 p (.exist true) (by simp) hkey (by simp)).2.1,
      (hreturned 0 Small.existA [97] 104 q (.exist true) (by simp) hkey (by simp)).2.1⟩

end Processes

end ImmutableCache
