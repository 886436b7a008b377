import ImmutableCache.Cache.Linearizable

/-!
# What is allocated, and what the header counts

Two accounts that are right at every point of an interleaving. Every payload of the allocator is the
block of the header, that of an entry of the table, one that belongs to a process in the middle of a
call, or one left behind by a call that has bailed out (`Processes.Accounts`). And when no process
holds the global lock, `nentries`, `ninserts` and `mem_size` are what the chains hold; while one does,
they are behind by what it has linked and not counted yet (`Processes.Tallied`).
-/

namespace ImmutableCache

open Procs Linear

variable {ι υ : Type} {z : Zend} {pool : Pool} {php : Serializer υ} {es es' : List (Nat × Bytes)}
  {w w' w₀ : World υ} {live live' : Nat → Option Nat} {recursive : Bool} {p : Nat} {r : Request υ}
  {pc pc' : Pc υ}

/-! ## The entries in the chains -/

/-- The entry at `p` can be reached from a slot. -/
def World.Linked (w : World υ) (p : Nat) : Prop :=
  ∃ s < w.slots.length, ∃ fuel, p ∈ walk w.shm fuel (w.slots.getD s none)

/-- The entries that can be reached are those of the table. -/
theorem World.Shaped.linked (h : w.Shaped pool z es live) : w.Linked p ↔ p ∈ es.map Prod.fst := by
  constructor
  · rintro ⟨s, hs, fuel, hp⟩
    have hmem := walk_subset fuel (h.table.chain s hs) hp
    obtain ⟨k, hk, -⟩ := Table.mem_chainOf.1 hmem
    exact List.mem_map.2 ⟨_, hk, rfl⟩
  · intro hp
    obtain ⟨x, hx, rfl⟩ := List.mem_map.1 hp
    have hs : z.hash x.2 % w.slots.length < w.slots.length := Nat.mod_lt _ h.table.nslots
    refine ⟨_, hs, es.length, ?_⟩
    rw [walk_eq (h.table.chain _ hs) (Table.length_chainOf_le _ _ _ _)]
    exact Table.mem_chainOf.2 ⟨x.2, hx, rfl⟩

/-! ## Payloads -/

namespace Processes

/-- The call has been made, has not returned and is not executed any more: it has bailed out. -/
def Abandoned (s : Processes ι υ) (id : Nat) : Prop :=
  (∃ a, .call id a ∈ s.history) ∧ (∀ r, .ret id r ∉ s.history) ∧
    ∀ i p, s.running i = some p → p.id ≠ id

/-- Every payload is the header's at `hdr`, that of an entry, that of a process, or the one that an
abandoned call has lost. -/
structure Accounts (s : Processes ι υ) (es : List (Nat × Bytes)) (live : Nat → Option Nat) (hdr : Nat)
    (lost : Nat → Nat) : Prop where
  returned : ∀ i p, s.running i = some p → ∀ r, .ret p.id r ∉ s.history
  header : live hdr ≠ none ∧ hdr ∉ es.map Prod.fst ∧
    ∀ i p, s.running i = some p → p.pc.owns ≠ some hdr
  payload : ∀ a, live a ≠ none → a = hdr ∨ a ∈ es.map Prod.fst ∨
    (∃ i p, s.running i = some p ∧ p.pc.owns = some a) ∨ ∃ id, s.Abandoned id ∧ lost id = a

section

variable {s s' : Processes ι υ} {seq : List (Taken υ)} {i : ι} {hdr id : Nat} {lost : Nat → Nat}

/-- A call that has bailed out does not come back. -/
theorem Abandoned.mono (h : s.Abandoned id)
    (hcall : ∀ a, .call id a ∈ s.history → .call id a ∈ s'.history)
    (hret : ∀ r, .ret id r ∈ s'.history → .ret id r ∈ s.history)
    (hrun : ∀ i p, s'.running i = some p → p.id = id → ∃ j q, s.running j = some q ∧ q.id = id) :
    s'.Abandoned id := by
  obtain ⟨⟨a, ha⟩, hno, hrunning⟩ := h
  refine ⟨⟨a, hcall a ha⟩, fun r hr => hno r (hret r hr), fun i p hp hid => ?_⟩
  obtain ⟨j, q, hq, hqid⟩ := hrun i p hp hid
  exact hrunning j q hq hqid

variable [DecidableEq ι] {p : Process υ}

/-- A process makes a call. -/
theorem Accounts.call {k : Bytes} (ha : s.Accounts es live hdr lost)
    (h : s.Inv recursive pool z php es live seq) (hrun : s.running i = none)
    (howns : pc.owns = none) :
    Accounts
      { s with
        running := Function.update s.running i (some ⟨s.history.length, r, k, pc⟩)
        history := s.history ++ [.call s.history.length (r, k)] } es live hdr lost where
  returned := by
    refine forall_update (fun j q _ hq r hr => ?_) fun p hp r hr => ?_
    · exact ha.returned j q hq r (by simpa using hr)
    · cases hp
      -- the number of the call is new
      obtain ⟨a, hx⟩ := h.linear.completed _ r (by simpa using hr)
      exact Nat.lt_irrefl _ (h.numbered _ _ (h.linear.called _ hx))
  header := by
    refine ⟨ha.header.1, ha.header.2.1, forall_update (fun j q _ => ha.header.2.2 j q) fun p hp => ?_⟩
    cases hp
    rw [howns]
    simp
  payload a hlive := by
    obtain rfl | hes | ⟨j, q, hq, hown⟩ | ⟨id, hid, hlost⟩ := ha.payload a hlive
    · exact .inl rfl
    · exact .inr (.inl hes)
    · refine .inr (.inr (.inl ⟨j, q, ?_, hown⟩))
      refine (Function.update_of_ne ?_ _ _).trans hq
      rintro rfl
      rw [hrun] at hq
      cases hq
    · refine .inr (.inr (.inr ⟨id, ?_, hlost⟩))
      obtain ⟨a, ha⟩ := hid.1
      have hlt := h.numbered id a ha
      refine hid.mono (fun a => List.mem_append_left _) (fun r hr => by simpa using hr) ?_
      refine forall_update (fun j q _ hq hqid => ⟨j, q, hq, hqid⟩) fun p hp hpid => ?_
      cases hp
      exact absurd hpid (Nat.ne_of_gt hlt)

/-- A process goes on with its call. -/
theorem Accounts.move {new : List (Taken υ)} (ha : s.Accounts es live hdr lost)
    (hrun : s.running i = some p)
    (hp : p.Progress pool z php seq s.world es live p.pc w es' live' new pc') :
    Accounts
      { s with world := w, running := Function.update s.running i (some { p with pc := pc' }) }
      es' live' hdr lost where
  returned := by
    refine forall_update (fun j q _ hq => ha.returned j q hq) fun q hq => ?_
    cases hq
    exact ha.returned i p hrun
  header := by
    obtain ⟨hlive, hes, howns⟩ := ha.header
    obtain ⟨sz, hsz⟩ := Option.ne_none_iff_exists'.1 hlive
    obtain ⟨hsz', hes', -⟩ := hp.others.block hdr sz (howns i p hrun) hsz hes
    refine ⟨by simp [hsz'], hes', forall_update (fun j q _ => howns j q) fun q hq hown => ?_⟩
    cases hq
    rcases hp.payloads.new hdr hown with hown | hnone
    · exact howns i p hrun hown
    · exact hlive hnone
  payload a hlive := by
    obtain hown | hes | ⟨hlive, hne⟩ := hp.payloads.old a hlive
    · exact .inr (.inr (.inl ⟨i, _, Function.update_self _ _ _, hown⟩))
    · exact .inr (.inl hes)
    obtain rfl | hes | ⟨j, q, hq, hown⟩ | ⟨id, hid, hlost⟩ := ha.payload a hlive
    · exact .inl rfl
    · exact .inr (.inl ((hp.others.entries.map Prod.fst).subset hes))
    · refine .inr (.inr (.inl ⟨j, q, ?_, hown⟩))
      refine (Function.update_of_ne ?_ _ _).trans hq
      rintro rfl
      obtain rfl : p = q := Option.some.inj (hrun.symm.trans hq)
      exact hne hown
    · refine .inr (.inr (.inr ⟨id, ?_, hlost⟩))
      refine hid.mono (fun a h => h) (fun r h => h) ?_
      refine forall_update (fun j q _ hq hqid => ⟨j, q, hq, hqid⟩) fun q hq hqid => ?_
      cases hq
      exact ⟨i, p, hrun, hqid⟩

/-- A process stops; what it still owns is lost. -/
theorem Accounts.leave {new : List (Action (Request υ × Bytes) (Option Nat × Outcome υ))}
    (ha : s.Accounts es live hdr lost) (h : s.Inv recursive pool z php es live seq)
    (hrun : s.running i = some p)
    (hnew : ∀ id r, .ret id r ∈ new → id = p.id ∧ p.pc.owns = none) :
    Accounts { s with running := Function.update s.running i none, history := s.history ++ new }
      es live hdr (Function.update lost p.id (p.pc.owns.getD 0)) := by
  have hret {id : Nat} {r : Option Nat × Outcome υ} (hr : .ret id r ∈ s.history ++ new)
      (hid : id ≠ p.id) : .ret id r ∈ s.history :=
    (List.mem_append.1 hr).resolve_right fun hr => hid (hnew id r hr).1
  have hmono {id : Nat} (hid : s.Abandoned id) : Abandoned
      { s with running := Function.update s.running i none, history := s.history ++ new } id := by
    have hne : id ≠ p.id := (hid.2.2 i p hrun).symm
    refine hid.mono (fun a => List.mem_append_left _) (fun r hr => hret hr hne) ?_
    refine forall_update (fun j q _ hq hqid => ⟨j, q, hq, hqid⟩) fun q hq => ?_
    cases hq
  have hleft (j : ι) (q : Process υ) (hj : j ≠ i) (hq : s.running j = some q) : q.id ≠ p.id :=
    (h.apart j i q p hj hq hrun).id
  refine
    { returned := forall_update (fun j q hj hq r hr => ?_) fun q hq => by cases hq
      header := ⟨ha.header.1, ha.header.2.1,
        forall_update (fun j q _ => ha.header.2.2 j q) fun q hq => by cases hq⟩
      payload := fun a hlive => ?_ }
  · exact ha.returned j q hq r (hret hr (hleft j q hj hq))
  obtain rfl | hes | ⟨j, q, hq, hown⟩ | ⟨id, hid, hlost⟩ := ha.payload a hlive
  · exact .inl rfl
  · exact .inr (.inl hes)
  · by_cases hj : j = i
    · -- the block of the process that stops
      subst hj
      obtain rfl : p = q := Option.some.inj (hrun.symm.trans hq)
      refine .inr (.inr (.inr ⟨p.id, ⟨⟨_, List.mem_append_left _ (h.sound j p hq).2⟩, fun r hr => ?_,
        forall_update (fun l q' hl hq' => hleft l q' hl hq') fun q' hq' => by cases hq'⟩, ?_⟩))
      · rcases List.mem_append.1 hr with hr | hr
        · exact ha.returned j p hq r hr
        · have := (hnew _ r hr).2
          rw [hown] at this
          cases this
      · rw [Function.update_self, hown]
        rfl
    · exact .inr (.inr (.inl ⟨j, q, (Function.update_of_ne hj _ _).trans hq, hown⟩))
  · refine .inr (.inr (.inr ⟨id, hmono hid, ?_⟩))
    rw [Function.update_of_ne (hid.2.2 i p hrun).symm, hlost]

end

end Processes

/-! ## Tallies -/

/-- What a process has linked and not counted yet, for `mem_size`, `nentries` and `ninserts`. -/
def Pc.uncounted (shm : Mem) : Pc υ → Nat × Nat × Nat
  | .insertMemSize p _ => ((entryAt shm p).memSize, 1, 1)
  | .insertNentries _ _ => (0, 1, 1)
  | .insertNinserts _ _ => (0, 0, 1)
  | _ => (0, 0, 0)

/-- What the header counts. -/
def World.counts (w : World υ) : Nat × Nat × Nat :=
  (w.header.memSize, w.header.nentries, w.header.ninserts)

/-- What it is to count for the entries `es`. -/
def totals (shm : Mem) (es : List (Nat × Bytes)) : Nat × Nat × Nat :=
  ((es.map fun x => (entryAt shm x.1).memSize).sum, es.length, es.length)

/-- The totals of a table are the sum of those of its parts. -/
theorem totals_append (shm : Mem) (es es' : List (Nat × Bytes)) :
    totals shm (es ++ es') = totals shm es + totals shm es' := by
  simp [totals]

/-- A change of the statistics of the entries does not change the totals. -/
theorem Evolves.totals {shm shm' : Mem} {P : Nat → Prop} (h : Evolves P shm shm')
    (hes : ∀ x ∈ es, P x.1) : totals shm' es = totals shm es := by
  have hsize : ∀ x ∈ es,
      (ImmutableCache.entryAt shm' x.1).memSize = (ImmutableCache.entryAt shm x.1).memSize :=
    fun x hx => by rw [(h.entryAt (hes x hx)).eq]
  rw [ImmutableCache.totals, ImmutableCache.totals, List.map_congr_left hsize]

/-- Counting a hit or a miss does not change what the header counts. -/
theorem Tick.apply_counts (a : Tick) (loaded : Unit → Option (Counter × Nat)) :
    (a.apply () ⟨w, loaded, []⟩).world.counts = w.counts := by
  cases a with
  | inc counter | store counter => cases counter <;> rfl
  | load _ | returned _ | touch _ _ => rfl

/-- A step counts what has not been counted, or adds an entry that has not; without the global lock it
does neither. -/
theorem Request.Moves.counts (h : r.Moves recursive pool php w pc w' pc') (k : Bytes) :
    w'.counts + pc'.uncounted w'.shm = w.counts + pc.uncounted w.shm + totals w'.shm (pc.added k) ∧
      (pc.Locks ∨ w'.counts = w.counts) := by
  cases h with
  | insertLink =>
    refine ⟨?_, .inr rfl⟩
    simp [World.counts, Pc.uncounted, Pc.added, totals]
  | insertMemSize | insertNentries | insertNinserts =>
    exact ⟨rfl, .inl (by simp [Pc.Locks, Pc.holds])⟩
  | tick hs =>
    subst hs
    rename_i loaded a ticks
    have hcounts := a.apply_counts (w := w) fun _ => loaded
    exact ⟨congrArg (· + 0) hcounts, .inr hcounts⟩
  | allocated =>
    refine ⟨?_, .inr rfl⟩
    split <;> rfl
  | sized _ _ | notSized _ _ | smaMalloc | smaLock | notAllocated _ | smaLast | smaNext | smaNone
  | smaUnlock _ | write _ _ | filled _ | wlock _ | wlockFine | insertEntry _ | insertEnd _
  | insertFound _ | insertSkip _ | insertNext | wunlockFine | stored | notStored | freeLock
  | freeDeallocate _ | freeUnlock | rlock _ | findSlot | found _ _ | skip _ _ | findNext | missed
  | counted | runlock | answer _ => exact ⟨rfl, .inr rfl⟩

/-- A process that may bail out holds no lock. -/
theorem Pc.not_locks_of_mayBail (h : pc.mayBail = true) : ¬ pc.Locks := by
  cases pc with
  | persistSize | persistFill _ _ _ | answer _ => simp [Pc.Locks, Pc.holds]
  | _ => cases h

/-- A process that does not hold the global lock has counted what it has linked. -/
theorem Pc.uncounted_eq (h : ¬ pc.Locks) (shm : Mem) : pc.uncounted shm = 0 := by
  cases pc with
  | insertMemSize _ _ | insertNentries _ _ | insertNinserts _ _ =>
    exact absurd (by simp [Pc.Locks, Pc.holds]) h
  | _ => rfl

namespace Processes

/-- The header counts the entries in the chains but for those that the process with the global lock has
not counted yet. -/
structure Tallied (s : Processes ι υ) (es : List (Nat × Bytes)) : Prop where
  busy : ∀ i p, s.running i = some p → p.pc.Locks →
    s.world.counts + p.pc.uncounted s.world.shm = totals s.world.shm es
  idle : (∀ i p, s.running i = some p → ¬ p.pc.Locks) → s.world.counts = totals s.world.shm es

section

variable {s s' : Processes ι υ} {seq : List (Taken υ)} {i : ι} {hdr id : Nat} {lost : Nat → Nat}
  {p : Process υ}

/-- The entry that a process has not counted is in the table. -/
theorem Inv.uncounted (h : s.Inv recursive pool z php es live seq) (hrun : s.running i = some p)
    {shm : Mem} (hev : Evolves (Pub s.world.shm es) s.world.shm shm) :
    p.pc.uncounted shm = p.pc.uncounted s.world.shm := by
  have hat := (h.sound i p hrun).1.at_pc
  generalize p.pc = pc at hat
  cases pc with
  | insertMemSize a _ =>
    have hmem : (a, p.key) ∈ es := by
      cases (h.fits _ hat).2 with
      | added _ hmem _ => exact hmem
      | replied _ hreply _ => cases mapOp_reply hreply p.key
    have hsize : (entryAt shm a).memSize = (entryAt s.world.shm a).memSize := by
      rw [(hev.entryAt (h.shaped.pub_entry hmem)).eq]
    simp only [Pc.uncounted, hsize]
  | _ => rfl

variable [DecidableEq ι]

/-- A process goes on with its call. -/
theorem Tallied.move {new : List (Taken υ)} (ht : s.Tallied es)
    (h : s.Inv recursive pool z php es live seq) (hrun : s.running i = some p)
    (hmove : p.req.Moves recursive pool php s.world p.pc w pc') (hfree : s.Free recursive i pc')
    (hp : p.Progress pool z php seq s.world es live p.pc w es' live' new pc') :
    Tallied
      { s with world := w, running := Function.update s.running i (some { p with pc := pc' }) }
      es' := by
  obtain ⟨hcounts, hsame⟩ := hmove.counts p.key
  have htotals : totals w.shm es = totals s.world.shm es :=
    hp.others.evolves.totals fun x hx => h.shaped.pub_entry hx
  -- what the process has linked before and in this step is counted, or known not to be
  have hown (hbefore : p.pc.Locks ∨ ∀ j q, j ≠ i → s.running j = some q → ¬ q.pc.Locks) :
      w.counts + pc'.uncounted w.shm = totals w.shm es' := by
    rw [hcounts, hp.entries, totals_append, htotals]
    congr 1
    by_cases hl : p.pc.Locks
    · exact ht.busy i p hrun hl
    · rw [Pc.uncounted_eq hl, add_zero]
      refine ht.idle fun j q hq => ?_
      by_cases hj : j = i
      · subst hj
        obtain rfl : p = q := Option.some.inj (hrun.symm.trans hq)
        exact hl
      · exact hbefore.resolve_left hl j q hj hq
  constructor
  · refine forall_update (fun j q hj hq hql => ?_) fun q hq hql => ?_
    · -- another process has the lock
      have hl : ¬ p.pc.Locks := by
        intro hl
        have := (h.apart i j p q hj.symm hrun hq).lock .global .exclusive .exclusive
          (Pc.locks_iff.2 ⟨rfl, hl⟩) (Pc.locks_iff.2 ⟨rfl, hql⟩)
        cases this.1
      rw [(hp.others.still hl).1, htotals, hsame.resolve_left hl,
        h.uncounted hq hp.others.evolves]
      exact ht.busy j q hq hql
    · cases hq
      refine hown (.inr fun j q hj hq hl => ?_)
      have := hfree .global .exclusive (Pc.locks_iff.2 ⟨rfl, hql⟩) j hj q hq .exclusive
        (Pc.locks_iff.2 ⟨rfl, hl⟩)
      cases this.1
  · intro hidle
    have hpc' : ¬ pc'.Locks := hidle i _ (Function.update_self _ _ _)
    have hdone := hown (.inr fun j q hj hq => hidle j q ((Function.update_of_ne hj _ _).trans hq))
    rwa [Pc.uncounted_eq hpc', add_zero] at hdone

/-- A process without the global lock starts or stops. -/
theorem Tallied.update {x : Option (Process υ)}
    {history : List (Action (Request υ × Bytes) (Option Nat × Outcome υ))} (ht : s.Tallied es)
    (hbefore : ∀ q, s.running i = some q → ¬ q.pc.Locks) (hafter : ∀ q, x = some q → ¬ q.pc.Locks) :
    Tallied { s with running := Function.update s.running i x, history := history } es where
  busy := forall_update (fun j q _ hq hl => ht.busy j q hq hl) fun q hq hl => absurd hl (hafter q hq)
  idle hidle := by
    refine ht.idle fun j q hq => ?_
    by_cases hj : j = i
    · subst hj
      exact hbefore q hq
    · exact hidle j q ((Function.update_of_ne hj _ _).trans hq)

/-- The accounts are kept. -/
theorem Accounts.step (ha : s.Accounts es live hdr lost) (ht : s.Tallied es)
    (h : s.Inv recursive pool z php es live seq) (hstep : Step recursive pool z php s i s') :
    ∃ es' live' seq' lost', s'.Inv recursive pool z php es' live' seq' ∧
      s'.Accounts es' live' hdr lost' ∧ s'.Tallied es' := by
  cases hstep with
  | call hrun hstart hlegal hk =>
    refine ⟨es, live, seq, lost, h.call hstart hlegal hk, ha.call h hrun ?_,
      ht.update (fun q hq => ?_) fun q hq => ?_⟩
    · rcases Request.start_pc hstart with rfl | rfl <;> rfl
    · rw [hrun] at hq
      cases hq
    · cases hq
      rcases Request.start_pc hstart with rfl | rfl <;> simp [Pc.Locks, Pc.holds]
  | move hrun hmove hfree =>
    obtain ⟨es', live', new, hp, h'⟩ := h.move hrun hmove hfree
    exact ⟨es', live', _, lost, h', ha.move hrun hp, ht.move h hrun hmove hfree hp⟩
  | ret hrun hpc =>
    have hat := (h.sound _ _ hrun).1.at_pc
    rw [hpc] at hat
    refine ⟨es, live, seq, _, (h.ret hat).leave, ha.leave h hrun fun id r hr => ?_,
      ht.update (fun q hq => ?_) fun q hq => by cases hq⟩
    · cases List.mem_singleton.1 hr
      exact ⟨rfl, by rw [hpc]; rfl⟩
    · obtain rfl := Option.some.inj (hrun.symm.trans hq)
      rw [hpc]
      simp [Pc.Locks, Pc.holds]
  | bail hrun hbail =>
    have h' := ha.leave h hrun fun id r (hr : Action.ret id r ∈ []) => by cases hr
    rw [List.append_nil] at h'
    refine ⟨es, live, seq, _, h.leave, h', ht.update (fun q hq => ?_) fun q hq => by cases hq⟩
    obtain rfl := Option.some.inj (hrun.symm.trans hq)
    exact Pc.not_locks_of_mayBail hbail

omit [DecidableEq ι] in
/-- In the beginning the header has the only block. -/
theorem Accounts.start {sz : Nat} : (Processes.start w : Processes ι υ).Accounts []
    (Function.update (fun _ => none) hdr (some sz)) hdr fun _ => 0 where
  returned i p hp := by cases hp
  header := ⟨by simp, by simp, fun i p hp => by cases hp⟩
  payload a hlive := by
    by_cases ha : a = hdr
    · exact .inl ha
    · exact absurd (Function.update_of_ne ha _ _) hlive

omit [DecidableEq ι] in
/-- The header of an empty cache counts nothing. -/
theorem Tallied.start (h : w.Inv pool z [] live) : (Processes.start w : Processes ι υ).Tallied [] where
  busy i p hp := by cases hp
  idle _ := by simp [World.counts, totals, Processes.start, h.memSize, h.nentries, h.ninserts]

/-- The accounts hold at every point of an interleaving. -/
theorem Accounts.run {is : List ι} (ha : s.Accounts es live hdr lost) (ht : s.Tallied es)
    (h : s.Inv recursive pool z php es live seq)
    (hrun : Run (Step recursive pool z php) s is s') :
    ∃ es' live' seq' lost', s'.Inv recursive pool z php es' live' seq' ∧
      s'.Accounts es' live' hdr lost' ∧ s'.Tallied es' := by
  induction hrun generalizing es live seq lost with
  | nil => exact ⟨es, live, seq, lost, h, ha, ht⟩
  | cons h1 _ ih =>
    obtain ⟨es₁, live₁, seq₁, lost₁, h₁, ha₁, ht₁⟩ := ha.step ht h h1
    exact ih ha₁ ht₁ h₁

end

variable [DecidableEq ι] {s : Processes ι υ} {is : List ι}

/-- At every point of an interleaving of stores and lookups, every allocated payload is that of the
header, the block of an entry in the chains, a block of a process in the middle of a call, or the one
block that a call which has bailed out has lost; and all of these but the lost ones are allocated, the
blocks of processes are not in the chains, and no two processes have one block. -/
theorem run_accounts (hc : Created pool w₀)
    (h : Run (Step recursive pool z php) (start w₀ : Processes ι υ) is s) :
    ∃ live hdr, ∃ lost : Nat → Nat, pool.Ok s.world.sma live ∧
      (∀ a, live a ≠ none → a = hdr ∨ s.world.Linked a ∨
        (∃ i p, s.running i = some p ∧ p.pc.owns = some a) ∨ ∃ id, s.Abandoned id ∧ lost id = a) ∧
      (live hdr ≠ none ∧ ¬ s.world.Linked hdr ∧ ∀ a, s.world.Linked a → live a ≠ none) ∧
      ∀ i p a, s.running i = some p → p.pc.owns = some a → live a ≠ none ∧ a ≠ hdr ∧
        ¬ s.world.Linked a ∧ ∀ j q, j ≠ i → s.running j = some q → q.pc.owns ≠ some a := by
  obtain ⟨-, hdr, sz, hinv⟩ := hc.inv z
  obtain ⟨es, live, seq, lost, hs, ha, -⟩ := Accounts.start.run (.start hinv)
    (Inv.start hinv.shaped) h
  have hlinked {a : Nat} : s.world.Linked a ↔ a ∈ es.map Prod.fst := hs.shaped.linked
  refine ⟨live, hdr, lost, hs.shaped.sma, fun a hlive => ?_, ⟨ha.header.1, ?_, fun a hl => ?_⟩,
    fun i p a hp hown => ?_⟩
  · rw [hlinked]
    exact ha.payload a hlive
  · rw [hlinked]
    exact ha.header.2.1
  · obtain ⟨x, hx, rfl⟩ := List.mem_map.1 (hlinked.1 hl)
    obtain ⟨sz, hsz, -⟩ := hs.shaped.block x hx
    simp [hsz]
  · obtain ⟨sz, hsz, -, hfresh⟩ := (hs.sound i p hp).1.at_pc.owned hown
    refine ⟨by simp [hsz], ?_, fun hl => hfresh (hlinked.1 hl), fun j q hj hq =>
      (hs.apart i j p q hj.symm hp hq).block a hown⟩
    rintro rfl
    exact ha.header.2.2 i p hp hown

/-- The accounts after a store, while another process asks. -/
theorem run_accounts_overlapping : ∃ is, ∃ s : Processes Bool Bytes,
    Run (Step false Small.pool Small.zend Small.php) (start (Small.start (Small.env none))) is s ∧
    (∃ e, .ret 1 (e, .stored true) ∈ s.history) ∧
    ∃ live hdr, ∃ lost : Nat → Nat, Small.pool.Ok s.world.sma live ∧
      (∀ a, live a ≠ none → a = hdr ∨ s.world.Linked a ∨
        (∃ i p, s.running i = some p ∧ p.pc.owns = some a) ∨ ∃ id, s.Abandoned id ∧ lost id = a) ∧
      (live hdr ≠ none ∧ ¬ s.world.Linked hdr ∧ ∀ a, s.world.Linked a → live a ≠ none) ∧
      ∀ i p a, s.running i = some p → p.pc.owns = some a → live a ≠ none ∧ a ≠ hdr ∧
        ¬ s.world.Linked a ∧ ∀ j q, j ≠ i → s.running j = some q → q.pc.owns ≠ some a := by
  obtain ⟨is, w, e, e₁, e₂, hrun⟩ := Small.overlapping false
  exact ⟨is, _, hrun, ⟨e, by simp⟩, run_accounts Small.created hrun⟩

/-- At every point of an interleaving at which no process holds the global lock, the header counts the
entries in the chains, each of which is there once: `nentries` and `ninserts` are their number and
`mem_size` is the sum of their sizes. -/
theorem run_tallied (hc : Created pool w₀)
    (h : Run (Step recursive pool z php) (start w₀ : Processes ι υ) is s)
    (hfree : ∀ i p, s.running i = some p → ¬ p.pc.Locks) :
    ∃ ps : List Nat, ps.Nodup ∧ (∀ a, a ∈ ps ↔ s.world.Linked a) ∧
      s.world.header.nentries = ps.length ∧ s.world.header.ninserts = ps.length ∧
      s.world.header.memSize = (ps.map fun p => (entryAt s.world.shm p).memSize).sum := by
  obtain ⟨-, hdr, sz, hinv⟩ := hc.inv z
  obtain ⟨es, live, seq, lost, hs, -, ht⟩ := Accounts.start.run (.start hinv)
    (Inv.start hinv.shaped) h
  have hcounts := ht.idle hfree
  simp only [World.counts, totals, Prod.mk.injEq] at hcounts
  obtain ⟨hmem, hn, hi⟩ := hcounts
  refine ⟨es.map Prod.fst, hs.shaped.table.nodup, fun a => hs.shaped.linked.symm, ?_, ?_, ?_⟩
  · rw [List.length_map, hn]
  · rw [List.length_map, hi]
  · rw [List.map_map, hmem]
    rfl

/-- What the header counts after a store, while another process asks. -/
theorem run_tallied_overlapping : ∃ is, ∃ s : Processes Bool Bytes,
    Run (Step true Small.pool Small.zend Small.php) (start (Small.start (Small.env none))) is s ∧
    (∃ e, .ret 1 (e, .stored true) ∈ s.history) ∧
    ∃ ps : List Nat, ps.Nodup ∧ (∀ a, a ∈ ps ↔ s.world.Linked a) ∧
      s.world.header.nentries = ps.length ∧ s.world.header.ninserts = ps.length ∧
      s.world.header.memSize = (ps.map fun p => (entryAt s.world.shm p).memSize).sum := by
  obtain ⟨is, w, e, e₁, e₂, hrun⟩ := Small.overlapping true
  refine ⟨is, _, hrun, ⟨e, by simp⟩, run_tallied Small.created hrun ?_⟩
  intro i p hp
  cases hp

end Processes

end ImmutableCache
