import ImmutableCache.Cache.Accounts
import ImmutableCache.Cache.Statistics

/-!
# Reading under the global lock, step by step

`immutable_cache_cache_info` and the two loops of the iterator walk over the slots and along the
chains while they hold the global lock for reading. Other processes go on in the meantime: lookups
count their hits, and stores fill their blocks, but none can get at the lock to add an entry. A
process that reads one pointer after the other gets what it would get if it read the table at once
at the moment that it got the lock, but for hit counters and access times, and it does so in a
number of steps that the others have no influence on (`Reading.run_read`).
-/

namespace ImmutableCache

open Bail Procs

variable {ι υ β : Type} {z : Zend} {pool : Pool} {php : Serializer υ} {es : List (Nat × Bytes)}
  {w w' w₀ : World υ} {live live' : Nat → Option Nat} {recursive : Bool}

/-! ## Loops over the table -/

/-- A loop over the slots from `first` on, with a loop over the chain of each: what it starts with,
what it makes of an entry and of the end of a chain, and whether it goes on with the next slot. -/
structure Scan (υ β : Type) where
  first : Nat
  init : World υ → β
  visit : World υ → Nat → β → β
  close : Nat → β → β
  more : β → Bool

/-- How far such a loop has come: it is about to begin, to look at the slot `s`, at the entry that
it has loaded, or to load the next one. -/
inductive Reader (β : Type) where
  | start
  | slot (s : Nat) (b : β)
  | entry (s : Nat) (p : Option Nat) (b : β)
  | next (s p : Nat) (b : β)
  | done (s : Nat) (b : β)

namespace Scan

/-- One step of the loop, unless it is done. -/
def move (sc : Scan υ β) (w : World υ) : Reader β → Option (Reader β)
  | .start => some (.slot sc.first (sc.init w))
  | .slot s b =>
    if sc.more b = true ∧ s < w.slots.length then some (.entry s (w.slots.getD s none) b)
    else some (.done s b)
  | .entry s (some p) b => some (.next s p (sc.visit w p b))
  | .entry s none b => some (.slot (s + 1) (sc.close s b))
  | .next s p b => some (.entry s (nextAt w.shm p) b)
  | .done _ _ => none

/-- The entries `ps` of a chain, looked at in one state. -/
def chain (sc : Scan υ β) (w : World υ) (ps : List Nat) (b : β) : β :=
  ps.foldl (fun b p => sc.visit w p b) b

/-- The slots from `s` on, looked at in one state. -/
def slots (sc : Scan υ β) (w : World υ) : Nat → Nat → β → β × Nat
  | 0, s, b => (b, s)
  | fuel + 1, s, b =>
    if sc.more b = true ∧ s < w.slots.length then
      sc.slots w fuel (s + 1) (sc.close s (sc.chain w (w.chain s) b))
    else (b, s)

/-- The whole loop, in one state. -/
def read (sc : Scan υ β) (w : World υ) : β × Nat :=
  sc.slots w (w.slots.length - sc.first) sc.first (sc.init w)

/-- The number of steps from slot `s` on. -/
def stepsFrom (w : World υ) (s : Nat) : Nat :=
  ((List.range' s (w.slots.length - s)).map fun i => 2 * (w.chain i).length + 2).sum + 1

/-- A slot takes two steps for each of its entries, and two more. -/
theorem stepsFrom_lt {s : Nat} (hs : s < w.slots.length) :
    stepsFrom w s = 2 * (w.chain s).length + 2 + stepsFrom w (s + 1) := by
  have hlen : w.slots.length - s = w.slots.length - (s + 1) + 1 := by omega
  rw [stepsFrom, hlen, List.range'_succ, List.map_cons, List.sum_cons, stepsFrom, Nat.add_assoc]

/-- From every slot there is a step left. -/
theorem stepsFrom_pos (s : Nat) : 0 < stepsFrom w s := Nat.succ_pos _

/-- There are two steps for each entry and two for each slot. -/
theorem stepsFrom_le (s : Nat) :
    stepsFrom w s ≤ 2 * (w.entries.length + w.slots.length) + 1 := by
  have hsum (is : List Nat) : (is.map fun i => 2 * (w.chain i).length + 2).sum =
      2 * ((is.map fun i => (w.chain i).length).sum + is.length) := by
    induction is with
    | nil => rfl
    | cons i is ih =>
      simp only [List.map_cons, List.sum_cons, List.length_cons, ih]
      omega
  have hle : ((List.range' s (w.slots.length - s)).map fun i => (w.chain i).length).sum ≤
      w.entries.length := by
    rw [World.entries, List.length_flatMap, List.range_eq_range']
    simp only [List.length_map]
    refine (List.Sublist.map _ ?_).sum_le_sum fun _ _ => Nat.zero_le _
    rcases Nat.le_total s w.slots.length with hs | hs
    · have hsplit : List.range' 0 s ++ List.range' s (w.slots.length - s) =
          List.range' 0 w.slots.length := by
        have happend : List.range' 0 s ++ List.range' (0 + s) (w.slots.length - s) =
            List.range' 0 (s + (w.slots.length - s)) := List.range'_append_1
        rwa [Nat.zero_add, Nat.add_sub_cancel' hs] at happend
      exact hsplit ▸ List.sublist_append_right _ _
    · rw [Nat.sub_eq_zero_of_le hs]
      exact List.nil_sublist _
  rw [stepsFrom, hsum, List.length_range']
  omega

end Scan

/-! ## What goes on meanwhile -/

/-- What other processes do to the cache while they do not get the global lock. -/
structure World.Calm (w : World υ) (es : List (Nat × Bytes)) (w' : World υ) : Prop where
  evolves : Evolves (Pub w.shm es) w.shm w'.shm
  slots : w'.slots = w.slots
  next : ∀ x ∈ es, nextAt w'.shm x.1 = nextAt w.shm x.1
  serializer : w'.serializer = w.serializer
  counts : w'.counts = w.counts
  stime : w'.header.stime = w.header.stime

namespace World.Calm

/-- When nothing happens it is calm. -/
theorem refl (w : World υ) (es : List (Nat × Bytes)) : w.Calm es w :=
  ⟨.refl _ _, rfl, fun _ _ => rfl, rfl, rfl, rfl⟩

/-- Calm goes on. -/
theorem trans {w₁ : World υ} (h : w.Calm es w₁) (h' : w₁.Calm es w')
    (hw : w.Shaped pool z es live) : w.Calm es w' where
  evolves := by
    refine h.evolves.trans (h'.evolves.anti fun q hq => (Pub.congr fun x hx => ?_).2 hq)
    rw [(h.evolves.entryAt (hw.pub_entry hx)).eq]
  slots := h'.slots.trans h.slots
  next x hx := (h'.next x hx).trans (h.next x hx)
  serializer := h'.serializer.trans h.serializer
  counts := h'.counts.trans h.counts
  stime := h'.stime.trans h.stime

/-- What is calm is among what other processes may do. -/
theorem others (h : w.Calm es w') : Others (fun _ => False) True w es live w' es live where
  entries := List.prefix_rfl
  evolves := h.evolves
  nslots := by rw [h.slots]
  serializer := h.serializer
  block _ _ hno := hno.elim
  still _ := ⟨rfl, h.slots, h.next⟩

/-- An entry is the same but for its hits and its access time. -/
theorem entryAt (h : w.Calm es w') (hw : w.Shaped pool z es live) {x : Nat × Bytes} (hx : x ∈ es) :
    entryAt w'.shm x.1 = { entryAt w.shm x.1 with
      nhits := (entryAt w'.shm x.1).nhits, atime := (entryAt w'.shm x.1).atime } := by
  have hnext : (ImmutableCache.entryAt w'.shm x.1).next = (ImmutableCache.entryAt w.shm x.1).next :=
    h.next x hx
  have heq := (h.evolves.entryAt (hw.pub_entry hx)).eq
  rwa [hnext] at heq

end World.Calm

/-- Counting does not change the start time. -/
theorem Tick.apply_stime (a : Tick) (loaded : Unit → Option (Counter × Nat)) :
    (a.apply () ⟨w, loaded, []⟩).world.header.stime = w.header.stime := by
  cases a with
  | inc counter | store counter => cases counter <;> rfl
  | load _ | returned _ | touch _ _ => rfl

/-- No step of a call changes it. -/
theorem Request.Moves.stime {r : Request υ} {pc pc' : Pc υ}
    (h : r.Moves recursive pool php w pc w' pc') : w'.header.stime = w.header.stime := by
  cases h with
  | tick hs =>
    subst hs
    exact Tick.apply_stime _ _
  | _ => rfl

namespace Processes

/-- No process holds the global lock. -/
def Unlocked (s : Processes ι υ) : Prop := ∀ i p, s.running i = some p → ¬ p.pc.Locks

variable [DecidableEq ι] {s s' : Processes ι υ} {seq : List (Taken υ)} {i : ι}

/-- A step from a state in which no process holds the global lock. -/
theorem Inv.calm (h : s.Inv recursive pool z php es live seq) (hfree : s.Unlocked)
    (hstep : Step recursive pool z php s i s') :
    ∃ live' seq', s'.Inv recursive pool z php es live' seq' ∧ s.world.Calm es s'.world := by
  cases hstep with
  | call _ hstart hlegal hk => exact ⟨live, seq, h.call hstart hlegal hk, .refl _ _⟩
  | @move p w pc hrun hmove hpc =>
    obtain ⟨es', live', new, hp, h'⟩ := h.move hrun hmove hpc
    have hl := hfree i p hrun
    obtain ⟨rfl, hslots, hnext⟩ := hp.others.still hl
    have hcounts := (hmove.counts p.key).2.resolve_left hl
    exact ⟨live', _, h', hp.others.evolves, hslots, hnext, hp.others.serializer, hcounts,
      hmove.stime⟩
  | ret hrun hpc =>
    have hat := (h.sound _ _ hrun).1.at_pc
    rw [hpc] at hat
    exact ⟨live, seq, (h.ret hat).leave, .refl _ _⟩
  | bail hrun _ => exact ⟨live, seq, h.leave, .refl _ _⟩

end Processes

/-! ## The reader among the processes -/

/-- Processes that store and look up, and one that holds the global lock for reading. -/
structure Reading (ι υ β : Type) where
  procs : Processes ι υ
  reader : Reader β

/-- A step of the reader, or one of another process, which does not get the global lock. -/
inductive Reading.Step [DecidableEq ι] (recursive : Bool) (pool : Pool) (z : Zend)
    (php : Serializer υ) (sc : Scan υ β) : Reading ι υ β → Option ι → Reading ι υ β → Prop
  | read {s : Reading ι υ β} {rd : Reader β} :
      sc.move s.procs.world s.reader = some rd →
      Step recursive pool z php sc s none { s with reader := rd }
  | other {s : Reading ι υ β} {i : ι} {procs : Processes ι υ} :
      s.procs.Step recursive pool z php i procs → procs.Unlocked →
      Step recursive pool z php sc s (some i) { s with procs := procs }

/-- What the loop makes of the table is the same for `R`, whatever goes on meanwhile. -/
structure Scan.Settled (sc : Scan υ β) (R : β → β → Prop) (w : World υ) (es : List (Nat × Bytes)) :
    Prop where
  init : ∀ w', w.Calm es w' → R (sc.init w') (sc.init w)
  visit : ∀ w', w.Calm es w' → ∀ x ∈ es, ∀ b b', R b b' → R (sc.visit w' x.1 b) (sc.visit w x.1 b')
  close : ∀ s b b', R b b' → R (sc.close s b) (sc.close s b')
  more : ∀ b b', R b b' → sc.more b = sc.more b'

/-! ## Where the reader is -/

namespace World.Shaped

variable (h : w.Shaped pool z es live) (hn : w.header.nentries = es.length)

include h hn

/-- With the right number of entries in the header the chains are read to their ends. -/
theorem chain_eq {s : Nat} (hs : s < w.slots.length) :
    w.chain s = chainOf z w.slots.length es s :=
  walk_eq (h.table.chain s hs) ((Table.length_chainOf_le _ _ _ _).trans hn.ge)

/-- A slot heads its chain, which consists of entries of the table. -/
theorem chain_links {s : Nat} (hs : s < w.slots.length) :
    Chain (nextAt w.shm) (w.slots.getD s none) (w.chain s) ∧
      ∀ p ∈ w.chain s, p ∈ es.map Prod.fst := by
  rw [h.chain_eq hn hs]
  refine ⟨h.table.chain s hs, fun p hp => ?_⟩
  obtain ⟨k, hk, -⟩ := Table.mem_chainOf.1 hp
  exact List.mem_map.2 ⟨_, hk, rfl⟩

/-- The entries of the table, each once. -/
theorem perm_entries (php : Serializer υ) : w.entries.Perm es := by
  obtain ⟨header, encoder, hinv⟩ := h.inv php
  have heq : w.entries = { w with header := header, encoder := encoder }.entries := by
    have hnum : header.nentries = w.header.nentries := hinv.nentries.trans hn.symm
    simp only [World.entries, World.chain, hnum]
  exact heq ▸ hinv.perm_entries

end World.Shaped

namespace Scan

variable {sc : Scan υ β} {R : β → β → Prop} {rd rd' : Reader β} {n : Nat}

/-- A reader that got the lock in the state `w` has come as far as a loop in this state would, and
has at most `n` steps to go. -/
def At (sc : Scan υ β) (R : β → β → Prop) (w : World υ) (es : List (Nat × Bytes)) (n : Nat) :
    Reader β → Prop
  | .start => stepsFrom w sc.first + 1 ≤ n
  | .slot s b => stepsFrom w s ≤ n ∧
      ∃ b', R b b' ∧ sc.slots w (w.slots.length - s) s b' = sc.read w
  | .entry s p b => ∃ ps, Chain (nextAt w.shm) p ps ∧ (∀ q ∈ ps, q ∈ es.map Prod.fst) ∧
      2 * ps.length + 1 + stepsFrom w (s + 1) ≤ n ∧
      ∃ b', R b b' ∧ sc.slots w (w.slots.length - (s + 1)) (s + 1)
        (sc.close s (sc.chain w ps b')) = sc.read w
  | .next s p b => ∃ ps, Chain (nextAt w.shm) (nextAt w.shm p) ps ∧ p ∈ es.map Prod.fst ∧
      (∀ q ∈ ps, q ∈ es.map Prod.fst) ∧ 2 * ps.length + 2 + stepsFrom w (s + 1) ≤ n ∧
      ∃ b', R b b' ∧ sc.slots w (w.slots.length - (s + 1)) (s + 1)
        (sc.close s (sc.chain w ps b')) = sc.read w
  | .done s b => ∃ b', R b b' ∧ sc.read w = (b', s)

/-- The loop goes on with slot `s`. -/
theorem slots_go {s : Nat} {b : β} (h : sc.more b = true ∧ s < w.slots.length) :
    sc.slots w (w.slots.length - s) s b = sc.slots w (w.slots.length - (s + 1)) (s + 1)
      (sc.close s (sc.chain w (w.chain s) b)) := by
  have hfuel : w.slots.length - s = w.slots.length - (s + 1) + 1 := by
    have := h.2
    omega
  rw [hfuel, slots, if_pos h]

/-- The loop ends at slot `s`. -/
theorem slots_stop {s fuel : Nat} {b : β} (h : ¬ (sc.more b = true ∧ s < w.slots.length)) :
    sc.slots w fuel s b = (b, s) := by
  cases fuel with
  | zero => rfl
  | succ fuel => rw [slots, if_neg h]

/-- A step of the reader, whatever has gone on since it got the lock. -/
theorem At.move (h : sc.At R w es n rd) (hw : w.Shaped pool z es live)
    (hn : w.header.nentries = es.length) (hR : sc.Settled R w es) (hcalm : w.Calm es w')
    (hmove : sc.move w' rd = some rd') : ∃ m, n = m + 1 ∧ sc.At R w es m rd' := by
  cases rd with
  | start =>
    cases hmove
    have hle : stepsFrom w sc.first + 1 ≤ n := h
    exact ⟨n - 1, by omega, Nat.le_sub_one_of_lt h, sc.init w, hR.init w' hcalm, rfl⟩
  | slot s b =>
    obtain ⟨hle, b', hb, heq⟩ := h
    rw [Scan.move, hcalm.slots] at hmove
    by_cases hgo : sc.more b = true ∧ s < w.slots.length
    · rw [if_pos hgo] at hmove
      cases hmove
      obtain ⟨hchain, hmem⟩ := hw.chain_links hn hgo.2
      have hsteps := stepsFrom_lt hgo.2
      rw [slots_go ⟨(hR.more b b' hb).symm.trans hgo.1, hgo.2⟩] at heq
      exact ⟨n - 1, by omega, w.chain s, hchain, hmem, by omega, b', hb, heq⟩
    · rw [if_neg hgo] at hmove
      cases hmove
      have hpos := stepsFrom_pos (w := w) s
      rw [hR.more b b' hb] at hgo
      exact ⟨n - 1, by omega, b', hb, heq.symm.trans (slots_stop hgo)⟩
  | entry s p b =>
    obtain ⟨ps, hchain, hmem, hle, b', hb, heq⟩ := h
    cases p with
    | none =>
      cases hmove
      cases ps with
      | nil =>
        refine ⟨n - 1, by omega, ?_, _, hR.close s b b' hb, heq⟩
        simp only [List.length_nil] at hle
        omega
      | cons q qs => cases hchain.1
    | some p =>
      cases hmove
      cases ps with
      | nil => cases hchain
      | cons q qs =>
        obtain ⟨hpq, hchain⟩ := hchain
        obtain rfl := Option.some.inj hpq
        obtain ⟨x, hx, rfl⟩ := List.mem_map.1 (hmem p (by simp))
        rw [List.length_cons] at hle
        refine ⟨n - 1, by omega, qs, hchain, List.mem_map_of_mem hx,
          fun q hq => hmem q (List.mem_cons_of_mem _ hq), by omega, _,
          hR.visit w' hcalm x hx b b' hb, heq⟩
  | next s p b =>
    obtain ⟨ps, hchain, hp, hmem, hle, b', hb, heq⟩ := h
    cases hmove
    obtain ⟨x, hx, rfl⟩ := List.mem_map.1 hp
    rw [hcalm.next x hx]
    exact ⟨n - 1, by omega, ps, hchain, hmem, by omega, b', hb, heq⟩
  | done s b => cases hmove

/-- A loop is done or has a step. -/
theorem done_or_move (sc : Scan υ β) (w : World υ) (rd : Reader β) :
    (∃ s b, rd = .done s b) ∨ ∃ rd', sc.move w rd = some rd' := by
  cases rd with
  | start => exact .inr ⟨_, rfl⟩
  | slot s b =>
    refine .inr ?_
    rw [Scan.move]
    split <;> exact ⟨_, rfl⟩
  | entry s p b => cases p <;> exact .inr ⟨_, rfl⟩
  | next s p b => exact .inr ⟨_, rfl⟩
  | done s b => exact .inl ⟨s, b, rfl⟩

end Scan

namespace Reading

variable [DecidableEq ι] {sc : Scan υ β} {R : β → β → Prop} {s s' : Reading ι υ β}
  {evs : List (Option ι)} {n : Nat}

/-- The table is still that of the moment `w` at which the reader got the lock. -/
structure Inv (recursive : Bool) (pool : Pool) (z : Zend) (php : Serializer υ) (w : World υ)
    (es : List (Nat × Bytes)) (s : Reading ι υ β) : Prop where
  procs : ∃ live seq, s.procs.Inv recursive pool z php es live seq
  unlocked : s.procs.Unlocked
  calm : w.Calm es s.procs.world

/-- A step of the reader is one of the steps that it has left, and a step of another process changes
nothing that the reader sees. -/
theorem Inv.step {i : Option ι} (h : s.Inv recursive pool z php w es)
    (hat : sc.At R w es n s.reader) (hw : w.Shaped pool z es live)
    (hn : w.header.nentries = es.length) (hR : sc.Settled R w es)
    (hstep : Step recursive pool z php sc s i s') : s'.Inv recursive pool z php w es ∧
      ∃ m, n = m + (if i.isNone = true then 1 else 0) ∧ sc.At R w es m s'.reader := by
  cases hstep with
  | read hmove =>
    obtain ⟨m, hm, hat'⟩ := hat.move hw hn hR h.calm hmove
    exact ⟨⟨h.procs, h.unlocked, h.calm⟩, m, hm, hat'⟩
  | other hproc hfree =>
    obtain ⟨live₁, seq₁, hs⟩ := h.procs
    obtain ⟨live₂, seq₂, hs', hcalm⟩ := hs.calm h.unlocked hproc
    exact ⟨⟨⟨live₂, seq₂, hs'⟩, hfree, h.calm.trans hcalm hw⟩, n, rfl, hat⟩

/-- What the reader has got so far, and that the number of its steps is bounded. -/
theorem Inv.run (h : s.Inv recursive pool z php w es) (hat : sc.At R w es n s.reader)
    (hw : w.Shaped pool z es live) (hn : w.header.nentries = es.length) (hR : sc.Settled R w es)
    (hrun : Run (Step recursive pool z php sc) s evs s') : s'.Inv recursive pool z php w es ∧
      ∃ m, n = m + evs.countP Option.isNone ∧ sc.At R w es m s'.reader := by
  induction hrun generalizing n with
  | nil => exact ⟨h, n, rfl, hat⟩
  | @cons _ _ _ i is hstep _ ih =>
    obtain ⟨h₁, m₁, hm₁, hat₁⟩ := h.step hat hw hn hR hstep
    obtain ⟨h', m, hm, hat'⟩ := ih h₁ hat₁
    refine ⟨h', m, ?_, hat'⟩
    rw [List.countP_cons, hm₁, hm, Nat.add_assoc]

/-- The reader can finish by itself. -/
theorem Inv.finish (h : s.Inv recursive pool z php w es) (hat : sc.At R w es n s.reader)
    (hw : w.Shaped pool z es live) (hn : w.header.nentries = es.length) (hR : sc.Settled R w es) :
    ∃ m e b, Run (Step recursive pool z php sc) s (List.replicate m none)
      { s with reader := .done e b } := by
  induction n generalizing s with
  | zero =>
    obtain ⟨e, b, hrd⟩ | ⟨rd, hmove⟩ := sc.done_or_move s.procs.world s.reader
    · exact ⟨0, e, b, hrd ▸ .nil⟩
    · obtain ⟨m, hm, -⟩ := hat.move hw hn hR h.calm hmove
      cases hm
  | succ n ih =>
    obtain ⟨e, b, hrd⟩ | ⟨rd, hmove⟩ := sc.done_or_move s.procs.world s.reader
    · exact ⟨0, e, b, hrd ▸ .nil⟩
    · have hstep : Step recursive pool z php sc s none { s with reader := rd } := .read hmove
      obtain ⟨h₁, m₁, hm₁, hat₁⟩ := h.step hat hw hn hR hstep
      obtain rfl : n = m₁ := Nat.succ.inj hm₁
      obtain ⟨m, e, b, hrun⟩ := ih h₁ hat₁
      exact ⟨m + 1, e, b, .cons hstep hrun⟩

omit [DecidableEq ι] in
/-- The chains hold the entries of the table. -/
theorem Inv.linked (h : s.Inv recursive pool z php w es) {p : Nat} :
    s.procs.world.Linked p ↔ p ∈ es.map Prod.fst := by
  obtain ⟨live, seq, hs⟩ := h.procs
  exact hs.shaped.linked

/-- A process that gets the global lock for reading in the middle of an interleaving: it is done
after two steps for each entry and each slot, whatever the others do, it can always go on alone, and
what it has got then is for `R` what it would have got at once at the beginning. -/
theorem run_read {procs : Processes ι υ} {is : List ι} (hc : Created pool w₀)
    (h : Run (Processes.Step recursive pool z php) (.start w₀) is procs) (hfree : procs.Unlocked)
    (hR : ∀ {es live}, procs.world.Shaped pool z es live → sc.Settled R procs.world es)
    (hrun : Run (Step recursive pool z php sc) ⟨procs, .start⟩ evs s') :
    ∃ es live, procs.world.Shaped pool z es live ∧ procs.world.entries.Perm es ∧
      procs.world.counts = totals procs.world.shm es ∧
      s'.Inv recursive pool z php procs.world es ∧
      evs.countP Option.isNone ≤
        2 * (procs.world.header.nentries + procs.world.slots.length) + 2 ∧
      (∃ m e b, Run (Step recursive pool z php sc) s' (List.replicate m none)
        { s' with reader := .done e b }) ∧
      ∀ e b, s'.reader = .done e b → ∃ b', R b b' ∧ sc.read procs.world = (b', e) := by
  obtain ⟨-, hdr, sz, hinv⟩ := hc.inv z
  obtain ⟨es, live, seq, lost, hs, -, ht⟩ :=
    Processes.Accounts.start.run (.start hinv) (.start hinv.shaped) h
  have hcounts := ht.idle hfree
  have hn : procs.world.header.nentries = es.length := congrArg (·.2.1) hcounts
  have hperm := hs.shaped.perm_entries hn php
  have hbegin : Inv recursive pool z php procs.world es (⟨procs, .start⟩ : Reading ι υ β) :=
    ⟨⟨live, seq, hs⟩, hfree, .refl _ _⟩
  obtain ⟨hend, m, hm, hat⟩ := hbegin.run (R := R) (n := Scan.stepsFrom procs.world sc.first + 1)
    (Nat.le_refl _) hs.shaped hn (hR hs.shaped) hrun
  refine ⟨es, live, hs.shaped, hperm, hcounts, hend, ?_,
    hend.finish hat hs.shaped hn (hR hs.shaped), fun e b he => ?_⟩
  · have hle := Scan.stepsFrom_le (w := procs.world) sc.first
    rw [hperm.length_eq, ← hn] at hle
    omega
  · rw [he] at hat
    exact hat

end Reading

/-- Steps of the other processes, which do not get the global lock. -/
theorem Reading.run_others [DecidableEq ι] {sc : Scan υ β} {rd : Reader β} {is : List ι}
    {procs procs' : Processes ι υ}
    (h : Run (fun s i s' => Processes.Step recursive pool z php s i s' ∧ s'.Unlocked) procs is
      procs') :
    Run (Reading.Step recursive pool z php sc) ⟨procs, rd⟩ (is.map some) ⟨procs', rd⟩ := by
  induction h with
  | nil => exact .nil
  | cons h1 _ ih => exact .cons (.other h1.1 h1.2) ih

/-! ## A small cache that is read -/

namespace Small

/-- Look up `"a"`. -/
def findA : Request Bytes := ⟨sp, 0, .find 104 0⟩

/-- The lookup of `"a"` is legal in every state. -/
theorem findA_legal (w : World Bytes) : findA.Legal Small.pool zend w := ⟨on, [97], readStr_a w⟩

/-- The three requests to the small cache, as steps of a process. -/
theorem used_processes : ∃ is xs,
    Run (Processes.Step false Small.pool zend Small.php)
      (.start (start (env none)) : Processes Bool Bytes) is
      ⟨(start (env none)).sharing used, fun _ => none, Linear.sequential 0 xs⟩ := by
  have hlock (n : Nat) : (start (env none)).env.lockOk n = true := by
    rw [start_env]
    rfl
  have hreturns (e : Event Bytes) (he : e ∈ events) : e.req.start ≠ none ∧ e.outcome ≠ none := by
    have hall : events.all (fun e => e.req.start.isSome && e.outcome.isSome) = true := by
      decide +kernel
    have h := List.all_eq_true.1 hall e he
    rw [Bool.and_eq_true] at h
    exact ⟨Option.isSome_iff_ne_none.1 h.1, Option.isSome_iff_ne_none.1 h.2⟩
  obtain ⟨is, xs, hrun, -⟩ := Processes.of_requests true created hlock run hreturns
  exact ⟨is, xs, hrun⟩

/-- A process finds the array, and counts the hit. -/
theorem hit (history : List (Linear.Action (Request Bytes × Bytes) (Option Nat × Outcome Bytes))) :
    ∃ procs' : Processes Bool Bytes,
      Run (fun s i s' => Processes.Step false Small.pool zend Small.php s i s' ∧ s'.Unlocked)
        ⟨(start (env none)).sharing used, fun _ => none, history⟩ (List.replicate 11 false) procs' ∧
      procs'.world.header.nhits = ((start (env none)).sharing used).header.nhits + 1 := by
  have hprotect : ((start (env none)).sharing used).env.protectMemory = false := by
    show (start (env none)).env.protectMemory = false
    rw [start_env]
    rfl
  have hfound : (((start (env none)).sharing used).headOf
      (keyHash sp ((start (env none)).sharing used).shm 104)).any (fun q =>
        keyEquals sp ((start (env none)).sharing used).shm
          (entryAt ((start (env none)).sharing used).shm q) 104
          (keyHash sp ((start (env none)).sharing used).shm 104)) = true := by
    decide +kernel
  generalize (start (env none)).sharing used = w at hprotect hfound ⊢
  obtain ⟨q, hhead, hkey⟩ := (Option.any_eq_true _ _).1 hfound
  have hslot : findA.Moves false Small.pool Small.php w (.findSlot (keyHash sp w.shm 104)) w
      (.find (keyHash sp w.shm 104) (some q)) := by
    rw [← hhead]
    exact .findSlot
  have hticks : findA.ticks false w.env.protectMemory (some q) =
      [.inc .nhits, .inc (.entry q), .touch q 0] := by
    rw [hprotect]
    rfl
  have hcount : findA.Moves false Small.pool Small.php w (.find (keyHash sp w.shm 104) (some q)) w
      (.count (keyHash sp w.shm 104) (some q) none [.inc .nhits, .inc (.entry q), .touch q 0]) := by
    rw [← hticks]
    exact .found rfl hkey
  have hfree {s : Processes Bool Bytes} {pc : Pc Bytes} (hs : s.running true = none) :
      s.Free false false pc := by
    refine Processes.free_of_idle (fun j r hj hr => ?_) pc
    obtain rfl : j = true := Bool.eq_true_of_not_eq_false hj
    cases hs.symm.trans hr
  have hunlocked {s : Processes Bool Bytes} (hs : s.running true = none)
      (hp : ∀ p, s.running false = some p → ¬ p.pc.Locks) : s.Unlocked := by
    intro i p hi
    cases i with
    | false => exact hp p hi
    | true => cases hs.symm.trans hi
  refine ⟨_, .cons ⟨.call rfl rfl (findA_legal { w with header := default })
      (readStr_a { w with header := default }),
      hunlocked rfl ?_⟩
    (.cons ⟨.move rfl (.rlock rfl) (hfree rfl), hunlocked rfl ?_⟩
    (.cons ⟨.move rfl hslot (hfree rfl), hunlocked rfl ?_⟩
    (.cons ⟨.move rfl hcount (hfree rfl), hunlocked rfl ?_⟩
    (.cons ⟨.move rfl (.tick rfl) (hfree rfl), hunlocked rfl ?_⟩
    (.cons ⟨.move rfl (.tick rfl) (hfree rfl), hunlocked rfl ?_⟩
    (.cons ⟨.move rfl (.tick rfl) (hfree rfl), hunlocked rfl ?_⟩
    (.cons ⟨.move rfl .counted (hfree rfl), hunlocked rfl ?_⟩
    (.cons ⟨.move rfl .runlock (hfree rfl), hunlocked rfl ?_⟩
    (.cons ⟨.move rfl (.answer rfl) (hfree rfl), hunlocked rfl ?_⟩
    (.cons ⟨.ret rfl rfl, hunlocked rfl ?_⟩ .nil)))))))))), rfl⟩
  all_goals
    intro p hp
    cases hp
  -- the locks of a lookup
  all_goals simp [Pc.Locks, Pc.holds, fineGrainedLock]

/-- A process begins to read. After its first step another one finds the array. -/
theorem begin_reading : ∃ is, ∃ procs procs' : Processes Bool Bytes,
    Run (Processes.Step false Small.pool zend Small.php) (.start (start (env none))) is procs ∧
    procs.Unlocked ∧ procs'.world.header.nhits = procs.world.header.nhits + 1 ∧
    ∀ {β : Type} (sc : Scan Bytes β),
      Run (Reading.Step false Small.pool zend Small.php sc) ⟨procs, .start⟩
        (none :: (List.replicate 11 false).map some)
        ⟨procs', .slot sc.first (sc.init procs.world)⟩ := by
  obtain ⟨is, xs, hrun⟩ := used_processes
  obtain ⟨procs', hothers, hnhits⟩ := hit (Linear.sequential 0 xs)
  generalize (start (env none)).sharing used = w at hrun hothers hnhits
  refine ⟨is, ⟨w, fun _ => none, Linear.sequential 0 xs⟩, procs', hrun, ?_, ?_, ?_⟩
  · intro i p hp
    cases hp
  · exact hnhits
  · intro β sc
    exact .cons (.read rfl) (Reading.run_others hothers)

end Small

/-! ## The report -/

/-- The loop of `immutable_cache_cache_info` without a limit: the report so far, and the length of
the chain so far. -/
def cacheInfoScan : Scan υ (CacheInfo × Nat) where
  first := 0
  init w := ({
    numSlots := w.slots.length, numHits := w.header.nhits, numMisses := w.header.nmisses
    numInserts := w.header.ninserts, numEntries := w.header.nentries
    startTime := w.header.stime, memSize := w.header.memSize
    cacheList := some [], slotDistribution := some [] }, 0)
  visit w p b :=
    ({ b.1 with cacheList := b.1.cacheList.map (· ++ [(entryAt w.shm p).linkInfo]) }, b.2 + 1)
  close s b :=
    (if b.2 ≠ 0 then
      { b.1 with slotDistribution := b.1.slotDistribution.map (· ++ [(s, b.2)]) }
    else b.1, 0)
  more _ := true

/-- The report on a table that nobody changes. -/
def World.report (w : World υ) : CacheInfo where
  numSlots := w.slots.length
  numHits := w.header.nhits
  numMisses := w.header.nmisses
  numInserts := w.header.ninserts
  numEntries := w.header.nentries
  startTime := w.header.stime
  memSize := w.header.memSize
  cacheList := some ((List.range w.slots.length).flatMap fun s =>
    (w.chain s).map fun p => (entryAt w.shm p).linkInfo)
  slotDistribution := some (w.slotLengths (List.range w.slots.length))

/-- A chain adds its entries to the list, and their number to the length so far. -/
theorem cacheInfoScan_chain (ps : List Nat) (b : CacheInfo × Nat) : cacheInfoScan.chain w ps b =
    ({ b.1 with cacheList := b.1.cacheList.map (· ++ ps.map fun p => (entryAt w.shm p).linkInfo) },
      b.2 + ps.length) := by
  induction ps generalizing b with
  | nil => simp [Scan.chain]
  | cons p ps ih =>
    have hcons : cacheInfoScan.chain w (p :: ps) b =
        cacheInfoScan.chain w ps (cacheInfoScan.visit w p b) := rfl
    rw [hcons, ih]
    simp only [cacheInfoScan, Option.map_map, List.map_cons, List.length_cons]
    refine Prod.ext ?_ (by dsimp only; omega)
    simp [Function.comp_def]

/-- The first slot counts if it has entries. -/
theorem slotLengths_cons (s : Nat) (is : List Nat) : w.slotLengths (s :: is) =
    (if (w.chain s).length ≠ 0 then [(s, (w.chain s).length)] else []) ++ w.slotLengths is := by
  by_cases h : (w.chain s).length = 0 <;> simp [World.slotLengths, h]

/-- The slots from `s` on add their entries to the list, and their lengths to the distribution. -/
theorem cacheInfoScan_slots (n s : Nat) (i : CacheInfo) (hs : s + n = w.slots.length) :
    cacheInfoScan.slots w n s (i, 0) = (({ i with
      cacheList := i.cacheList.map (· ++ (List.range' s n).flatMap fun s =>
        (w.chain s).map fun p => (entryAt w.shm p).linkInfo)
      slotDistribution := i.slotDistribution.map (· ++ w.slotLengths (List.range' s n)) }, 0),
      w.slots.length) := by
  induction n generalizing s i with
  | zero =>
    simp only [Scan.slots, List.range'_zero, List.flatMap_nil, World.slotLengths, List.map_nil,
      List.filter_nil, List.append_nil, Option.map_id']
    rw [← hs, Nat.add_zero]
  | succ n ih =>
    have hlt : (cacheInfoScan : Scan υ _).more (i, 0) = true ∧ s < w.slots.length :=
      ⟨rfl, by omega⟩
    rw [Scan.slots, if_pos hlt, cacheInfoScan_chain]
    have hclose (b : CacheInfo × Nat) : (cacheInfoScan : Scan υ _).close s b = ({ b.1 with
        slotDistribution := b.1.slotDistribution.map
          (· ++ if b.2 ≠ 0 then [(s, b.2)] else []) }, 0) := by
      by_cases hb : b.2 = 0 <;> simp [cacheInfoScan, hb]
    rw [hclose, ih _ _ (by omega)]
    simp only [List.range'_succ, List.flatMap_cons, slotLengths_cons, Option.map_map, Nat.zero_add,
      Function.comp_def, List.append_assoc]

/-- The loop reports what `immutable_cache_cache_info` does. -/
theorem cacheInfoScan_read : cacheInfoScan.read w = ((w.report, 0), w.slots.length) := by
  have hslots := cacheInfoScan_slots w.slots.length 0 (cacheInfoScan.init w).1 (Nat.zero_add _)
  refine hslots.trans ?_
  simp [cacheInfoScan, World.report, List.range_eq_range']

/-- `immutable_cache_cache_info` in one step. -/
theorem wp_cacheInfo_report : Wp (cacheInfo false) w (fun r _ => ∀ i, r = some i → i = w.report)
    fun _ => True := by
  simp only [cacheInfo, rlock, wp_bind, wp_ite]
  refine (Harmless.wp_acquire (w := w)).mono (fun ok w₁ h₁ => ?_) fun _ _ => trivial
  obtain ⟨h₁, -⟩ := h₁
  split
  · simp only [wp_ensuring, wp_map, unlock, wp_modify, cacheInfoLocked, wp_bind, wp_get,
      Bool.false_eq_true, if_false, wp_pure]
    refine (Harmless.emallocN 9 w₁).mono (fun _ w₂ h₂ => ?_) fun _ _ => trivial
    refine (Harmless.emallocN 2 w₂).mono (fun _ w₃ h₃ => ?_) fun _ _ => trivial
    have h₂ := h₁.trans h₂
    have h₃ := h₂.trans h₃
    refine (wp_slotInfos (w := w₃) _).mono (fun r w₄ h₄ => ?_) fun _ _ => trivial
    obtain ⟨-, hlist, hdist⟩ := h₄
    refine (Harmless.emallocN 2 w₄).mono (fun _ w₅ h₅ => ?_) fun _ _ => trivial
    intro i hi
    cases hi
    have hheader : w₂.header = w.header := by rw [h₂]
    have hslots : w₂.slots = w.slots := by rw [h₂]
    rw [hlist, hdist, World.slotLengths, h₃.chain, h₃.shm, hheader, hslots]
    rfl
  · intro i hi
    cases hi

/-- The list of a report has the entries of all slots. -/
theorem World.report_cacheList (w : World υ) : w.report.cacheList =
    some (w.entries.map fun x => (entryAt w.shm x.1).linkInfo) := by
  rw [World.report, World.entries, List.map_flatMap]
  simp [Function.comp_def]

/-- Every entry is in one chain. -/
theorem World.sum_slotLengths :
    ((w.slotLengths (List.range w.slots.length)).map Prod.snd).sum = w.entries.length := by
  have hsum (is : List Nat) : ((w.slotLengths is).map Prod.snd).sum =
      (is.map fun s => (w.chain s).length).sum := by
    induction is with
    | nil => rfl
    | cons s is ih =>
      rw [slotLengths_cons, List.map_append, List.sum_append, ih, List.map_cons, List.sum_cons]
      by_cases hs : (w.chain s).length = 0 <;> simp [hs]
  rw [hsum, World.entries, List.length_flatMap]
  simp only [List.length_map]

/-- What is told about an entry but for what lookups change. -/
def LinkInfo.settled (l : LinkInfo) : LinkInfo := { l with numHits := 0, accessTime := 0 }

/-- A report but for what lookups change. -/
def CacheInfo.settled (i : CacheInfo) : CacheInfo :=
  { i with
    numHits := 0, numMisses := 0
    cacheList := i.cacheList.map fun links => links.map LinkInfo.settled }

/-- Two points of the loop at which all is the same but for what lookups change. -/
def SameReport (b b' : CacheInfo × Nat) : Prop := b.1.settled = b'.1.settled ∧ b.2 = b'.2

/-- What is told about an entry stays the same but for hits and access times. -/
theorem World.Calm.linkInfo (h : w.Calm es w') (hw : w.Shaped pool z es live) {x : Nat × Bytes}
    (hx : x ∈ es) :
    (ImmutableCache.entryAt w'.shm x.1).linkInfo.settled =
      (ImmutableCache.entryAt w.shm x.1).linkInfo.settled := by
  rw [h.entryAt hw hx]
  rfl

/-- So does what the loop makes of the table. -/
theorem cacheInfoScan_settled (hw : w.Shaped pool z es live) :
    cacheInfoScan.Settled SameReport w es where
  init w' h := by
    have hcounts := h.counts
    simp only [World.counts, Prod.mk.injEq] at hcounts
    obtain ⟨hmem, hn, hi⟩ := hcounts
    simp [SameReport, cacheInfoScan, CacheInfo.settled, h.slots, h.stime, hmem, hn, hi]
  visit w' h x hx b b' hb := by
    obtain ⟨hb1, hb2⟩ := hb
    have hpush (i : CacheInfo) (l : LinkInfo) :
        { i with cacheList := i.cacheList.map (· ++ [l]) }.settled =
          { i.settled with cacheList := i.settled.cacheList.map (· ++ [l.settled]) } := by
      simp [CacheInfo.settled, Function.comp_def]
    refine ⟨?_, congrArg (· + 1) hb2⟩
    simp only [cacheInfoScan]
    rw [hpush, hpush, hb1, h.linkInfo hw hx]
  close s b b' hb := by
    obtain ⟨hb1, hb2⟩ := hb
    have hpush (i : CacheInfo) (l : Nat × Nat) :
        { i with slotDistribution := i.slotDistribution.map (· ++ [l]) }.settled =
          { i.settled with slotDistribution := i.settled.slotDistribution.map (· ++ [l]) } := rfl
    refine ⟨?_, rfl⟩
    simp only [cacheInfoScan, hb2]
    split
    · rw [hpush, hpush, hb1]
    · exact hb1
  more _ _ _ := rfl

namespace Reading

variable [DecidableEq ι] {procs procs' : Processes ι υ} {is : List ι} {evs : List (Option ι)}
  {rd : Reader (CacheInfo × Nat)}

/-- A process executes `immutable_cache_cache_info` in the middle of an interleaving of stores and
lookups: it gets the global lock at `procs`, and between its loads the others take steps. Whatever
they do, it is never blocked, and done after two steps for each entry and each slot. It reports what
it would report in one step at the moment that it got the lock, but for the hits, the misses and the
access times; the entries in its list are those of the table, each once, they are as many as it
says, and their sizes add up to the size that it says. -/
theorem run_cacheInfo (hc : Created pool w₀)
    (h : Run (Processes.Step recursive pool z php) (.start w₀) is procs) (hfree : procs.Unlocked)
    (hread : Run (Step recursive pool z php cacheInfoScan) ⟨procs, .start⟩ evs ⟨procs', rd⟩) :
    evs.countP Option.isNone ≤
      2 * (procs.world.header.nentries + procs.world.slots.length) + 2 ∧
    (∃ n e b, Run (Step recursive pool z php cacheInfoScan) ⟨procs', rd⟩ (List.replicate n none)
      ⟨procs', .done e b⟩) ∧
    ∀ e info j, rd = .done e (info, j) →
      (∀ i w', cacheInfo false procs.world = .ok (some i) w' → info.settled = i.settled) ∧
      ∃ (ps : List Nat) (links : List LinkInfo) (dist : List (Nat × Nat)),
        info.cacheList = some links ∧ info.slotDistribution = some dist ∧
        ps.Nodup ∧ (∀ p, p ∈ ps ↔ procs'.world.Linked p) ∧
        links.map LinkInfo.settled =
          ps.map (fun p => (entryAt procs'.world.shm p).linkInfo.settled) ∧
        info.numEntries = links.length ∧ info.numInserts = links.length ∧
        info.memSize = (links.map LinkInfo.memSize).sum ∧
        (∀ x ∈ dist, 0 < x.2) ∧ (dist.map Prod.snd).sum = links.length := by
  obtain ⟨es, live, hw, hperm, hcounts, hinv, hsteps, hfinish, hdone⟩ :=
    run_read hc h hfree cacheInfoScan_settled hread
  simp only [World.counts, totals, Prod.mk.injEq] at hcounts
  obtain ⟨hmem, hn, hi⟩ := hcounts
  refine ⟨hsteps, hfinish, fun e info j he => ?_⟩
  obtain ⟨b', hb, hread'⟩ := hdone e (info, j) he
  rw [cacheInfoScan_read] at hread'
  obtain rfl : (procs.world.report, 0) = b' := congrArg Prod.fst hread'
  have hsame : info.settled = procs.world.report.settled := hb.1
  refine ⟨fun i w' hrun => ?_, ?_⟩
  · rw [Wp.of_ok wp_cacheInfo_report hrun i rfl]
    exact hsame
  obtain ⟨links, hlinks, hlist⟩ := Option.map_eq_some_iff.1
    ((congrArg CacheInfo.cacheList hsame).trans
      (congrArg (Option.map (List.map LinkInfo.settled)) procs.world.report_cacheList))
  have hlen : links.length = es.length := by
    have hlen := congrArg List.length hlist
    rw [List.length_map, List.length_map, List.length_map] at hlen
    exact hlen.trans hperm.length_eq
  refine ⟨procs.world.entries.map Prod.fst, links, procs.world.slotLengths
    (List.range procs.world.slots.length), hlinks, congrArg CacheInfo.slotDistribution hsame,
    (hperm.map Prod.fst).nodup_iff.2 hw.table.nodup, fun p => ?_, ?_,
    (congrArg CacheInfo.numEntries hsame).trans (hn.trans hlen.symm),
    (congrArg CacheInfo.numInserts hsame).trans (hi.trans hlen.symm), ?_, fun x hx => ?_, ?_⟩
  · rw [hinv.linked]
    exact (hperm.map Prod.fst).mem_iff
  · rw [hlist, List.map_map, List.map_map]
    refine List.map_congr_left fun x hx => ?_
    exact (hinv.calm.linkInfo hw (hperm.mem_iff.1 hx)).symm
  · have hsizes : links.map LinkInfo.memSize =
        procs.world.entries.map fun x => (entryAt procs.world.shm x.1).memSize := by
      have hsizes := congrArg (List.map LinkInfo.memSize) hlist
      rw [List.map_map, List.map_map, List.map_map] at hsizes
      exact hsizes
    have hsum := (hperm.map fun x => (entryAt procs.world.shm x.1).memSize).sum_eq
    rw [hsizes, hsum]
    exact (congrArg CacheInfo.memSize hsame).trans hmem
  · exact Nat.pos_of_ne_zero (by simpa using (List.mem_filter.1 hx).2)
  · rw [World.sum_slotLengths, hlen]
    exact hperm.length_eq

/-- A report on the small cache with the array. After its first load another process finds the array,
and counts the hit. -/
theorem run_cacheInfo_small : ∃ procs procs' : Processes Bool Bytes, ∃ evs e info j,
    Run (Step false Small.pool Small.zend Small.php cacheInfoScan) ⟨procs, .start⟩ evs
      ⟨procs', .done e (info, j)⟩ ∧
    procs'.world.header.nhits = procs.world.header.nhits + 1 ∧
    ∃ (links : List LinkInfo) (dist : List (Nat × Nat)), info.cacheList = some links ∧
      info.slotDistribution = some dist ∧ info.numEntries = links.length ∧
      (dist.map Prod.snd).sum = links.length := by
  obtain ⟨is, procs, procs', hrun, hfree, hnhits, hbegin⟩ := Small.begin_reading
  have hbegin := hbegin cacheInfoScan
  obtain ⟨n, e, b, hend⟩ := (run_cacheInfo Small.created hrun hfree hbegin).2.1
  obtain ⟨-, -, links, dist, hlinks, hdist, -, -, -, hn, -, -, -, hsum⟩ :=
    (run_cacheInfo Small.created hrun hfree (hbegin.append hend)).2.2 e b.1 b.2 rfl
  exact ⟨procs, procs', _, e, b.1, b.2, hbegin.append hend, hnhits, links, dist, hlinks, hdist, hn,
    hsum⟩

end Reading

end ImmutableCache
