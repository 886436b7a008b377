import ImmutableCache.Cache.Linearizable

/-!
# Calls in progress can return

Whatever stores and lookups have been doing, the ones in progress can all return, without a call that
is made or that bails out (`Processes.run_completes`): no process is stuck, none waits for ever for a
lock or for memory, and no walk along a chain goes on without end.

A lookup that has its lock needs nothing more, and so may go on first. Then a process with the global
lock finds the fine-grained ones free. When no process has a lock, any of them goes on.
-/

namespace ImmutableCache

open Procs

variable {ι υ : Type} {z : Zend} {pool : Pool} {php : Serializer υ} {recursive : Bool}
  {es : List (Nat × Bytes)} {live : Nat → Option Nat} {w w' w₀ w₁ : World υ} {pc pc' pc₁ : Pc υ}
  {r : Request υ} {c : Ctxt} {p h i : Nat} {k : Bytes}

/-! ## Where a call is -/

/-- Where a lookup is. -/
def Pc.ofLookup : Pc υ → Bool
  | .rlock | .findSlot _ | .find _ _ | .findNext _ _ | .count _ _ _ _ | .runlock _ _ | .answer _ => true
  | _ => false

/-- Where a lookup is that has come to its lock, for a key with the hash `h`. -/
def Pc.Entered (h : Nat) : Pc υ → Prop
  | .findSlot h' | .find h' _ | .findNext h' _ | .count h' _ _ _ | .runlock h' _ => h' = h
  | .answer _ | .ret _ _ => True
  | _ => False

/-- The lock of a lookup. -/
def lookupLock (recursive : Bool) (h : Nat) : Lock × Mode :=
  (fineGrainedLock h, if recursive then .exclusive else .shared)

/-- A lookup holds no other lock. -/
theorem Pc.Entered.holds (hpc : pc.Entered h) {x : Lock × Mode} (hx : x ∈ pc.holds recursive) :
    x = lookupLock recursive h := by
  cases pc with
  | findSlot _ | find _ _ | findNext _ _ | count _ _ _ _ | runlock _ _ =>
    cases hpc
    exact List.mem_singleton.1 hx
  | answer _ | ret _ _ => cases hx
  | _ => exact hpc.elim

/-- A process that has a lock, but not the global one, does a lookup. -/
theorem Pc.entered_of_holds (hx : pc.holds recursive ≠ []) (hpc : ¬ pc.Locks) :
    ∃ h, pc.Entered h ∧ lookupLock recursive h ∈ pc.holds recursive ∧ pc.ofLookup = true := by
  cases pc with
  | findSlot h | find h _ | findNext h _ | count h _ _ _ | runlock h _ =>
    exact ⟨h, rfl, List.mem_singleton.2 rfl, rfl⟩
  | persistSize | smaMalloc _ | smaLock _ _ _ _ | persistFill _ _ _ | wlock _ | freeLock _ | rlock
  | answer _ | ret _ _ => exact absurd rfl hx
  | _ => exact absurd (by simp [Pc.Locks, Pc.holds]) hpc

namespace Request.Moves

variable (h1 : r.Moves recursive pool php w pc w' pc')

include h1

/-- A lookup that has its lock keeps the hash of its key. -/
theorem entered (hpc : pc.Entered h) : pc'.Entered h := by
  cases h1 with
  | findSlot | found | skip | findNext | missed | tick | counted => exact hpc
  | runlock | answer => trivial
  | _ => exact hpc.elim

/-- What is at a point of a lookup has been in one before. -/
theorem ofLookup (hpc : pc'.ofLookup = true) : pc.ofLookup = true := by
  cases h1 with
  | allocated =>
    split at hpc <;> cases hpc
  | rlock | findSlot | found | skip | findNext | missed | tick | counted | runlock => rfl
  | _ => cases hpc

/-- No step leads back to the sizing. -/
theorem ne_persistSize : pc' ≠ .persistSize := by
  intro hpc
  cases h1 with
  | allocated =>
    split at hpc <;> cases hpc
  | _ => cases hpc

end Request.Moves

/-- Stores do what stores do, and lookups what lookups do. -/
structure Process.Kind (pr : Process υ) : Prop where
  lookup : pr.pc.ofLookup = true → ∃ key, pr.req.lookupKey = some key
  store : pr.pc = .persistSize → ∃ key val t, pr.req.call = .store key val t

/-! ## Returning -/

namespace Request

/-- The call returns, if its process goes on alone. -/
def Returns (recursive : Bool) (pool : Pool) (php : Serializer υ) (r : Request υ) (w : World υ)
    (pc : Pc υ) : Prop :=
  ∃ w' entry o, r.Alone recursive pool php w pc w' (.ret entry o)

/-- It returns, or it comes to have a copy of its value. -/
def Persists (recursive : Bool) (pool : Pool) (php : Serializer υ) (r : Request υ) (w : World υ)
    (pc : Pc υ) : Prop :=
  r.Returns recursive pool php w pc ∨ ∃ w' p, r.Alone recursive pool php w pc w' (.wlock p)

namespace Returns

/-- A call that goes on alone to a point from which it can return. -/
theorem along (h1 : r.Alone recursive pool php w pc w₁ pc₁) (h : r.Returns recursive pool php w₁ pc₁) :
    r.Returns recursive pool php w pc := by
  obtain ⟨w', entry, o, h⟩ := h
  exact ⟨w', entry, o, h1.trans h⟩

/-- One step to a point from which the call can return. -/
theorem step (h1 : r.Moves recursive pool php w pc w₁ pc₁)
    (h : r.Returns recursive pool php w₁ pc₁) : r.Returns recursive pool php w pc := along (.single h1) h

/-- At its return a call can return. -/
theorem ret {entry : Option Nat} {o : Outcome υ} : r.Returns recursive pool php w (.ret entry o) :=
  ⟨w, entry, o, .refl⟩

/-! ### Lookups -/

section

variable {key : Nat} {entry : Option Nat} (hkey : r.lookupKey = some key)

include hkey

/-- A lookup that has found its entry, or none, can return. -/
theorem answer : r.Returns recursive pool php w (.answer entry) := by
  obtain ⟨o, ho⟩ := reply_some hkey php w entry
  exact step (.answer ho) ret

/-- A lookup that counts can return. -/
theorem count {loaded : Option (Counter × Nat)} {ticks : List Tick} :
    r.Returns recursive pool php w (.count h entry loaded ticks) :=
  along (alone_count pool php recursive r entry ticks ⟨w, fun _ => loaded, []⟩)
    (step .counted (step .runlock (answer hkey)))

/-- A walk comes to the end of its chain, if it does not find the key. -/
theorem find {head : Option Nat} {qs : List Nat} (hc : Chain (nextAt w.shm) head qs) :
    r.Returns recursive pool php w (.find h head) :=
  along (alone_findWalk pool php recursive r hkey hc le_rfl) (count hkey)

end

/-! ### Stores -/

section

variable (hseg : pool.segmentOf p = some i)

include hseg

/-- A store that is to free its block can return. -/
theorem freeDeallocate : r.Returns recursive pool php w (.freeDeallocate p) :=
  step (.freeDeallocate hseg) (step .freeUnlock ret)

/-- A store that is to release the global lock can return. -/
theorem wunlock {ret : Bool} : r.Returns recursive pool php w (.wunlock p ret) := by
  cases ret with
  | true => exact step .stored .ret
  | false => exact step .notStored (step .freeLock (freeDeallocate hseg))

end

/-- A store that has linked its entry can return. -/
theorem insertMemSize : r.Returns recursive pool php w (.insertMemSize p h) :=
  step .insertMemSize (step .insertNentries (step .insertNinserts (step .wunlockFine (step .stored ret))))

/-- A store that has come to the end of the chain can return. -/
theorem insertNext {place : Option Nat} : r.Returns recursive pool php w (.insertNext p h place) :=
  step .insertNext (step (.insertLink rfl) insertMemSize)

/-- A store that walks along a chain can return, as the chain has an end. -/
theorem insert {place : Option Nat} {qs : List Nat} (hseg : pool.segmentOf p = some i)
    (hc : Chain (nextAt w.shm) (w.load (w.newHash r.sp p) place) qs) :
    r.Returns recursive pool php w (.insert p h place) := by
  obtain ⟨hfound, hend⟩ := alone_insertWalk pool php recursive r (h := h) hc le_rfl rfl
  generalize insertPlace r.sp w.shm (entryAt w.shm p).key (w.newHash r.sp p) qs.length place
    (w.load (w.newHash r.sp p) place) = x at hfound hend
  cases x with
  | none => exact along (hfound rfl) (step .wunlockFine (wunlock hseg))
  | some place' => exact along (hend place' rfl).2 insertNext

end Returns

namespace Persists

variable {key t : Nat} {val : Zval} {is : List Nat}

/-- A call that goes on alone to a point from which it can persist. -/
theorem along (h1 : r.Alone recursive pool php w pc w₁ pc₁)
    (h : r.Persists recursive pool php w₁ pc₁) : r.Persists recursive pool php w pc := by
  obtain h | ⟨w', p, h⟩ := h
  · exact .inl (h.along h1)
  · exact .inr ⟨w', p, h1.trans h⟩

/-- One step to a point from which the call can persist. -/
theorem step (h1 : r.Moves recursive pool php w pc w₁ pc₁)
    (h : r.Persists recursive pool php w₁ pc₁) : r.Persists recursive pool php w pc :=
  along (.single h1) h

/-- A store that copies can write what is left of the copy. -/
theorem persistFill {copy : Mem} : r.Persists recursive pool php w (.persistFill c p copy) :=
  along (alone_write pool php recursive r copy le_rfl)
    (.inr ⟨_, p, .single (.filled fun _ h1 h2 => if_pos ⟨h1, h2⟩)⟩)

variable (hcall : r.call = .store key val t)

include hcall

/-- A store that has got a block can release the lock and copy. -/
theorem unlock : r.Persists recursive pool php w (.smaUnlock c (some p) is) :=
  step (.smaUnlock hcall) persistFill

/-- A segment has memory for the copy, or the loop goes on. -/
theorem smaAllocate {first : Bool} {i : Nat}
    (hnone : ∀ w : World υ, r.Persists recursive pool php w (.smaUnlock c none is)) :
    r.Persists recursive pool php w (.smaAllocate c first i is) := by
  generalize ha : w.sma.allocate i c.size = x
  obtain ⟨_ | ⟨off, sz⟩, s⟩ := x
  · exact step (.notAllocated ha) (hnone _)
  · refine step (.allocated ha) ?_
    cases first with
    | true => exact unlock hcall
    | false => exact step .smaLast (unlock hcall)

/-- The loop over the other segments. -/
theorem loop (is : List Nat) : r.Persists recursive pool php w (.smaUnlock c none is) := by
  induction is generalizing w with
  | nil => exact .inl (.step .smaNone .ret)
  | cons i is ih => exact step .smaNext (step .smaLock (smaAllocate hcall fun w => ih))

/-- A store that tries the segments one after the other gets a block, or returns without one. -/
theorem smaLock {first : Bool} {i : Nat} : r.Persists recursive pool php w (.smaLock c first i is) :=
  step .smaLock (smaAllocate hcall fun _ => loop hcall is)

/-- A store can size its value, allocate and copy. -/
theorem persistSize : r.Persists recursive pool php w .persistSize := by
  generalize hs : ImmutableCache.persistSize r.sp php w.serializer r.depth w.shm 0
    (initEntry key val t) = x
  obtain ⟨ok, c⟩ := x
  cases ok with
  | true => exact step (.sized hcall hs) (step .smaMalloc (smaLock hcall))
  | false => exact .inl (.step (.notSized hcall hs) .ret)

end Persists

end Request

/-! ## No process is stuck -/

/-- From an entry on, a chain comes to an end. -/
theorem World.Shaped.chain_next {q : Nat} (hw : w.Shaped pool z es live) (hq : (q, k) ∈ es) :
    ∃ qs, Chain (nextAt w.shm) (nextAt w.shm q) qs := by
  have hchain := hw.table.chain (z.hash k % w.slots.length) (Nat.mod_lt _ hw.table.nslots)
  exact hchain.rest (Table.mem_chainOf.2 ⟨k, hq, rfl⟩)

/-- The slot of a hash begins a chain. -/
theorem World.Shaped.chain_head (hw : w.Shaped pool z es live) (hash : Nat) :
    ∃ qs, Chain (nextAt w.shm) (w.headOf hash) qs :=
  ⟨_, hw.table.chain _ (Nat.mod_lt hash hw.table.nslots)⟩

/-- A block that is allocated is in a segment. -/
theorem World.Shaped.segmentOf {n : Nat} (hw : w.Shaped pool z es live) (ho : Owned live es p n) :
    ∃ i, pool.segmentOf p = some i := by
  obtain ⟨sz, hsz, -, -⟩ := ho
  obtain ⟨cs, hcs⟩ := hw.sma
  obtain ⟨i, -, hi, -⟩ := hcs.deallocate hsz
  exact ⟨i, hi⟩

/-- The entry that a walk has come to is in the table. -/
theorem Walked.mem {n q : Nat} (hwalk : Walked z n es k (some q)) : ∃ kq, (q, kq) ∈ es := by
  obtain ⟨pre, post, hc, -, hplace⟩ := hwalk
  obtain ⟨x, hx, rfl⟩ := List.mem_map.1 (List.mem_of_getLast? hplace.symm)
  have hmem : x ∈ chainFor z n es k := by
    rw [hc]
    exact List.mem_append_left _ hx
  exact ⟨x.2, List.mem_of_mem_filter hmem⟩

namespace Process

variable {pr : Process υ} {seq : List (Taken υ)}

section

variable (hw : w.Shaped pool pr.req.sp.zend es live)

include hw

/-- A store frees the block that is not needed. -/
theorem returns_wunlock {ret : Bool} (ho : ret = false → Owned live es p 0) :
    pr.req.Returns recursive pool php w (.wunlock p ret) := by
  cases ret with
  | true => exact .step .stored .ret
  | false =>
    obtain ⟨i, hi⟩ := hw.segmentOf (ho rfl)
    exact .wunlock hi

/-- A store goes on from its walk along the chain. -/
theorem returns_insert {place : Option Nat} (ho : Owned live es p 0)
    (hwalk : Walked pr.req.sp.zend w.slots.length es pr.key place) :
    pr.req.Returns recursive pool php w (.insert p h place) := by
  obtain ⟨i, hi⟩ := hw.segmentOf ho
  cases place with
  | none =>
    obtain ⟨qs, hqs⟩ := hw.chain_head (w.newHash pr.req.sp p)
    exact .insert hi hqs
  | some q =>
    obtain ⟨kq, hq⟩ := hwalk.mem
    obtain ⟨qs, hqs⟩ := hw.chain_next hq
    exact .insert hi hqs

/-- A store that has a copy of its value returns. -/
theorem returns_wlock (hat : pr.At pool php w es live seq (.wlock p)) :
    pr.req.Returns recursive pool php w (.wlock p) := by
  have ho : Owned live es p 0 := hat.owned rfl
  obtain ⟨-, key, val, t, -, hcall, -⟩ := hat
  exact .step (.wlock hcall) (.step .wlockFine (returns_insert hw ho .start))

/-- A lookup returns. -/
theorem returns_lookup {key : Nat} (hkey : pr.req.lookupKey = some key) (hpc : pc.ofLookup = true)
    (hat : pr.At pool php w es live seq pc) : pr.req.Returns recursive pool php w pc := by
  have hslot (h : Nat) : pr.req.Returns recursive pool php w (.findSlot h) := by
    obtain ⟨qs, hqs⟩ := hw.chain_head h
    exact .step .findSlot (.find hkey hqs)
  cases pc with
  | rlock => exact .step (.rlock hkey) (hslot _)
  | findSlot h => exact hslot h
  | find h entry =>
    cases entry with
    | none => exact .find hkey (Chain.nil_iff.2 rfl)
    | some q =>
      obtain ⟨kq, hq⟩ := hat.2.2.mem
      obtain ⟨qs, hqs⟩ := hw.chain_next hq
      exact .find hkey (Chain.cons_iff.2 ⟨rfl, hqs⟩)
  | findNext h q =>
    obtain ⟨kq, hq⟩ := hat.2.2.mem
    obtain ⟨qs, hqs⟩ := hw.chain_next hq
    exact .step .findNext (.find hkey hqs)
  | count h entry loaded ticks => exact .count hkey
  | runlock h entry => exact .step .runlock (.answer hkey)
  | answer entry => exact .answer hkey
  | _ => cases hpc

/-- At each point of a call its process can go on until the call returns, or until a store has a copy
of its value. -/
theorem persists (hkind : pr.Kind) (hat : pr.At pool php w es live seq pr.pc) :
    pr.req.Persists recursive pool php w pr.pc := by
  have hlookup := hkind.lookup
  have hstore := hkind.store
  generalize pr.pc = pc at hat hlookup hstore ⊢
  cases pc with
  | persistSize =>
    obtain ⟨key, val, t, hcall⟩ := hstore rfl
    exact .persistSize hcall
  | smaMalloc c =>
    obtain ⟨-, key, val, t, -, -, -, hcall, -⟩ := hat
    exact .step .smaMalloc (.smaLock hcall)
  | smaLock c first i is =>
    obtain ⟨-, ⟨key, val, t, -, -, -, hcall, -⟩, -⟩ := hat
    exact .smaLock hcall
  | smaAllocate c first i is =>
    obtain ⟨-, ⟨key, val, t, -, -, -, hcall, -⟩, -⟩ := hat
    exact .smaAllocate hcall fun _ => .loop hcall is
  | smaLast c i p =>
    obtain ⟨-, ⟨key, val, t, -, -, -, hcall, -⟩, -⟩ := hat
    exact .step .smaLast (.unlock hcall)
  | smaUnlock c p is =>
    cases p with
    | none =>
      obtain ⟨-, ⟨key, val, t, -, -, -, hcall, -⟩, -⟩ := hat
      exact .loop hcall is
    | some p =>
      obtain ⟨-, ⟨key, val, t, -, -, -, hcall, -⟩, -⟩ := hat
      exact .unlock hcall
  | persistFill c p copy => exact .persistFill
  | wlock p => exact .inr ⟨w, p, .refl⟩
  | wlockFine p h => exact .inl (.step .wlockFine (returns_insert hw (hat.owned rfl) .start))
  | insert p h place => exact .inl (returns_insert hw (hat.owned rfl) hat.2.2)
  | insertCompare p h q =>
    have ho : Owned live es p 0 := hat.owned rfl
    obtain ⟨i, hi⟩ := hw.segmentOf ho
    obtain ⟨-, -, harr⟩ := hat
    obtain ⟨kq, hq⟩ := harr.mem
    obtain ⟨qs, hqs⟩ := hw.chain_next hq
    cases he : ImmutableCache.keyEquals pr.req.sp w.shm (entryAt w.shm q) (entryAt w.shm p).key
        (w.newHash pr.req.sp p) with
    | true => exact .inl (.step (.insertFound he) (.step .wunlockFine (.wunlock hi)))
    | false => exact .inl (.step (.insertSkip he) (.insert hi hqs))
  | insertNext p h place => exact .inl .insertNext
  | insertLink p h place => exact .inl (.step (.insertLink rfl) .insertMemSize)
  | insertMemSize p h => exact .inl .insertMemSize
  | insertNentries p h =>
    exact .inl (.step .insertNentries (.step .insertNinserts (.step .wunlockFine (.step .stored .ret))))
  | insertNinserts p h => exact .inl (.step .insertNinserts (.step .wunlockFine (.step .stored .ret)))
  | wunlockFine p h ret =>
    refine .inl (.step .wunlockFine (returns_wunlock hw fun hret => ?_))
    subst hret
    exact hat.owned rfl
  | wunlock p ret =>
    refine .inl (returns_wunlock hw fun hret => ?_)
    subst hret
    exact hat.owned rfl
  | freeLock p =>
    obtain ⟨i, hi⟩ := hw.segmentOf (hat.owned rfl)
    exact .inl (.step .freeLock (.freeDeallocate hi))
  | freeDeallocate p =>
    obtain ⟨i, hi⟩ := hw.segmentOf (hat.owned rfl)
    exact .inl (.freeDeallocate hi)
  | freeUnlock p => exact .inl (.step .freeUnlock .ret)
  | rlock | findSlot _ | find _ _ | findNext _ _ | count _ _ _ _ | runlock _ _ | answer _ =>
    obtain ⟨key, hkey⟩ := hlookup rfl
    exact .inl (returns_lookup hw hkey rfl hat)
  | ret entry o => exact .inl .ret

end

end Process

/-! ## All calls return -/

namespace Processes

variable [DecidableEq ι] {s s' : Processes ι υ} {is : List ι} {seq : List (Taken υ)}

/-- What runs after the process `i` has ended is what ran before, but for `i`. -/
theorem update_none_eq_some {f : ι → Option (Process υ)} {i j : ι} {q : Process υ} :
    Function.update f i none j = some q ↔ j ≠ i ∧ f j = some q := by
  rw [Function.update_apply]
  split <;> simp [*]

/-- Each process does what is of its kind. -/
theorem run_kind (hrun : Run (Step recursive pool z php) s is s')
    (hs : ∀ i p, s.running i = some p → p.Kind) : ∀ i p, s'.running i = some p → p.Kind := by
  induction hrun with
  | nil => exact hs
  | cons h1 _ ih =>
    refine ih ?_
    cases h1 with
    | @call r _ pc _ _ hstart _ _ =>
      refine forall_update (fun j q _ => hs j q) fun p hp => ?_
      cases hp
      unfold Request.start at hstart
      cases hcall : r.call with
      | store key val t =>
        rw [hcall] at hstart
        cases hstart
        refine ⟨fun h => ?_, fun _ => ⟨key, val, t, hcall⟩⟩
        cases h
      | fetch key _ | find key _ | exist key =>
        rw [hcall] at hstart
        cases hstart
        refine ⟨fun _ => ⟨key, by rw [Request.lookupKey, hcall]⟩, fun h => ?_⟩
        cases h
      | stat _ | info _ | smaInfo _ | iteratorFetch _ | iteratorTotals _ =>
        rw [hcall] at hstart
        cases hstart
    | move hp hmove _ =>
      refine forall_update (fun j q _ => hs j q) fun q hq => ?_
      cases hq
      have hkind := hs _ _ hp
      exact ⟨fun h => hkind.lookup (hmove.ofLookup h), fun h => absurd h hmove.ne_persistSize⟩
    | ret _ _ | bail _ _ =>
      refine forall_update (fun j q _ => hs j q) fun q hq => ?_
      cases hq

/-- Only finitely many processes are in the middle of a call. -/
theorem run_finite (hrun : Run (Step recursive pool z php) s is s') {i : ι}
    (hi : s'.running i ≠ none) : s.running i ≠ none ∨ i ∈ is := by
  induction hrun with
  | nil => exact .inl hi
  | @cons s s₁ s' j is h1 _ ih =>
    by_cases hij : i = j
    · exact .inr (hij ▸ List.mem_cons_self)
    · refine (ih hi).imp (fun h => ?_) (List.mem_cons_of_mem _)
      cases h1 with
      | call _ _ _ _ | move _ _ _ | ret _ _ | bail _ _ =>
        dsimp only at h
        rwa [Function.update_of_ne hij] at h

namespace Inv

variable {i : ι} {pr : Process υ}

/-- A lookup that has its lock returns, whatever locks the other processes hold. -/
theorem return_reader (hinv : s.Inv recursive pool z php es live seq) (hrun : s.running i = some pr)
    (hkind : pr.Kind) (hentered : pr.pc.Entered h) (hof : pr.pc.ofLookup = true)
    (hholds : lookupLock recursive h ∈ pr.pc.holds recursive) :
    ∃ js w' x, Run (Step recursive pool z php) s js { s with
      world := w'
      running := Function.update s.running i none
      history := s.history ++ [.ret pr.id x] } := by
  have hsound := (hinv.sound i pr hrun).1
  have hz := hsound.on.zend
  subst hz
  obtain ⟨key, hkey⟩ := hkind.lookup hof
  have hreturns : pr.req.Returns recursive pool php s.world pr.pc :=
    Process.returns_lookup hinv.shaped hkey hof hsound.at_pc
  obtain ⟨w', entry, o, halone⟩ := hreturns
  have hfree {pc : Pc υ} (hpc : pc.Entered h) : s.Free recursive i pc := by
    intro l m hl j hj q hq m' hm'
    cases hpc.holds hl
    exact (hinv.apart i j pr q hj.symm hrun hq).lock _ _ _ hholds hm'
  obtain ⟨js, hjs⟩ := run_return_along (z := pr.req.sp.zend) hrun halone rfl hentered
    (fun h1 hpc => h1.entered hpc) hfree
  exact ⟨js, w', _, hjs⟩

/-- A call returns while no other process holds a lock. -/
theorem return_alone (hinv : s.Inv recursive pool z php es live seq) (hrun : s.running i = some pr)
    (hkind : pr.Kind) (hothers : ∀ j q, j ≠ i → s.running j = some q → q.pc.holds recursive = []) :
    ∃ js w' x, Run (Step recursive pool z php) s js { s with
      world := w'
      running := Function.update s.running i none
      history := s.history ++ [.ret pr.id x] } := by
  have hsound := (hinv.sound i pr hrun).1
  have hz := hsound.on.zend
  subst hz
  have hpersists : pr.req.Persists recursive pool php s.world pr.pc :=
    Process.persists hinv.shaped hkind hsound.at_pc
  obtain ⟨w', entry, o, halone⟩ | ⟨w₁, p, halone⟩ := hpersists
  · obtain ⟨js, hjs⟩ := run_return (z := pr.req.sp.zend) hrun halone rfl hothers
    exact ⟨js, w', _, hjs⟩
  -- the copy may need memory, so that what the store knows has changed
  let store : Process υ := { pr with pc := .wlock p }
  let s₁ : Processes ι υ := { s with
    world := w₁, running := Function.update s.running i (some store) }
  have hjs : ∃ js, Run (Step recursive pool pr.req.sp.zend php) s js s₁ :=
    run_along (P := fun _ => True) halone rfl hrun trivial (fun _ hpc => hpc)
      fun {pc} _ => free_of_idle hothers pc
  obtain ⟨js, hjs⟩ := hjs
  obtain ⟨es₁, live₁, seq₁, hinv₁⟩ := hinv.run hjs
  have hrun₁ : s₁.running i = some store := Function.update_self _ _ _
  have hreturns : pr.req.Returns recursive pool php w₁ (.wlock p) :=
    Process.returns_wlock hinv₁.shaped (hinv₁.sound i store hrun₁).1.at_pc
  obtain ⟨w', entry, o, halone'⟩ := hreturns
  obtain ⟨js', hjs'⟩ := run_return (z := pr.req.sp.zend) hrun₁ halone' rfl
    fun j q hj hq => hothers j q hj ((Function.update_of_ne hj _ _).symm.trans hq)
  have hgo := hjs.append hjs'
  have hleave : Function.update s₁.running i none = Function.update s.running i none :=
    Function.update_idem _ _ _
  rw [hleave] at hgo
  exact ⟨js ++ js', w', _, hgo⟩

/-- One of the calls in progress can return, while the others stay where they are. -/
theorem return_one (hinv : s.Inv recursive pool z php es live seq)
    (hkind : ∀ i p, s.running i = some p → p.Kind) (hrun : s.running i = some pr) :
    ∃ j q js w' x, s.running j = some q ∧ Run (Step recursive pool z php) s js { s with
      world := w'
      running := Function.update s.running j none
      history := s.history ++ [.ret q.id x] } := by
  by_cases hread : ∃ j q, s.running j = some q ∧ q.pc.holds recursive ≠ [] ∧ ¬ q.pc.Locks
  · obtain ⟨j, q, hq, hholds, hlocks⟩ := hread
    obtain ⟨h, hentered, hlock, hof⟩ := Pc.entered_of_holds hholds hlocks
    obtain ⟨js, w', x, hgo⟩ := hinv.return_reader hq (hkind j q hq) hentered hof hlock
    exact ⟨j, q, js, w', x, hq, hgo⟩
  -- what holds a lock holds the global one
  have hglobal {j : ι} {q : Process υ} (hq : s.running j = some q) (hno : ¬ q.pc.Locks) :
      q.pc.holds recursive = [] := by
    by_contra hholds
    exact hread ⟨j, q, hq, hholds, hno⟩
  by_cases hlocks : ∃ j q, s.running j = some q ∧ q.pc.Locks
  · obtain ⟨j, q, hq, hlock⟩ := hlocks
    obtain ⟨js, w', x, hgo⟩ := hinv.return_alone hq (hkind j q hq) fun l q' hl hq' => by
      refine hglobal hq' fun hlock' => ?_
      have hapart := (hinv.apart j l q q' hl.symm hq hq').lock .global .exclusive .exclusive
        (Pc.locks_iff.2 ⟨rfl, hlock⟩) (Pc.locks_iff.2 ⟨rfl, hlock'⟩)
      cases hapart.1
    exact ⟨j, q, js, w', x, hq, hgo⟩
  · obtain ⟨js, w', x, hgo⟩ := hinv.return_alone hrun (hkind i pr hrun) fun l q' _ hq' =>
      hglobal hq' fun hlock => hlocks ⟨l, q', hq', hlock⟩
    exact ⟨i, pr, js, w', x, hrun, hgo⟩

/-- All calls in progress can return, one after the other. -/
theorem return_all (hinv : s.Inv recursive pool z php es live seq)
    (hkind : ∀ i p, s.running i = some p → p.Kind) {l : List ι}
    (hl : ∀ i, s.running i ≠ none → i ∈ l) :
    ∃ js w', ∃ xs : List (Nat × Option Nat × Outcome υ), Run (Step recursive pool z php) s js
        ⟨w', fun _ => none, s.history ++ xs.map fun x => .ret x.1 x.2⟩ ∧
      (xs.map Prod.fst).Nodup ∧
      ∀ id, id ∈ xs.map Prod.fst ↔ ∃ i p, s.running i = some p ∧ p.id = id := by
  induction hn : l.length using Nat.strong_induction_on generalizing s es live seq l with
  | _ n ih =>
    by_cases hrun : ∃ i p, s.running i = some p
    · obtain ⟨i₀, p₀, hrun⟩ := hrun
      obtain ⟨i, p, js, w₁, x, hp, hgo⟩ := hinv.return_one hkind hrun
      obtain ⟨es₁, live₁, seq₁, hinv₁⟩ := hinv.run hgo
      have hmem : i ∈ l := hl i (by rw [hp]; simp)
      have hlt : (l.filter (· ≠ i)).length < n := by
        rw [← hn]
        exact List.length_filter_lt_length_iff_exists.2 ⟨i, hmem, by simp⟩
      obtain ⟨js', w', xs, hgo', hnodup, hids⟩ := ih _ hlt hinv₁ (run_kind hgo hkind)
        (l := l.filter (· ≠ i)) (fun j hj => by
          by_cases hji : j = i
          · subst hji
            exact absurd (Function.update_self _ _ _) hj
          · rw [List.mem_filter]
            refine ⟨hl j ?_, by simp [hji]⟩
            dsimp only at hj
            rwa [Function.update_of_ne hji] at hj) rfl
      refine ⟨js ++ js', w', (p.id, x) :: xs, ?_, ?_, ?_⟩
      · rw [List.map_cons, List.append_cons]
        exact hgo.append hgo'
      · refine List.nodup_cons.2 ⟨fun hid => ?_, hnodup⟩
        obtain ⟨j, q, hq, hid⟩ := (hids p.id).1 hid
        obtain ⟨hj, hq⟩ := update_none_eq_some.1 hq
        exact (hinv.apart i j p q hj.symm hp hq).id hid.symm
      · intro id
        rw [List.map_cons, List.mem_cons, hids id]
        constructor
        · rintro (rfl | ⟨j, q, hq, hid⟩)
          · exact ⟨i, p, hp, rfl⟩
          · exact ⟨j, q, (update_none_eq_some.1 hq).2, hid⟩
        · rintro ⟨j, q, hq, rfl⟩
          by_cases hj : j = i
          · subst hj
            obtain rfl : p = q := Option.some.inj (hp.symm.trans hq)
            exact .inl rfl
          · exact .inr ⟨j, q, update_none_eq_some.2 ⟨hj, hq⟩, rfl⟩
    · have hidle : s.running = fun _ => none := by
        funext i
        by_contra hi
        obtain ⟨p, hp⟩ := Option.ne_none_iff_exists'.1 hi
        exact hrun ⟨i, p, hp⟩
      refine ⟨[], s.world, [], ?_, List.nodup_nil, fun id => ?_⟩
      · rw [List.map_nil, List.append_nil, ← hidle]
        exact .nil
      · constructor
        · intro hmem
          cases hmem
        · rintro ⟨i, p, hp, -⟩
          exact absurd ⟨i, p, hp⟩ hrun

end Inv

/-- From every point of an interleaving of stores and lookups the calls in progress can return, each
once, without any other call and without one that bails out. -/
theorem run_completes (hc : Created pool w₀)
    (h : Run (Step recursive pool z php) (start w₀ : Processes ι υ) is s) :
    ∃ js w', ∃ xs : List (Nat × Option Nat × Outcome υ), Run (Step recursive pool z php) s js
        ⟨w', fun _ => none, s.history ++ xs.map fun x => .ret x.1 x.2⟩ ∧
      (xs.map Prod.fst).Nodup ∧
      ∀ id, id ∈ xs.map Prod.fst ↔ ∃ i p, s.running i = some p ∧ p.id = id := by
  obtain ⟨-, hdr, sz, hinv⟩ := hc.inv z
  obtain ⟨es, live, seq, hs⟩ := (Inv.start hinv.shaped).run h
  refine hs.return_all (run_kind h fun i p hp => ?_) (l := is) fun i hi => ?_
  · cases hp
  · exact (run_finite h hi).resolve_left fun hno => hno rfl

/-- A process asks for a key while another one stores it. -/
theorem run_completes_called : ∃ is, ∃ s : Processes Bool Bytes,
    Run (Step true Small.pool Small.zend Small.php) (start (Small.start (Small.env none))) is s ∧
    s.running false = some ⟨0, Small.existA, [97], .rlock⟩ ∧
    s.running true = some ⟨1, Small.storeA, [97], .persistSize⟩ ∧
    ∃ js w', ∃ xs : List (Nat × Option Nat × Outcome Bytes),
      Run (Step true Small.pool Small.zend Small.php) s js
        ⟨w', fun _ => none, s.history ++ xs.map fun x => .ret x.1 x.2⟩ ∧
      (xs.map Prod.fst).Nodup ∧
      ∀ id, id ∈ xs.map Prod.fst ↔ ∃ i p, s.running i = some p ∧ p.id = id := by
  let s₁ : Processes Bool Bytes := ⟨Small.start (Small.env none),
    Function.update (fun _ => none) false (some ⟨0, Small.existA, [97], .rlock⟩),
    [.call 0 (Small.existA, [97])]⟩
  let s₂ : Processes Bool Bytes := ⟨Small.start (Small.env none),
    Function.update s₁.running true (some ⟨1, Small.storeA, [97], .persistSize⟩),
    [.call 0 (Small.existA, [97]), .call 1 (Small.storeA, [97])]⟩
  have hask : Step true Small.pool Small.zend Small.php (start (Small.start (Small.env none))) false
      s₁ := .call rfl rfl (Small.existA_legal { Small.start (Small.env none) with header := default })
    (Small.existA_key _)
  have hstore : Step true Small.pool Small.zend Small.php s₁ true s₂ :=
    .call rfl rfl (Small.storeA_legal { Small.start (Small.env none) with header := default })
      (Small.existA_key _)
  have hrun := Run.cons hask (.cons hstore .nil)
  exact ⟨_, s₂, hrun, rfl, rfl, run_completes Small.created hrun⟩

end Processes

end ImmutableCache
