import ImmutableCache.Cache.Interleaving
import ImmutableCache.Cache.Publish

/-!
# Interference

What a process knows at each point of a call (`Process.At`), and that it stays true whatever the other
processes do (`Process.Sound.others`). They add entries to the table, at the ends of chains, and change
three fields of the published entries; they leave alone the blocks that belong to the process, and as
long as it holds the global lock they do not touch the chains (`Others`).

A lookup that has come to an entry knows that none of those before it in the chain has its key. This
stays true without any lock, since entries are only added behind it.
-/

namespace ImmutableCache

open Procs

variable {υ : Type} {z : Zend} {pool : Pool} {php : Serializer υ} {es es' : List (Nat × Bytes)}
  {w w' : World υ} {live live' : Nat → Option Nat} {own : Nat → Prop} {locked : Prop} {n p q sz : Nat}
  {k : Bytes} {c : Ctxt} {r : Request υ} {rd rd' : Mem}

/-- What other processes may do to the cache, for a process to which the blocks in `own` belong, and
which holds the global lock if `locked`. -/
structure Others (own : Nat → Prop) (locked : Prop) (w : World υ) (es : List (Nat × Bytes))
    (live : Nat → Option Nat) (w' : World υ) (es' : List (Nat × Bytes)) (live' : Nat → Option Nat) :
    Prop where
  entries : es <+: es'
  evolves : Evolves (Pub w.shm es) w.shm w'.shm
  nslots : w'.slots.length = w.slots.length
  serializer : w'.serializer = w.serializer
  block : ∀ p sz, own p → live p = some sz → p ∉ es.map Prod.fst →
    live' p = some sz ∧ p ∉ es'.map Prod.fst ∧ ∀ q, p ≤ q → q < p + sz → w'.shm q = w.shm q
  still : locked → es' = es ∧ w'.slots = w.slots ∧ ∀ x ∈ es, nextAt w'.shm x.1 = nextAt w.shm x.1

/-! ## Blocks -/

/-- A payload of at least `n` bytes at `p` that is not the block of an entry. -/
def Owned (live : Nat → Option Nat) (es : List (Nat × Bytes)) (p n : Nat) : Prop :=
  ∃ sz, live p = some sz ∧ n ≤ sz ∧ p ∉ es.map Prod.fst

namespace World.Shaped

variable (h : w.Shaped pool z es live)

include h

/-- An entry is published. -/
theorem pub_entry {x : Nat × Bytes} (hx : x ∈ es) : Pub w.shm es x.1 := .entry hx (h.nonempty x hx)

/-- Published addresses lie in the payloads of entries. -/
theorem pub_block (hq : Pub w.shm es q) :
    ∃ x ∈ es, ∃ sz, live x.1 = some sz ∧ x.1 ≤ q ∧ q < x.1 + sz := by
  obtain ⟨x, hx, h1, h2⟩ := hq
  obtain ⟨sz, hsz, hle⟩ := h.block x hx
  exact ⟨x, hx, sz, hsz, h1, by omega⟩

/-- What is published lies in the shared segments. -/
theorem pub_shared (hq : Pub w.shm es q) : pool.containsPointer q = true := by
  obtain ⟨x, -, sz, hsz, h1, h2⟩ := h.pub_block hq
  exact h.sma.containsPointer hsz h1 h2

/-- An address that is not allocated is not that of an entry. -/
theorem not_entry (hp : live p = none) : p ∉ es.map Prod.fst := by
  intro hmem
  obtain ⟨x, hx, rfl⟩ := List.mem_map.1 hmem
  obtain ⟨sz, hsz, -⟩ := h.block x hx
  rw [hp] at hsz
  cases hsz

/-- Nothing in a payload that is not the block of an entry is published. -/
theorem not_pub (hp : live p = some sz) (hfresh : p ∉ es.map Prod.fst) (h1 : p ≤ q)
    (h2 : q < p + sz) : ¬ Pub w.shm es q := by
  intro hq
  obtain ⟨x, hx, b, hb, h3, h4⟩ := h.pub_block hq
  have hne : x.1 ≠ p := by
    rintro rfl
    exact hfresh (List.mem_map_of_mem hx)
  have := h.sma.apart hb hp hne
  omega

end World.Shaped

namespace Others

variable (h : Others own locked w es live w' es' live')

include h

/-- The less a process relies on, the more it allows. -/
theorem anti {own' : Nat → Prop} {locked' : Prop} (hown : ∀ p, own' p → own p)
    (hlocked : locked' → locked) : Others own' locked' w es live w' es' live' where
  entries := h.entries
  evolves := h.evolves
  nslots := h.nslots
  serializer := h.serializer
  block p sz hp := h.block p sz (hown p hp)
  still hl := h.still (hlocked hl)

/-- What is published stays published. -/
theorem pub (hw : w.Shaped pool z es live) (hq : Pub w.shm es q) : Pub w'.shm es' q := by
  refine .mono h.entries ((Pub.congr fun x hx => ?_).2 hq)
  rw [(h.evolves.entryAt (hw.pub_entry hx)).eq]

/-- A process reads what it has read. -/
theorem view (hw : w.Shaped pool z es live) (sp : Space) :
    Extends (ImmutableCache.view sp w.shm es) (ImmutableCache.view sp w'.shm es') :=
  view_mono (fun _ hq => h.pub hw hq) h.evolves.retains

/-- A block that belongs to the process stays its own, and keeps its content. -/
theorem owned (ho : Owned live es p n) (hp : own p) :
    Owned live' es' p n ∧ ∀ q, p ≤ q → q < p + n → w'.shm q = w.shm q := by
  obtain ⟨sz, hsz, hn, hfresh⟩ := ho
  obtain ⟨hsz', hfresh', hblock⟩ := h.block p sz hp hsz hfresh
  exact ⟨⟨sz, hsz', hn, hfresh'⟩, fun q h1 h2 => hblock q h1 (by omega)⟩

/-- A draft stays a draft. -/
theorem drafted {sp : Space} {depth : Nat} {orig : Entry} (hw : w.Shaped pool z es live)
    (ho : Owned live es p n) (hp : own p)
    (hd : Drafted sp (w.serializer.getD php) depth n orig k es p w.shm) :
    Drafted sp (w'.serializer.getD php) depth n orig k es' p w'.shm := by
  rw [h.serializer]
  exact hd.mono (fun _ hq => h.pub hw hq) h.evolves.retains (h.owned ho hp).2

end Others

/-! ## Values -/

/-- The memory `rd` has what the call reads: the key has the bytes `k`. -/
def Request.Reads (r : Request υ) (rd : Mem) (k : Bytes) : Prop :=
  match r.call with
  | .store key val t => WellEntry r.sp rd r.depth (initEntry key val t) k
  | .fetch key _ | .find key _ | .exist key => readStr r.sp.zend rd key = some k
  | _ => False

/-- What a call reads stays there when the shared memory grows. -/
theorem Request.Reads.mono (h : r.Reads rd k) (hext : Extends rd rd')
    (hreq : ∀ p, r.sp.shared p = false → rd' p = r.sp.req p) : r.Reads rd' k := by
  unfold Request.Reads at h ⊢
  cases hcall : r.call with
  | store key val t =>
    rw [hcall] at h
    exact h.mono hext hreq
  | fetch key t | find key t | exist key =>
    rw [hcall] at h
    exact hext.readStr h
  | stat _ | info _ | smaInfo _ | iteratorFetch _ | iteratorTotals _ =>
    rw [hcall] at h
    exact h

/-- The process sees its own memory. -/
theorem view_req {sp : Space} {shm : Mem} (hp : sp.shared p = false) :
    view sp shm es p = sp.req p := by
  simp [view, hp]

/-- The store has sized its value at `c`, in some earlier memory. -/
def Request.Sized (r : Request υ) (php : Serializer υ) (k : Bytes) (w : World υ)
    (es : List (Nat × Bytes)) (c : Ctxt) : Prop :=
  ∃ key val t shm i rd, r.call = .store key val t ∧
    persistSize r.sp php w.serializer r.depth shm i (initEntry key val t) = (true, c) ∧
    WellEntry r.sp rd r.depth (initEntry key val t) k ∧ Extends rd (r.sp.deref shm) ∧
    Extends rd (view r.sp w.shm es)

/-- What has been sized stays so, whatever the others do. -/
theorem Request.Sized.others (h : r.Sized php k w es c) (hw : w.Shaped pool z es live)
    (ho : Others own locked w es live w' es' live') : r.Sized php k w' es' c := by
  obtain ⟨key, val, t, shm, i, rd, hcall, hsize, hwell, hext, hview⟩ := h
  rw [← ho.serializer] at hsize
  exact ⟨key, val, t, shm, i, rd, hcall, hsize, hwell, hext, hview.trans (ho.view hw _)⟩

/-- What a store has sized leaves room for the header of its block. -/
theorem Request.Sized.room (h : r.Sized php k w es c) : c.size + blockSize + 8 ≤ 2 ^ 64 := by
  obtain ⟨key, val, t, shm, i, rd, -, hsize, hwell, hext, -⟩ := h
  have h := (persistSize_stored hwell hext hsize).2
  have hL := layout
  omega

/-- The store has a draft of its value at `p`. -/
def Request.HasDraft (r : Request υ) (php : Serializer υ) (k : Bytes) (w : World υ)
    (es : List (Nat × Bytes)) (live : Nat → Option Nat) (p : Nat) : Prop :=
  ∃ key val t n, r.call = .store key val t ∧ Owned live es p n ∧
    Drafted r.sp (w.serializer.getD php) r.depth n (initEntry key val t) k es p w.shm

/-- A draft stays one, whatever the others do. -/
theorem Request.HasDraft.others (h : r.HasDraft php k w es live p) (hw : w.Shaped pool z es live)
    (ho : Others own locked w es live w' es' live') (hp : own p) :
    r.HasDraft php k w' es' live' p := by
  obtain ⟨key, val, t, n, hcall, howned, hd⟩ := h
  exact ⟨key, val, t, n, hcall, (ho.owned howned hp).1, ho.drafted hw howned hp hd⟩

/-- The block at `p`, of which `copy` is to become the content, belongs to the store; when it has that
content, it is a draft. -/
def Request.Copies (r : Request υ) (php : Serializer υ) (k : Bytes) (w : World υ)
    (es : List (Nat × Bytes)) (live : Nat → Option Nat) (c : Ctxt) (p : Nat) (copy : Mem) : Prop :=
  Owned live es p c.size ∧ ∃ key val t es₀, r.call = .store key val t ∧
    Drafted r.sp (w.serializer.getD php) r.depth c.size (initEntry key val t) k es₀ p copy ∧
    (∀ q, Pub copy es₀ q → Pub w.shm es q) ∧ Retains (Pub copy es₀) copy w.shm

/-- A copy in the making stays one, whatever the others do. -/
theorem Request.Copies.others {copy : Mem} (h : r.Copies php k w es live c p copy)
    (hw : w.Shaped pool z es live) (ho : Others own locked w es live w' es' live') (hp : own p) :
    r.Copies php k w' es' live' c p copy := by
  obtain ⟨howned, key, val, t, es₀, hcall, hd, hpub, hretains⟩ := h
  rw [← ho.serializer] at hd
  refine ⟨(ho.owned howned hp).1, key, val, t, es₀, hcall, hd, fun q hq => ho.pub hw (hpub q hq), ?_⟩
  exact hretains.trans (ho.evolves.anti hpub).retains

/-- The copy is complete. -/
theorem Request.Copies.hasDraft {copy : Mem} (h : r.Copies php k w es live c p copy)
    (hfilled : ∀ q, p ≤ q → q < p + c.size → w.shm q = copy q) : r.HasDraft php k w es live p := by
  obtain ⟨howned, key, val, t, es₀, hcall, hd, hpub, hretains⟩ := h
  exact ⟨key, val, t, c.size, hcall, howned, hd.mono hpub hretains hfilled⟩

/-! ## Chains -/

/-- The entries in the chain of the key `k`, in a table with `n` slots. -/
def chainFor (z : Zend) (n : Nat) (es : List (Nat × Bytes)) (k : Bytes) : List (Nat × Bytes) :=
  es.filter fun x => z.hash x.2 % n = z.hash k % n

/-- A walk along the chain of `k` has come to `place`: to the slot, or to the `next` of an entry. No
entry before it has the key. -/
def Walked (z : Zend) (n : Nat) (es : List (Nat × Bytes)) (k : Bytes) (place : Option Nat) : Prop :=
  ∃ pre post, chainFor z n es k = pre ++ post ∧ (∀ x ∈ pre, x.2 ≠ k) ∧
    place = (pre.map Prod.fst).getLast?

/-- A walk along the chain of `k` has come to the entry `q`. No entry before it has the key. -/
def Arrived (z : Zend) (n : Nat) (es : List (Nat × Bytes)) (k : Bytes) (q : Nat) : Prop :=
  ∃ pre post kq, chainFor z n es k = pre ++ (q, kq) :: post ∧ ∀ x ∈ pre, x.2 ≠ k

/-- A walk along the chain of `k` has come to the end: the `NULL` is at `place`. -/
def AtEnd (z : Zend) (n : Nat) (es : List (Nat × Bytes)) (k : Bytes) (place : Option Nat) : Prop :=
  (∀ x ∈ chainFor z n es k, x.2 ≠ k) ∧ place = ((chainFor z n es k).map Prod.fst).getLast?

/-- Entries are added at the ends of chains. -/
theorem chainFor_prefix (h : es <+: es') : chainFor z n es k <+: chainFor z n es' k := h.filter _

/-- A walk begins at the slot. -/
theorem Walked.start : Walked z n es k none := ⟨[], _, rfl, by simp, rfl⟩

/-- A walk is not disturbed by entries that are added. -/
theorem Walked.mono {place : Option Nat} (h : Walked z n es k place) (hes : es <+: es') :
    Walked z n es' k place := by
  obtain ⟨pre, post, hc, hpre, hplace⟩ := h
  obtain ⟨new, hnew⟩ := chainFor_prefix (z := z) (n := n) (k := k) hes
  exact ⟨pre, post ++ new, by rw [← hnew, hc, List.append_assoc], hpre, hplace⟩

/-- Nor is an arrival at an entry. -/
theorem Arrived.mono (h : Arrived z n es k q) (hes : es <+: es') : Arrived z n es' k q := by
  obtain ⟨pre, post, kq, hc, hpre⟩ := h
  obtain ⟨new, hnew⟩ := chainFor_prefix (z := z) (n := n) (k := k) hes
  refine ⟨pre, post ++ new, kq, ?_, hpre⟩
  rw [← hnew, hc, List.append_assoc, List.cons_append]

/-- The entry that the walk has come to has another key. -/
theorem Arrived.skip {kq : Bytes} (h : Arrived z n es k q) (hn : (es.map Prod.fst).Nodup)
    (hq : (q, kq) ∈ es) (hne : kq ≠ k) : Walked z n es k (some q) := by
  obtain ⟨pre, post, kq', hc, hpre⟩ := h
  have hmem : (q, kq') ∈ es := List.mem_of_mem_filter (hc ▸ by simp : (q, kq') ∈ chainFor z n es k)
  obtain rfl : kq' = kq := congrArg Prod.snd (List.inj_on_of_nodup_map hn hmem hq rfl)
  refine ⟨pre ++ [(q, kq')], post, by simp [hc], ?_, by simp⟩
  intro x hx
  rcases List.mem_append.1 hx with hx | hx
  · exact hpre x hx
  · obtain rfl := List.mem_singleton.1 hx
    exact hne

/-- A walk arrives at entries of the table. -/
theorem Arrived.mem (h : Arrived z n es k q) : ∃ kq, (q, kq) ∈ es := by
  obtain ⟨pre, post, kq, hc, -⟩ := h
  exact ⟨kq, List.mem_of_mem_filter (hc ▸ by simp : (q, kq) ∈ chainFor z n es k)⟩

/-- The key is free at the end of its chain. -/
theorem AtEnd.free {place : Option Nat} (h : AtEnd z n es k place) : bound es k = none := by
  refine bound_eq_none.2 fun x hx hk => h.1 x ?_ hk
  rw [chainFor, List.mem_filter, hk]
  exact ⟨hx, by simp⟩

/-- The chain of a key is that of its slot. -/
theorem chainFor_fst : (chainFor z n es k).map Prod.fst = chainOf z n es (z.hash k % n) := rfl

/-- There is the `NULL` at the end of a chain. -/
theorem AtEnd.load {place : Option Nat} (h : AtEnd z w.slots.length es k place)
    (ht : Table z (Pub w.shm es) w.shm w.slots es) : w.load (z.hash k) place = none := by
  have hchain := ht.chain _ (Nat.mod_lt (z.hash k) ht.nslots)
  rw [← List.append_nil (chainOf z w.slots.length es (z.hash k % w.slots.length))] at hchain
  have hlink := hchain.link
  rw [h.2, chainFor_fst]
  cases hlast : (chainOf z w.slots.length es (z.hash k % w.slots.length)).getLast? with
  | none =>
    rw [hlast] at hlink
    exact hlink
  | some q =>
    rw [hlast] at hlink
    exact hlink

/-- The end of a chain is at its last entry, or in the slot. -/
theorem AtEnd.place {place : Option Nat} (h : AtEnd z n es k place) :
    place = (chainOf z n es (z.hash k % n)).getLast? := h.2

/-- What the walk loads next: the next entry of the chain, or the `NULL` at its end. -/
theorem Walked.load {place : Option Nat} (h : Walked z w.slots.length es k place)
    (ht : Table z (Pub w.shm es) w.shm w.slots es) :
    (∀ q, w.load (z.hash k) place = some q → Arrived z w.slots.length es k q) ∧
      (w.load (z.hash k) place = none → AtEnd z w.slots.length es k place) := by
  obtain ⟨pre, post, hc, hpre, rfl⟩ := h
  have hchain := ht.chain _ (Nat.mod_lt (z.hash k) ht.nslots)
  rw [← chainFor_fst, hc, List.map_append] at hchain
  have hlink := hchain.link
  have hload : w.load (z.hash k) (pre.map Prod.fst).getLast? = (post.map Prod.fst).head? := by
    rw [← hlink]
    cases (pre.map Prod.fst).getLast? <;> rfl
  rw [hload]
  cases post with
  | nil =>
    constructor
    · intro q hq
      cases hq
    · intro _
      rw [List.append_nil] at hc
      exact ⟨fun x hx => hpre x (hc ▸ hx), by rw [hc]⟩
  | cons x post =>
    constructor
    · intro q hq
      cases hq
      exact ⟨pre, post, x.2, hc, hpre⟩
    · intro hno
      cases hno

/-! ## What a process knows -/

/-- A call with its result, as it stands in the order of the calls. -/
abbrev Taken (υ : Type) := Nat × (Request υ × Bytes) × (Option Nat × Outcome υ)

/-- The counters and the entry that a step of a lookup writes to are those of the entry that it has
found. -/
def Tick.Of (entry : Option Nat) : Tick → Prop
  | .inc c | .load c | .store c => ∀ p, c = .entry p → entry = some p
  | .touch p _ => entry = some p
  | .returned _ => True

/-- The block that belongs to a process. -/
def Pc.owns : Pc υ → Option Nat
  | .smaLast _ _ p | .smaUnlock _ (some p) _ | .persistFill _ p _ | .wlock p | .wlockFine p _
  | .insert p _ _ | .insertCompare p _ _ | .insertNext p _ _ | .insertLink p _ _
  | .wunlockFine p _ false | .wunlock p false | .freeLock p | .freeDeallocate p => some p
  | _ => none

/-- The entry that a store adds when it goes on from here. -/
def Pc.added (k : Bytes) : Pc υ → List (Nat × Bytes)
  | .insertLink p _ _ => [(p, k)]
  | _ => []

/-- The process holds the global lock. -/
def Pc.Locks (pc : Pc υ) : Prop := (Lock.global, Mode.exclusive) ∈ pc.holds false

/-- The global lock is never shared. -/
theorem Pc.locks_iff {recursive : Bool} {m : Mode} {pc : Pc υ} :
    (Lock.global, m) ∈ pc.holds recursive ↔ m = .exclusive ∧ pc.Locks := by
  unfold Pc.Locks
  cases pc <;> simp [Pc.holds, fineGrainedLock]

namespace Process

variable {seq seq' : List (Taken υ)} {pr : Process υ}

/-- The call has not taken effect yet. -/
def Waits (pr : Process υ) (seq : List (Taken υ)) : Prop := pr.id ∉ seq.map Prod.fst

/-- The call has taken effect, with this result. -/
def Took (pr : Process υ) (seq : List (Taken υ)) (entry : Option Nat) (o : Outcome υ) : Prop :=
  (pr.id, (pr.req, pr.key), (entry, o)) ∈ seq

/-- The call is a lookup, and `h` is the hash of its key. -/
def Seeks (pr : Process υ) (h : Nat) : Prop :=
  (∃ key, pr.req.lookupKey = some key) ∧ h = pr.req.sp.zend.hash pr.key

/-- What a process knows at a point of its call. -/
def At (pool : Pool) (php : Serializer υ) (w : World υ) (es : List (Nat × Bytes))
    (live : Nat → Option Nat) (seq : List (Taken υ)) (pr : Process υ) : Pc υ → Prop
  | .persistSize | .rlock => pr.Waits seq
  | .smaMalloc c => pr.Waits seq ∧ pr.req.Sized php pr.key w es c
  | .smaLock c _ i is | .smaAllocate c _ i is =>
    pr.Waits seq ∧ pr.req.Sized php pr.key w es c ∧ i < pool.num ∧ ∀ j ∈ is, j < pool.num
  | .smaUnlock c none is =>
    pr.Waits seq ∧ pr.req.Sized php pr.key w es c ∧ ∀ j ∈ is, j < pool.num
  | .smaLast c i p =>
    pr.Waits seq ∧ pr.req.Sized php pr.key w es c ∧ i < pool.num ∧ Owned live es p c.size
  | .smaUnlock c (some p) _ =>
    pr.Waits seq ∧ pr.req.Sized php pr.key w es c ∧ Owned live es p c.size
  | .persistFill c p copy => pr.Waits seq ∧ pr.req.Copies php pr.key w es live c p copy
  | .wlock p | .wlockFine p _ => pr.Waits seq ∧ pr.req.HasDraft php pr.key w es live p
  | .insert p _ place =>
    pr.Waits seq ∧ pr.req.HasDraft php pr.key w es live p ∧
      Walked pr.req.sp.zend w.slots.length es pr.key place
  | .insertCompare p _ q =>
    pr.Waits seq ∧ pr.req.HasDraft php pr.key w es live p ∧
      Arrived pr.req.sp.zend w.slots.length es pr.key q
  | .insertNext p _ place | .insertLink p _ place =>
    pr.Waits seq ∧ pr.req.HasDraft php pr.key w es live p ∧
      AtEnd pr.req.sp.zend w.slots.length es pr.key place
  | .insertMemSize p _ | .insertNentries p _ | .insertNinserts p _ | .wunlockFine p _ true
  | .wunlock p true => pr.Took seq (some p) (.stored true)
  | .wunlockFine p _ false | .wunlock p false | .freeLock p | .freeDeallocate p =>
    pr.Took seq (some p) (.stored false) ∧ Owned live es p 0
  | .freeUnlock p => pr.Took seq (some p) (.stored false)
  | .findSlot h => pr.Waits seq ∧ pr.Seeks h
  | .find h (some q) =>
    pr.Waits seq ∧ pr.Seeks h ∧ Arrived pr.req.sp.zend w.slots.length es pr.key q
  | .findNext h q =>
    pr.Waits seq ∧ pr.Seeks h ∧ Walked pr.req.sp.zend w.slots.length es pr.key (some q)
  | .find _ none => ∃ o, pr.Took seq none o
  | .count _ entry _ ticks => (∃ o, pr.Took seq entry o) ∧
      (∀ p, entry = some p → (p, pr.key) ∈ es) ∧ ∀ a ∈ ticks, a.Of entry
  | .runlock _ entry | .answer entry => ∃ o, pr.Took seq entry o
  | .ret entry o => pr.Took seq entry o

/-- What a process knows throughout a call, and at the point that it has come to. -/
structure Sound (pool : Pool) (z : Zend) (php : Serializer υ) (w : World υ)
    (es : List (Nat × Bytes)) (live : Nat → Option Nat) (seq : List (Taken υ)) (pr : Process υ) :
    Prop where
  on : pr.req.sp.On pool z
  reads : pr.req.Reads (view pr.req.sp w.shm es) pr.key
  at_pc : pr.At pool php w es live seq pr.pc

/-- The steps of other processes leave this true. -/
theorem Sound.others (h : pr.Sound pool z php w es live seq) (hw : w.Shaped pool z es live)
    (ho : Others (fun p => pr.pc.owns = some p) pr.pc.Locks w es live w' es' live')
    (hsub : ∀ x ∈ seq, x ∈ seq') (hnew : ∀ x ∈ seq', x.1 = pr.id → x ∈ seq) :
    pr.Sound pool z php w' es' live' seq' := by
  have hwaits (hwait : pr.Waits seq) : pr.Waits seq' := by
    intro hmem
    obtain ⟨x, hx, hid⟩ := List.mem_map.1 hmem
    exact hwait (List.mem_map.2 ⟨x, hnew x hx hid, hid⟩)
  have htook {entry : Option Nat} {o : Outcome υ} (ht : pr.Took seq entry o) :
      pr.Took seq' entry o := hsub _ ht
  refine ⟨h.on, h.reads.mono (ho.view hw _) fun p hp => view_req hp, ?_⟩
  have hat := h.at_pc
  cases hpc : pr.pc with
  | persistSize | rlock =>
    rw [hpc] at hat
    exact hwaits hat
  | smaMalloc c =>
    rw [hpc] at hat
    exact ⟨hwaits hat.1, hat.2.others hw ho⟩
  | smaLock c first i is | smaAllocate c first i is =>
    rw [hpc] at hat
    exact ⟨hwaits hat.1, hat.2.1.others hw ho, hat.2.2⟩
  | smaLast c i p =>
    rw [hpc] at hat
    exact ⟨hwaits hat.1, hat.2.1.others hw ho, hat.2.2.1,
      (ho.owned hat.2.2.2 (by rw [hpc]; rfl)).1⟩
  | smaUnlock c p is =>
    rw [hpc] at hat
    cases p with
    | none => exact ⟨hwaits hat.1, hat.2.1.others hw ho, hat.2.2⟩
    | some p =>
      exact ⟨hwaits hat.1, hat.2.1.others hw ho, (ho.owned hat.2.2 (by rw [hpc]; rfl)).1⟩
  | persistFill c p copy =>
    rw [hpc] at hat
    exact ⟨hwaits hat.1, hat.2.others hw ho (by rw [hpc]; rfl)⟩
  | wlock p | wlockFine p _ =>
    rw [hpc] at hat
    exact ⟨hwaits hat.1, hat.2.others hw ho (by rw [hpc]; rfl)⟩
  | insert p _ place =>
    rw [hpc] at hat
    refine ⟨hwaits hat.1, hat.2.1.others hw ho (by rw [hpc]; rfl), ?_⟩
    rw [ho.nslots]
    exact hat.2.2.mono ho.entries
  | insertCompare p _ q =>
    rw [hpc] at hat
    refine ⟨hwaits hat.1, hat.2.1.others hw ho (by rw [hpc]; rfl), ?_⟩
    rw [ho.nslots]
    exact hat.2.2.mono ho.entries
  | insertNext p _ place | insertLink p _ place =>
    rw [hpc] at hat
    refine ⟨hwaits hat.1, hat.2.1.others hw ho (by rw [hpc]; rfl), ?_⟩
    -- the lock keeps the chain as it is
    rw [ho.nslots, (ho.still (by rw [hpc]; simp [Pc.Locks, Pc.holds])).1]
    exact hat.2.2
  | insertMemSize p _ | insertNentries p _ | insertNinserts p _ =>
    rw [hpc] at hat
    exact htook hat
  | wunlockFine p _ ret | wunlock p ret =>
    rw [hpc] at hat
    cases ret with
    | true => exact htook hat
    | false => exact ⟨htook hat.1, (ho.owned hat.2 (by rw [hpc]; rfl)).1⟩
  | freeLock p | freeDeallocate p =>
    rw [hpc] at hat
    exact ⟨htook hat.1, (ho.owned hat.2 (by rw [hpc]; rfl)).1⟩
  | freeUnlock p | ret entry o =>
    rw [hpc] at hat
    exact htook hat
  | findSlot h =>
    rw [hpc] at hat
    exact ⟨hwaits hat.1, hat.2⟩
  | find h entry =>
    rw [hpc] at hat
    cases entry with
    | none => exact hat.imp fun _ => htook
    | some q =>
      refine ⟨hwaits hat.1, hat.2.1, ?_⟩
      rw [ho.nslots]
      exact hat.2.2.mono ho.entries
  | findNext h q =>
    rw [hpc] at hat
    refine ⟨hwaits hat.1, hat.2.1, ?_⟩
    rw [ho.nslots]
    exact hat.2.2.mono ho.entries
  | count h entry loaded ticks =>
    rw [hpc] at hat
    exact ⟨hat.1.imp fun _ => htook, fun p hp => ho.entries.subset (hat.2.1 p hp), hat.2.2⟩
  | runlock h entry | answer entry =>
    rw [hpc] at hat
    exact hat.imp fun _ => htook

end Process

end ImmutableCache
