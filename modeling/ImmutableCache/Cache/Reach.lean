import ImmutableCache.Cache.History

/-!
# What is reachable from the cache

Pointers into the shared segments that can be followed from a published entry, or from a value that
a fetch gave, lead to the blocks of published entries (`run_closed`). These blocks are never freed,
and nothing in them changes but for `next`, `nhits` and `atime`. The values that can be reached are
shared without reference counts, and their strings have their hashes (`run_sealed`).
-/

namespace ImmutableCache

/-! ## Following pointers -/

/-- The pointers of a zval. -/
def Zval.pointers : Zval → List Nat
  | .string p _ | .array p _ | .object p | .resource p | .reference p | .indirect p | .ptr p => [p]
  | .undef | .null | .bool _ | .long _ | .double _ => []

/-- The pointers of an object that are followed when a value is read; the holes of a table are not
looked into. -/
def Obj.pointers : Obj → List Nat
  | .str _ | .other => []
  | .ht t => [t.dataAddr]
  | .packed _ vs => vs.flatMap Zval.pointers
  | .buckets _ bs => (bs.filter fun b => b.val ≠ .undef).flatMap fun b =>
      b.key.toList ++ b.val.pointers
  | .entry e => e.key :: e.val.pointers

/-- From `p` one comes to `q` along pointers of objects in the shared segments. -/
def Reaches (pool : Pool) (shm : Mem) : Nat → Nat → Prop :=
  Relation.ReflTransGen fun p q =>
    pool.containsPointer p = true ∧ ∃ o, shm p = some o ∧ q ∈ o.pointers

/-- The zvals of a value in shared memory, through any depth of arrays. -/
inductive Zval.Within (shm : Mem) (v : Zval) : Zval → Prop
  | self : v.Within shm v
  | packed {p : Nat} {rc : Bool} {t : HashTable} {hash : List Nat} {vs : List Zval} {x : Zval} :
      v.Within shm (.array p rc) → shm p = some (.ht t) →
      shm t.dataAddr = some (.packed hash vs) → x ∈ vs.take t.nNumUsed → v.Within shm x
  | bucket {p : Nat} {rc : Bool} {t : HashTable} {hash : List Nat} {bs : List Bucket} {b : Bucket} :
      v.Within shm (.array p rc) → shm p = some (.ht t) →
      shm t.dataAddr = some (.buckets hash bs) → b ∈ bs.take t.nNumUsed → b.val ≠ .undef →
      v.Within shm b.val

/-! ## Sealed values -/

/-- A string in the shared segments that is immutable and has its hash. -/
def SealedStr (z : Zend) (pool : Pool) (shm : Mem) (p : Nat) : Prop :=
  pool.containsPointer p = true ∧
    ∃ s, shm p = some (.str s) ∧ s.gcImmutable = true ∧ s.h ≠ 0 ∧ s.h = z.hash s.val

/-- A zval that is read without a write: a scalar, a sealed string, or an array in the shared
segments that is immutable and not counted, with sealed keys. -/
def Zval.Sealed (z : Zend) (pool : Pool) (shm : Mem) : Zval → Prop
  | .undef | .null | .bool _ | .long _ | .double _ => True
  | .string p rc => rc = false ∧ SealedStr z pool shm p
  | .array p rc => rc = false ∧ pool.containsPointer p = true ∧
      ∃ t, shm p = some (.ht t) ∧ t.gcImmutable = true ∧
        (t.nNumUsed = 0 ∧ t.dataAddr = z.uninitializedBucket ∨
          pool.containsPointer t.dataAddr = true ∧
            ((∃ hash vs, shm t.dataAddr = some (.packed hash vs)) ∨
              ∃ hash bs, shm t.dataAddr = some (.buckets hash bs) ∧
                ∀ b ∈ bs, b.val ≠ .undef → ∀ key, b.key = some key → SealedStr z pool shm key))
  | .object _ | .resource _ | .reference _ | .indirect _ | .ptr _ => False

variable {υ : Type} {z : Zend} {pool : Pool} {es es' : List (Nat × Bytes)} {w w' w₀ w₁ w₂ : World υ}
  {live live' : Nat → Option Nat} {php : Serializer υ} {e : Event υ} {evs evs' : List (Event υ)}
  {P : Nat → Prop} {shm : Mem} {p q : Nat} {v x : Zval}

/-- The pointers of a frozen zval are published. -/
theorem Zval.Frozen.pointers (h : v.Frozen P shm) (hq : q ∈ v.pointers) : P q := by
  cases v with
  | string p rc | array p rc =>
    obtain rfl : q = p := by simpa [Zval.pointers] using hq
    exact h.1
  | undef | null | bool _ | long _ | double _ => cases hq
  | object _ | resource _ | reference _ | indirect _ | ptr _ => exact h.elim

/-- The shared pointers of a frozen object are published. -/
theorem Obj.Frozen.pointers {o : Obj} (h : o.Frozen z P shm)
    (hz : pool.containsPointer z.uninitializedBucket = false)
    (hq : q ∈ o.pointers) (hs : pool.containsPointer q = true) : P q := by
  cases o with
  | str s => cases hq
  | ht t =>
    obtain rfl : q = t.dataAddr := by simpa [Obj.pointers] using hq
    obtain ⟨-, ⟨-, hu⟩ | ⟨hp, -⟩⟩ := h
    · rw [hu, hz] at hs
      cases hs
    · exact hp
  | packed hash vs =>
    obtain ⟨v, hv, hq⟩ := List.mem_flatMap.1 hq
    exact (h v hv).pointers hq
  | buckets hash bs =>
    obtain ⟨b, hb, hq⟩ := List.mem_flatMap.1 hq
    obtain ⟨hb, hu⟩ := List.mem_filter.1 hb
    obtain ⟨hkey, hval⟩ := h b hb (by simpa using hu)
    rcases List.mem_append.1 hq with hq | hq
    · exact (hkey q (by simpa using hq)).1
    · exact hval.pointers hq
  | entry e =>
    obtain ⟨hkey, hval⟩ := h
    rcases List.mem_cons.1 hq with rfl | hq
    · exact hkey.1
    · obtain hval | ⟨p, hp, hval⟩ := hval
      · exact hval.pointers hq
      · obtain rfl : q = p := by simpa [hp, Zval.pointers] using hq
        exact hval.1
  | other => exact h.elim

/-- From a published address one comes to published addresses only. -/
theorem AllFrozen.reaches (h : AllFrozen z P shm)
    (hz : pool.containsPointer z.uninitializedBucket = false) (hr : Reaches pool shm p q)
    (hp : P p) (hq : pool.containsPointer q = true) : P q := by
  induction hr with
  | refl => exact hp
  | tail _ hstep ih =>
    obtain ⟨hs, o, ho, hmem⟩ := hstep
    exact (h _ o (ih hs) ho).pointers hz hmem hq

/-- One comes nowhere from an address outside the shared segments. -/
theorem Reaches.outside (hr : Reaches pool shm p q) (hp : pool.containsPointer p = false) :
    q = p := by
  induction hr with
  | refl => rfl
  | tail _ hstep ih =>
    subst ih
    rw [hp] at hstep
    cases hstep.1

/-- A published string is sealed. -/
theorem AllFrozen.sealedStr (h : AllFrozen z P shm) (hP : ∀ p, P p → pool.containsPointer p = true)
    (hp : FrozenKey P shm p) : SealedStr z pool shm p := by
  obtain ⟨hp, s, hs⟩ := hp
  obtain ⟨himm, hh⟩ := h p _ hp hs
  exact ⟨hP p hp, s, hs, himm, hh ▸ z.hash_ne_zero _, hh⟩

/-- A frozen zval is sealed. -/
theorem AllFrozen.sealed (h : AllFrozen z P shm) (hP : ∀ p, P p → pool.containsPointer p = true)
    (hv : v.Frozen P shm) : v.Sealed z pool shm := by
  cases v with
  | undef | null | bool _ | long _ | double _ => trivial
  | string p rc => exact ⟨hv.2.1, h.sealedStr hP ⟨hv.1, hv.2.2⟩⟩
  | array p rc =>
    obtain ⟨hp, hrc, t, ht⟩ := hv
    obtain ⟨himm, hdata⟩ := h p _ hp ht
    refine ⟨hrc, hP p hp, t, ht, himm, hdata.imp_right fun ⟨hd, hkind⟩ => ⟨hP _ hd, ?_⟩⟩
    split at hkind
    next => exact .inl hkind
    next =>
      obtain ⟨hash, bs, hbs⟩ := hkind
      refine .inr ⟨hash, bs, hbs, fun b hb hu key hkey => h.sealedStr hP ?_⟩
      exact (h _ _ hd hbs b hb hu).1 key hkey
  | object _ | resource _ | reference _ | indirect _ | ptr _ => exact hv.elim

/-- Everything within a frozen zval is frozen. -/
theorem AllFrozen.within (h : AllFrozen z P shm) (hv : v.Frozen P shm) (hx : v.Within shm x) :
    x.Frozen P shm := by
  induction hx with
  | self => exact hv
  | packed _ ht hd hx ih =>
    obtain ⟨hp, -, -⟩ := ih
    obtain ⟨-, ⟨hz, -⟩ | ⟨hpd, -⟩⟩ := h _ _ hp ht
    · rw [hz] at hx
      cases hx
    · exact h _ _ hpd hd _ (List.mem_of_mem_take hx)
  | bucket _ ht hd hb hu ih =>
    obtain ⟨hp, -, -⟩ := ih
    obtain ⟨-, ⟨hz, -⟩ | ⟨hpd, -⟩⟩ := h _ _ hp ht
    · rw [hz] at hb
      cases hb
    · exact (h _ _ hpd hd _ (List.mem_of_mem_take hb) hu).2

/-! ## Fetched values -/

/-- What a fetch can give as a zval: a frozen one, the engine's empty array, or `null` if a string
could not be unserialized. -/
def Fetchable (z : Zend) (P : Nat → Prop) (shm : Mem) (v : Zval) : Prop :=
  v.Frozen P shm ∨ v = .array z.emptyArray false

/-- A value that a fetch can give stays one when more is published. -/
theorem Fetchable.mono {P' : Nat → Prop} {shm' : Mem} (h : Fetchable z P shm v)
    (hP : ∀ q, P q → P' q) (hr : Retains P shm shm') : Fetchable z P' shm' v :=
  h.imp_left (·.mono hP hr)

/-- A fetch of a published value gives such a value. -/
theorem unpersist_fetchable {sp : Space} {ser : Serializer υ} {ok : Bool}
    (hv : v.Frozen P shm ∨ ∃ q, v = .ptr q ∧ FrozenKey P shm q)
    (hu : unpersist sp shm ser v = (ok, .zval x)) : Fetchable sp.zend P shm x := by
  rcases hv with hv | ⟨q, rfl, -⟩
  · cases v with
    | undef | null | bool _ | long _ | double _ =>
      obtain ⟨-, rfl⟩ : true = ok ∧ _ = x := by simpa [unpersist, unpersistZval] using hu
      exact .inl trivial
    | string p rc =>
      obtain ⟨-, rfl⟩ : true = ok ∧ _ = x := by simpa [unpersist, unpersistZval] using hu
      exact .inl ⟨hv.1, rfl, hv.2.2⟩
    | array p rc =>
      simp only [unpersist, unpersistZval, Prod.mk.injEq, Fetched.zval.injEq] at hu
      split at hu
      · exact .inr hu.2.symm
      · exact .inl (hu.2 ▸ hv)
    | object _ | resource _ | reference _ | indirect _ | ptr _ => exact hv.elim
  · simp only [unpersist] at hu
    split at hu
    · cases hu
    · cases hu
      exact .inl trivial

/-- A fetch gives a value that is published. -/
theorem Step.fetchable {key t : Nat} {ok : Bool} (h : Step pool z php w e w')
    (hinv : w.Inv pool z es live) (hcall : e.req.call = .fetch key t)
    (ho : e.outcome = some (.fetched (some (ok, .zval v)))) :
    Fetchable z (Pub w.shm es) w.shm v := by
  obtain ⟨es', live', heff⟩ := h.effect hinv
  obtain ⟨rfl, ⟨hon, hlegal⟩, -⟩ := h
  rw [hcall] at hlegal
  obtain ⟨k, hk⟩ := hlegal
  rw [ho] at heff
  cases heff with
  | @answered k' _ _ hk' hreply _ =>
    rw [Request.reply, hcall] at hreply
    simp only [Option.some.injEq, Outcome.fetched.injEq, Option.map_eq_some_iff] at hreply
    obtain ⟨p, hp, hu⟩ := hreply
    rw [← hon.zend]
    refine unpersist_fetchable (hinv.value (k := k') ?_) hu
    unfold World.lookup at hp
    split at hp
    · exact hp
    · cases hp
  | leaked _ _ _ hwhy =>
    obtain ⟨hno, -⟩ | ⟨hno | hno, -⟩ := hwhy <;> cases hno
  | reported hno _ =>
    rw [hk] at hno
    cases hno

/-- A fetched value stays published. -/
theorem run_fetchable {key t : Nat} {ok : Bool} (h : Run (Step pool z php) w evs w')
    (hinv : w.Inv pool z es live) (he : e ∈ evs) (hcall : e.req.call = .fetch key t)
    (ho : e.outcome = some (.fetched (some (ok, .zval v)))) :
    ∃ es' live', w'.Inv pool z es' live' ∧ Fetchable z (Pub w'.shm es') w'.shm v := by
  induction h generalizing es live with
  | nil => cases he
  | cons h1 h2 ih =>
    obtain ⟨es₁, live₁, heff⟩ := h1.effect hinv
    obtain ⟨hinv₁, hle₁⟩ := heff.kept
    rcases List.mem_cons.1 he with rfl | he
    · obtain ⟨es', live', hinv', hle'⟩ := run_kept h2 hinv₁
      have hle := hle₁.trans hinv hle'
      exact ⟨es', live', hinv', (h1.fetchable hinv hcall ho).mono (fun _ => hle.pub hinv)
        hle.evolves.retains⟩
    · exact ih hinv₁ he

/-! ## Closed and frozen -/

/-- The chains of a later state begin with those of an earlier one. -/
theorem World.Le.chain (h : w.Le es w' es') (hinv : w.Inv pool z es live)
    (hinv' : w'.Inv pool z es' live') (s : Nat) : w.chain s <+: w'.chain s := by
  by_cases hs : s < w.slots.length
  · rw [hinv.chain_eq hs, hinv'.chain_eq (h.slots ▸ hs), h.slots]
    exact (h.entries.filter _).map _
  · have hnone : w.slots.getD s none = none :=
      by simp [List.getElem?_eq_none (Nat.le_of_not_lt hs)]
    rw [World.chain, hnone]
    cases w.header.nentries <;> exact List.nil_prefix

/-- In every run, at every point of it: each published entry lies in an allocated block; the shared
pointers that can be followed from a published entry, or from a value that a fetch has given, lead
into these blocks. From there to any later point none of the blocks is freed, the chains only grow
at their tails, and nothing in the blocks changes but the `nhits` and `atime` of entries, and their
`next` where it was `NULL`. -/
theorem run_closed (hc : Created pool w₀) (h : Run (Step pool z php) w₀ evs w)
    (h' : Run (Step pool z php) w evs' w')
    (hz : pool.containsPointer z.uninitializedBucket = false) :
    (∃ live, pool.Ok w.sma live ∧ ∀ x ∈ w.entries, ∃ sz, live x.1 = some sz ∧
        (entryAt w.shm x.1).memSize ≤ sz) ∧
      (∀ x ∈ w.entries, ∀ q, Reaches pool w.shm x.1 q → pool.containsPointer q = true →
        Pub w.shm w.entries q) ∧
      (∀ e ∈ evs, ∀ key t ok v, e.req.call = .fetch key t →
        e.outcome = some (.fetched (some (ok, .zval v))) → ∀ p ∈ v.pointers, ∀ q,
          Reaches pool w.shm p q → pool.containsPointer q = true → Pub w.shm w.entries q) ∧
      (∃ new, w'.freed = new ++ w.freed ∧ ∀ x ∈ w.entries, x.1 ∉ new) ∧
      (∀ x ∈ w.entries, x ∈ w'.entries) ∧
      Evolves (Pub w.shm w.entries) w.shm w'.shm ∧ ∀ s, w.chain s <+: w'.chain s := by
  obtain ⟨-, hdr, sz, hinv₀⟩ := hc.inv z
  obtain ⟨es, live, hinv, -⟩ := run_kept h hinv₀
  obtain ⟨es', live', hinv', hle⟩ := run_kept h' hinv
  have hpub : Pub w.shm w.entries = Pub w.shm es := funext fun q => propext (hinv.pub_entries q)
  rw [hpub]
  refine ⟨⟨live, hinv.sma, fun x hx => hinv.block x ((hinv.mem_entries x).1 hx)⟩,
    fun x hx q hr hq => ?_, fun e he key t ok v hcall ho p hp q hr hq => ?_, ?_, fun x hx => ?_,
    hle.evolves, hle.chain hinv hinv'⟩
  · exact hinv.frozen.reaches hz hr (hinv.pub_entry ((hinv.mem_entries x).1 hx)) hq
  · obtain ⟨es₁, live₁, hinv₁, hv⟩ := run_fetchable h hinv₀ he hcall ho
    have hpub₁ : ∀ q, Pub w.shm es₁ q → Pub w.shm es q := fun q hq =>
      (hinv.pub_entries q).1 ((hinv₁.pub_entries q).2 hq)
    rcases hv with hv | rfl
    · exact hinv.frozen.reaches hz hr (hpub₁ p (hv.pointers hp)) hq
    · obtain rfl : p = z.emptyArray := by simpa [Zval.pointers] using hp
      obtain ⟨w₁, hlegal⟩ := run_legal h he
      have hout : pool.containsPointer z.emptyArray = false := by
        rw [← hlegal.1.shared]
        exact hlegal.1.emptyArray.1
      rw [hr.outside hout, hout] at hq
      cases hq
  · obtain ⟨new, hnew, hn⟩ := hle.freed
    exact ⟨new, hnew, fun x hx hmem => hn _ hmem (hinv.pub_entry ((hinv.mem_entries x).1 hx))⟩
  · exact (hinv'.mem_entries x).2 (hle.entries.subset ((hinv.mem_entries x).1 hx))

/-- The small run, and then nothing: everything that can be followed from the entry with the array and
from the array that has been fetched is published. -/
theorem run_closed_small : ∃ evs w, evs.length = 3 ∧
    Run (Step Small.pool Small.zend Small.php) (Small.start (Small.env none)) evs w ∧
      (∃ x ∈ w.entries, (entryAt w.shm x.1).val.isArray = true) ∧
      ∀ x ∈ w.entries, ∀ q, Reaches Small.pool w.shm x.1 q →
        Small.pool.containsPointer q = true → Pub w.shm w.entries q :=
  ⟨_, _, Small.events_length, Small.run, Small.used_entry,
    (run_closed Small.created Small.run .nil (by decide)).2.1⟩

/-- In every run, the key of each entry is sealed, and its value is one sealed serialized string or
a graph of sealed zvals, on which `immutable_cache_unpersist` does not fail; and so is every value
that a fetch has given, if it is not the engine's empty array. -/
theorem run_sealed (hc : Created pool w₀) (h : Run (Step pool z php) w₀ evs w) :
    (∀ x ∈ w.entries, SealedStr z pool w.shm (entryAt w.shm x.1).key ∧
      ((∃ p, (entryAt w.shm x.1).val = .ptr p ∧ SealedStr z pool w.shm p) ∨
        ∀ v, (entryAt w.shm x.1).val.Within w.shm v → v.Sealed z pool w.shm) ∧
      unpersistFatal (entryAt w.shm x.1).val = false) ∧
    ∀ e ∈ evs, ∀ key t ok v, e.req.call = .fetch key t →
      e.outcome = some (.fetched (some (ok, .zval v))) →
        v = .array z.emptyArray false ∨ ∀ x, v.Within w.shm x → x.Sealed z pool w.shm := by
  obtain ⟨-, hdr, sz, hinv₀⟩ := hc.inv z
  obtain ⟨es, live, hinv⟩ := run_inv hc h
  have hshared := fun p (hp : Pub w.shm es p) => hinv.pub_shared hp
  constructor
  · intro x hx
    have hx := (hinv.mem_entries x).1 hx
    obtain ⟨a, ha, -⟩ := hinv.table.entry x hx
    obtain ⟨hkey, hval⟩ := hinv.frozen x.1 _ (hinv.pub_entry hx) ha
    rw [entryAt_eq ha]
    refine ⟨hinv.frozen.sealedStr hshared hkey, ?_, ?_⟩
    · obtain hval | ⟨p, hp, hval⟩ := hval
      · exact .inr fun v hv => hinv.frozen.sealed hshared (hinv.frozen.within hval hv)
      · exact .inl ⟨p, hp, hinv.frozen.sealedStr hshared hval⟩
    · obtain hval | ⟨p, hp, -⟩ := hval
      · cases hv : a.val with
        | object _ | resource _ | reference _ | indirect _ =>
          rw [hv] at hval
          exact hval.elim
        | _ => rfl
      · rw [hp]
        rfl
  · intro e he key t ok v hcall ho
    obtain ⟨es₁, live₁, hinv₁, hv⟩ := run_fetchable h hinv₀ he hcall ho
    refine hv.symm.imp_right fun hv x hx => ?_
    exact hinv₁.frozen.sealed (fun p hp => hinv₁.pub_shared hp) (hinv₁.frozen.within hv hx)

/-- The key of the small run is sealed, and so is the array that has been fetched. -/
theorem run_sealed_small : ∃ evs w, evs.length = 3 ∧
    Run (Step Small.pool Small.zend Small.php) (Small.start (Small.env none)) evs w ∧
      (∃ x ∈ w.entries, (entryAt w.shm x.1).val.isArray = true) ∧
      (∀ x ∈ w.entries, SealedStr Small.zend Small.pool w.shm (entryAt w.shm x.1).key) ∧
      ∃ e ∈ evs, ∃ p rc, e.outcome = some (.fetched (some (true, .zval (.array p rc)))) ∧
        ∀ x, (Zval.array p rc).Within w.shm x → x.Sealed Small.zend Small.pool w.shm := by
  have hsealed := run_sealed Small.created Small.run
  obtain ⟨e, he, p, rc, hcall, ho, hne⟩ := Small.fetched
  refine ⟨_, _, Small.events_length, Small.run, Small.used_entry, fun x hx => (hsealed.1 x hx).1,
    e, he, p, rc, ho, ?_⟩
  refine (hsealed.2 e he _ _ _ _ hcall ho).resolve_left fun heq => ?_
  obtain ⟨rfl, -⟩ := Zval.array.inj heq
  exact hne rfl

end ImmutableCache
