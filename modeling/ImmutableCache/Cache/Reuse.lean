import ImmutableCache.Cache.Reach
import ImmutableCache.Cache.RoundTrip
import ImmutableCache.Persist.Move

/-!
# Stored values are reused

An entry that `immutable_cache_persist` makes holds every string and every array once, and what lies
in the shared segments already is used where it lies. So a value that a fetch has given, or a part
of it, is stored under another key at the cost of the entry and the key, and is fetched again as
the same pointer (`run_storedOnce`).
-/

namespace ImmutableCache

open Bail

variable {υ : Type} {z : Zend} {pool : Pool} {sp : Space} {shm : Mem} {es : List (Nat × Bytes)}
  {w w' w₀ w₁ : World υ} {live : Nat → Option Nat} {php : Serializer υ} {e : Event υ}
  {evs : List (Event υ)} {depth key p q t : Nat} {val v x : Zval} {orig : Entry} {k : Bytes}

/-! ## The entry in its block -/

/-- What `immutable_cache_persist` leaves in the block is what the copying half has written there. -/
theorem persist_filled (h : persist pool sp php depth orig w = .ok (some p) w') :
    ∃ c shm', persistSize sp php w.serializer depth w.shm w.serializations orig = (true, c) ∧
      w'.shm = (persistFill sp depth c shm' p orig).2.shm := by
  have hreserve : Wp (persistReserve pool sp php depth orig) w (fun r _ => ∀ p c, r = some (p, c) →
      persistSize sp php w.serializer depth w.shm w.serializations orig = (true, c))
      fun _ => True := by
    simp only [persistReserve, wp_bind, wp_get]
    refine (Wp.trivial _ _).mono (fun _ _ _ => ?_) fun _ => id
    refine (Wp.trivial _ _).mono (fun _ _ _ => ?_) fun _ => id
    simp only [wp_modify, wp_ite]
    split
    next hok =>
      rw [wp_bind]
      refine (Wp.trivial _ _).mono (fun r _ _ => ?_) fun _ => id
      cases r with
      | none =>
        intro p c h
        cases h
      | some p =>
        rintro _ _ ⟨⟩
        exact Prod.ext hok rfl
    next =>
      intro p c h
      cases h
  have hpersist : Wp (persist pool sp php depth orig) w (fun r w' => ∀ p, r = some p → ∃ c shm',
      persistSize sp php w.serializer depth w.shm w.serializations orig = (true, c) ∧
        w'.shm = (persistFill sp depth c shm' p orig).2.shm) fun _ => True := by
    refine wp_persist_iff.2 (hreserve.mono (fun r w₁ h₁ => ?_) fun _ => id)
    cases r with
    | none =>
      intro p h
      cases h
    | some r =>
      simp only [persistInto, wp_bind, wp_modify, wp_get]
      refine (Wp.trivial _ _).mono (fun _ _ _ => ?_) fun _ => id
      rintro _ ⟨⟩
      exact ⟨r.2, _, h₁ r.1 r.2 rfl, rfl⟩
  exact hpersist.of_ok h p rfl

/-- An array in direct form is stored once. -/
theorem World.Inv.persist_storedOnce (hinv : w.Inv pool z es live) (hon : sp.On pool z)
    (hw : WellEntry sp (ImmutableCache.view sp w.shm es) depth orig k) (harr : orig.val.isArray = true)
    (h : persist pool sp php depth orig w = .ok (some p) w') :
    ∃ e, w'.shm p = some (.entry e) ∧
      ((∀ q, e.val ≠ .ptr q) → StoredOnce sp w.shm orig w'.shm p e) := by
  have hz := hon.zend
  subst hz
  have hext : Extends (ImmutableCache.view sp w.shm es) (sp.deref w.shm) := extends_view fun _ _ _ _ ho => ho
  obtain ⟨c, sz, hd⟩ := hinv.persist_draft hon hw h
  obtain ⟨c', shm', hc, hshm⟩ := persist_filled h
  obtain rfl : c' = c := (Prod.mk.inj (hc.symm.trans hd.sized)).2
  obtain ⟨kp, v, he, -, -, -, hval⟩ := hd.entry hinv
  refine ⟨_, he, fun hdirect => ?_⟩
  have hu : c'.useSerialization = false := by
    cases hu : c'.useSerialization with
    | false => rfl
    | true =>
      rw [CopiedVal, hu, if_pos rfl] at hval
      obtain ⟨q, buf, hv, -⟩ := hval
      exact absurd hv (hdirect q)
  have hser : w.serializer = none := by
    cases hs : w.serializer with
    | none => rfl
    | some s =>
      rw [persistSize_serialized hw hext (by rw [hs, harr]; rfl) hd.sized] at hu
      cases hu
  rw [hser] at hc
  obtain ⟨e, he', hstored⟩ := persistFill_storedOnce hw hext harr hc hu shm' p
  rw [← hshm] at he' hstored
  rw [he] at he'
  cases he'
  exact hstored

/-- Linking an entry leaves its value and its size. -/
theorem insert_fields (p : Nat) (w : World υ) :
    (entryAt (wlockedInsertExclusive sp p w).2.shm p).val = (entryAt w.shm p).val ∧
      (entryAt (wlockedInsertExclusive sp p w).2.shm p).memSize = (entryAt w.shm p).memSize := by
  unfold wlockedInsertExclusive
  dsimp only
  split
  · exact ⟨rfl, rfl⟩
  next place _ =>
    cases place with
    | none => simp only [linkEntry, entryAt_writeEntry_self, and_self]
    | some q =>
      by_cases hq : p = q
      · subst hq
        simp only [linkEntry, entryAt_writeEntry_self, and_self]
      · simp only [linkEntry, entryAt_writeEntry_of_ne _ hq, entryAt_writeEntry_self, and_self]

/-- The entry that a store adds is the one that `immutable_cache_persist` has made. -/
theorem wp_cacheStore_persist : Wp (cacheStore pool sp php depth key val t) w
    (fun r w' => r = true → ∃ p w₁,
      persist pool sp php depth (initEntry key val t) w = .ok (some p) w₁ ∧
        (entryAt w'.shm p).val = (entryAt w₁.shm p).val ∧
        (entryAt w'.shm p).memSize = (entryAt w₁.shm p).memSize) fun _ => True := by
  have hfail : ∀ {p : Nat} {w₂ : World υ}, Wp (do smaFree pool p; pure false : Op υ Bool) w₂
      (fun r _ => r ≠ true) fun _ => True := by
    intro p w₂
    rw [wp_bind]
    exact (Wp.trivial _ _).mono (fun _ _ _ => Bool.false_ne_true) fun _ => id
  rw [cacheStore, wp_bind]
  refine (Wp.trivial _ _).eq.mono (fun r w₁ h₁ => ?_) fun _ _ => trivial
  obtain ⟨hrun, -⟩ := h₁
  cases r with
  | none =>
    intro h
    cases h
  | some p =>
    simp only [wp_bind, wp_get]
    refine (Harmless.cacheWlock _ w₁).mono (fun ok w₂ h₂ => ?_) fun _ _ => trivial
    cases ok with
    | false => exact hfail.mono (fun _ _ hr ht => absurd ht hr) fun _ => id
    | true =>
      simp only [if_true, wp_bind, wp_ensuring, wp_modifyGet, cacheWunlock, unlock, wp_modify]
      split
      · intro _
        rw [← h₂.shm]
        exact ⟨p, w₁, hrun, h₂.shm ▸ insert_fields p w₂⟩
      · exact hfail.mono (fun _ _ hr ht => absurd ht hr) fun _ => id

/-! ## Storing what has been fetched -/

/-- The value points to a string or an array in the shared segments. -/
theorem Zval.Frozen.shared {P : Nat → Prop} (h : v.Frozen P shm) (hn : v.nodes ≠ []) :
    ∃ q, v.nodes = [q] ∧ P q := by
  cases v with
  | string q rc | array q rc => exact ⟨q, rfl, h.1⟩
  | undef | null | bool _ | long _ | double _ => exact absurd rfl hn
  | object _ | resource _ | reference _ | indirect _ | ptr _ => exact h.elim

/-- A step whose request has not bailed out. -/
theorem Step.run_ok {o : Outcome υ} (h : Step pool z php w e w') (ho : e.outcome = some o) :
    e.req.run pool php w = .ok o w' := by
  obtain ⟨-, -, hrun⟩ := h
  cases hr : e.req.run pool php w with
  | ok o' w₁ =>
    rw [hr] at hrun
    obtain ⟨ho', rfl⟩ := hrun
    rw [ho] at ho'
    cases ho'
    rfl
  | error u w₁ =>
    rw [hr] at hrun
    rw [ho] at hrun
    cases hrun.1

/-- A published string or array is stored by its pointer, for the price of the entry and the key. -/
theorem Step.store_shared (h : Step pool z php w e w') (hinv : w.Inv pool z es live)
    (hser : w.serializer = none) (hcall : e.req.call = .store key x t)
    (ho : e.outcome = some (.stored true)) (hx : x.Frozen (Pub w.shm es) w.shm)
    (hn : x.nodes ≠ []) :
    ∃ p k es' live', e.req.key w = some k ∧ w'.Inv pool z es' live' ∧ w.Le es w' es' ∧
      bound es' k = some p ∧ (entryAt w'.shm p).val = x ∧
      (entryAt w'.shm p).memSize = alignedSize sizeofEntry +
        if e.req.sp.shared key then 0 else e.req.sp.weight key := by
  have hrun := h.run_ok ho
  obtain ⟨-, ⟨hon, hlegal⟩, -⟩ := h
  have hz := hon.zend
  subst hz
  rw [hcall] at hlegal
  obtain ⟨k, hw⟩ := hlegal
  have hk : e.req.key w = some k := by
    rw [Request.key, hcall]
    exact hw.key
  rw [hinv.view_eq] at hw
  have hext : Extends (view e.req.sp w.shm es) (e.req.sp.deref w.shm) :=
    extends_view fun _ _ _ _ ho => ho
  rw [Request.run, hcall] at hrun
  obtain ⟨r, hstore, hr⟩ := of_map_eq_ok hrun
  cases hr
  obtain ⟨-, c, p, hadded⟩ | ⟨hno, -⟩ := (wp_cacheStore hinv hon hw).of_ok hstore
  swap
  · cases hno
  obtain ⟨sz, -, hinv'⟩ := hadded.inv
  -- the entry as `immutable_cache_persist` has made it
  obtain ⟨p', w₁, hp, hval, hsize⟩ := wp_cacheStore_persist.of_ok hstore rfl
  obtain rfl : p' = p := by
    have hproduced := hadded.produced
    rw [persisted, hp] at hproduced
    exact Option.some.inj hproduced
  obtain ⟨c', shm', hc, hshm⟩ := persist_filled hp
  obtain ⟨q, hnodes, hq⟩ := hx.shared hn
  have hq : e.req.sp.shared q = true := by
    rw [hon.shared]
    exact hinv.pub_shared hq
  have hnodes : (initEntry key x t).val.nodes = [q] := hnodes
  rw [hser] at hc
  obtain ⟨hu, hc⟩ := persistSize_shared hw hext hnodes hq hc
  obtain ⟨e₁, he₁, hmem, hmoves⟩ := persistFill_shared hnodes hq hu shm' p'
  rw [← hshm] at he₁
  rw [entryAt_eq he₁] at hval hsize
  have hb : bound (es ++ [(p', k)]) k = some p' :=
    (bound_eq_some hinv'.table.keys).2 (by simp)
  refine ⟨p', k, _, _, hk, hinv', hadded.le, hb, ?_, hsize.trans (hmem.trans hc)⟩
  rw [← hval] at hmoves
  obtain hfr | ⟨q', hptr, -⟩ := hinv'.value hb
  · exact hmoves.eq_of_frozen hx hfr
  · rw [hptr] at hmoves
    cases hmoves with
    | scalar hs => cases hs

/-- A lookup of a key that is bound gives the value of its entry, as long as it can acquire the
lock. -/
theorem run_fetch_bound {r : Option (Bool × Fetched υ)} (h : Run (Step pool z php) w evs w')
    (hinv : w.Inv pool z es live) (hb : bound es k = some p) (he : e ∈ evs)
    (hcall : e.req.call = .fetch key t) (hk : e.req.key e.before = some k)
    (ho : e.outcome = some (.fetched r)) :
    r = if e.before.env.lockOk e.before.lockTries then
      some (unpersist e.req.sp w.shm (w.serializer.getD php) (entryAt w.shm p).val) else none := by
  induction h generalizing es live with
  | nil => cases he
  | cons h1 h2 ih =>
    obtain ⟨es₁, live₁, heff⟩ := h1.effect hinv
    rcases List.mem_cons.1 he with rfl | he'
    · obtain ⟨rfl, -⟩ := h1
      rw [ho] at heff
      cases heff with
      | @answered k' _ _ hk' hreply _ =>
        obtain rfl : k = k' := Option.some.inj (hk.symm.trans hk')
        rw [Request.reply, hcall] at hreply
        simp only [Option.some.injEq, Outcome.fetched.injEq] at hreply
        rw [← hreply, World.lookup]
        split
        · rw [hb]
          rfl
        · rfl
      | leaked _ _ _ hwhy =>
        obtain ⟨hno, -⟩ | ⟨hno | hno, -⟩ := hwhy <;> cases hno
      | reported hno _ =>
        rw [hk] at hno
        cases hno
    · obtain ⟨hinv₁, hle₁⟩ := heff.kept
      obtain ⟨w₂, hon, -⟩ := run_legal h2 he'
      have hz := hon.zend
      subst hz
      have hb₁ : bound es₁ k = some p := (bound_eq_some hinv₁.table.keys).2
        (hle₁.entries.subset ((bound_eq_some hinv.table.keys).1 hb))
      rw [← hinv.unpersist_bound php hon hb hle₁]
      exact ih hinv₁ hb₁ he'

/-! ## What a fetched value holds -/

/-- The strings, the keys and the non-empty arrays of a value in shared memory, as a process with the
address space `sp` finds them there. -/
inductive Zval.Holds (sp : Space) (shm : Mem) (v : Zval) : Zval → Prop
  | string {p : Nat} {rc : Bool} : v.Within shm (.string p rc) → v.Holds sp shm (.string p rc)
  | key {p key : Nat} {rc : Bool} {t : HashTable} {hash : List Nat} {bs : List Bucket}
      {b : Bucket} : v.Within shm (.array p rc) → shm p = some (.ht t) →
      shm t.dataAddr = some (.buckets hash bs) → b ∈ bs.take t.nNumUsed → b.val ≠ .undef →
      b.key = some key → v.Holds sp shm (.string key false)
  | array {p : Nat} {rc : Bool} : v.Within shm (.array p rc) →
      (sp.ht shm p).nNumOfElements ≠ 0 → v.Holds sp shm (.array p rc)

/-- The value is not an array without elements. -/
def Zval.Nonempty (sp : Space) (shm : Mem) (v : Zval) : Prop :=
  ∀ p rc, v = .array p rc → (sp.ht shm p).nNumOfElements ≠ 0

/-- A value within a published one is published too, and no empty array. -/
theorem AllFrozen.holds {P : Nat → Prop} (h : AllFrozen z P shm) (hv : v.Frozen P shm)
    (hx : v.Holds sp shm x) : x.Frozen P shm ∧ x.nodes ≠ [] ∧ x.Nonempty sp shm := by
  cases hx with
  | string hw => exact ⟨h.within hv hw, List.cons_ne_nil _ _, nofun⟩
  | key hw ht hd hb hu hkey =>
    refine ⟨?_, List.cons_ne_nil _ _, nofun⟩
    obtain ⟨hp, -, -⟩ := h.within hv hw
    obtain ⟨-, ⟨hz, -⟩ | ⟨hpd, -⟩⟩ := h _ _ hp ht
    · rw [hz] at hb
      cases hb
    · obtain ⟨hP, hs⟩ := (h _ _ hpd hd _ (List.mem_of_mem_take hb) hu).1 _ hkey
      exact ⟨hP, rfl, hs⟩
  | array hw hne =>
    refine ⟨h.within hv hw, List.cons_ne_nil _ _, ?_⟩
    rintro _ _ ⟨⟩
    exact hne

/-- A value other than an array without elements is fetched as it is. -/
theorem unpersist_eq_self {P : Nat → Prop} {ser : Serializer υ} (hx : x.Frozen P shm)
    (hne : x.Nonempty sp shm) : unpersist sp shm ser x = (true, .zval x) := by
  cases x with
  | undef | null | bool _ | long _ | double _ => rfl
  | string q rc =>
    obtain rfl : rc = false := hx.2.1
    rfl
  | array q rc => simp only [unpersist, unpersistZval, if_neg (hne q rc rfl)]
  | object _ | resource _ | reference _ | indirect _ | ptr _ => exact hx.elim

/-- A published value is not empty for any process, in any later state. -/
theorem Zval.Nonempty.later {P : Nat → Prop} {sp' : Space} {shm' : Mem}
    (h : x.Nonempty sp shm) (hx : x.Frozen P shm) (hr : Retains P shm shm')
    (hP : ∀ q, P q → sp.shared q = true) (hP' : ∀ q, P q → sp'.shared q = true) :
    x.Nonempty sp' shm' := by
  rintro q rc rfl
  obtain ⟨hq, -, t, ht⟩ := hx
  have hne := h q rc rfl
  rw [Space.ht, Space.deref_shared (hP q hq), ht] at hne
  rw [Space.ht, Space.deref_shared (hP' q hq), hr hq (by simp) ht]
  exact hne

/-- In every state that a cache without a serializer can come to, an array that is persisted in
direct form is stored once. In such a state, let a process have fetched a value that is not an array
without elements. When a string or a non-empty array that this value holds is stored under a new
key, the new entry takes up the space of an entry and of the key, or of an entry alone if the key is
in the shared segments; and from then on every fetch of the key that acquires the lock gives the
identical pointer. -/
theorem run_storedOnce (hc : Created pool w₀) (h : Run (Step pool z php) w₀ evs w)
    (hser : w₀.serializer = none) :
    (∀ sp depth orig k p w', sp.On pool z → WellEntry sp (w.view sp) depth orig k →
      orig.val.isArray = true → persist pool sp php depth orig w = .ok (some p) w' →
        ∃ e, w'.shm p = some (.entry e) ∧
          ((∀ q, e.val ≠ .ptr q) → StoredOnce sp w.shm orig w'.shm p e)) ∧
      ∀ e ∈ evs, ∀ key t ok v, e.req.call = .fetch key t →
        e.outcome = some (.fetched (some (ok, .zval v))) → v.Nonempty e.req.sp w.shm →
        ∀ x, v.Holds e.req.sp w.shm x → ∀ e₁ w₁ key₁ t₁, Step pool z php w e₁ w₁ →
          e₁.req.call = .store key₁ x t₁ → e₁.outcome = some (.stored true) →
          ∃ p k, e₁.req.key w = some k ∧ bound w₁.entries k = some p ∧
            (entryAt w₁.shm p).memSize = alignedSize sizeofEntry +
              (if e₁.req.sp.shared key₁ then 0 else e₁.req.sp.weight key₁) ∧
            ∀ evs' w', Run (Step pool z php) w₁ evs' w' → ∀ e' ∈ evs', ∀ key' t' r,
              e'.req.call = .fetch key' t' → e'.req.key e'.before = some k →
              e'.outcome = some (.fetched r) →
                r = if e'.before.env.lockOk e'.before.lockTries then some (true, .zval x)
                  else none := by
  obtain ⟨-, hdr, sz, hinv₀⟩ := hc.inv z
  constructor
  · intro sp depth orig k p w' hon hw harr hp
    obtain ⟨es, live, hinv⟩ := run_inv hc h
    rw [hinv.view_eq] at hw
    exact hinv.persist_storedOnce hon hw harr hp
  · intro e he key t ok v hcall ho hne x hx e₁ w₁ key₁ t₁ h₁ hcall₁ ho₁
    obtain ⟨w₂, hon, -⟩ := run_legal h he
    obtain ⟨es, live, hinv, hv⟩ := run_fetchable h hinv₀ he hcall ho
    have hser : w.serializer = none := by
      obtain ⟨_, _, _, hle⟩ := run_kept h hinv₀
      exact hle.serializer.trans hser
    have hshared : ∀ {sp : Space}, sp.On pool z → ∀ q, Pub w.shm es q → sp.shared q = true :=
      fun hon q hq => (hon.shared q).trans (hinv.pub_shared hq)
    obtain ⟨hfr, hnodes, hne⟩ : x.Frozen (Pub w.shm es) w.shm ∧ x.nodes ≠ [] ∧
        x.Nonempty e.req.sp w.shm := by
      obtain hv | rfl := hv
      · exact hinv.frozen.holds hv hx
      · obtain ⟨hs, t, ht, -, hz⟩ := hon.emptyArray
        refine absurd ?_ (hne _ _ rfl)
        rw [Space.ht, Space.deref_req hs, ht]
        exact hz
    obtain ⟨p, k, es₁, live₁, hk, hinv₁, hle, hb, hval, hsize⟩ :=
      h₁.store_shared hinv hser hcall₁ ho₁ hfr hnodes
    refine ⟨p, k, hk, hinv₁.bound_entries ▸ hb, hsize, ?_⟩
    intro evs' w' h' e' he' key' t' r hcall' hk' ho'
    obtain ⟨w₃, hon', -⟩ := run_legal h' he'
    have hnonempty := hne.later hfr hle.evolves.retains (hshared hon) (hshared hon')
    have hfr₁ : x.Frozen (Pub w.shm es) w₁.shm := hfr.mono (fun _ => id) hle.evolves.retains
    rw [run_fetch_bound h' hinv₁ hb he' hcall' hk' ho', hval, unpersist_eq_self hfr₁ hnonempty]

/-- The array `["b"]` in the small cache, without a serializer. -/
theorem run_storedOnce_small : ∃ p w' e, persist Small.pool Small.sp Small.php 1
    (initEntry 104 (.array 168 true) 0) (Small.start (Small.env none)) = .ok (some p) w' ∧
      w'.shm p = some (.entry e) ∧ ((∀ q, e.val ≠ .ptr q) →
        StoredOnce Small.sp (Small.start (Small.env none)).shm (initEntry 104 (.array 168 true) 0)
          w'.shm p e) := by
  have hgives : Small.gives (persist Small.pool Small.sp Small.php 1
      (initEntry 104 (.array 168 true) 0)) (Small.start (Small.env none)) Option.isSome = true := by
    decide +kernel
  obtain ⟨r, w', hr, hsome⟩ := Small.of_gives hgives
  obtain ⟨p, rfl⟩ := Option.isSome_iff_exists.1 hsome
  obtain ⟨hon, k, hw⟩ := Small.storeArray_legal (Small.start (Small.env none))
  have hser : (Small.start (Small.env none)).serializer = none :=
    Option.isNone_iff_eq_none.1 (by decide +kernel)
  obtain ⟨e, he, hstored⟩ :=
    (run_storedOnce Small.created .nil hser).1 _ _ _ _ _ _ hon hw rfl hr
  exact ⟨p, w', e, hr, he, hstored⟩

end ImmutableCache
