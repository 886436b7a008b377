import ImmutableCache.Cache.History
import ImmutableCache.Sma.Canonical

/-!
# What a store leaves behind

A store that is rejected gives back the block that it has filled, and leaves the shared memory as it
was (`run_rejected`). A store that bails out gives its block back too, as long as the copy does not
abort: then every allocated block is that of the header or that of an entry (`run_reclaimed`). A
copy that aborts leaves its block allocated for ever (`storeArray_leaks`).
-/

namespace ImmutableCache

open Bail

variable {υ : Type} {z : Zend} {pool : Pool} {es es' : List (Nat × Bytes)} {w w' w₀ w₁ : World υ}
  {live live' : Nat → Option Nat} {php : Serializer υ} {e : Event υ} {evs evs' : List (Event υ)}
  {hdr : Nat}

/-! ## Rejected stores -/

/-- An event is a store that returns false. -/
def Event.Rejects (e : Event υ) : Prop :=
  (∃ key val t, e.req.call = .store key val t) ∧ e.outcome = some (.stored false)

/-- A store that returns false keeps the invariant for the same entries and the same payloads. -/
theorem Step.rejected (h : Step pool z php w e w') (hinv : w.Inv pool z es live)
    (hlock : ∀ n, w.env.lockOk n = true) (he : e.Rejects) :
    Kept pool z es live w w' ∧ Untouched es w w' := by
  obtain ⟨⟨key, val, t, hcall⟩, ho⟩ := he
  obtain ⟨es', live', heff⟩ := h.effect hinv
  rw [ho] at heff
  cases heff with
  | rejected _ _ hkept hun _ => exact ⟨hkept, hun⟩
  | leaked _ _ _ hwhy =>
    obtain ⟨hno, -⟩ | ⟨-, n, hno⟩ := hwhy
    · cases hno
    · rw [hlock n] at hno
      cases hno
  | answered _ hreply _ =>
    rw [Request.reply, hcall] at hreply
    cases hreply
  | reported hkey _ =>
    obtain ⟨rfl, ⟨hon, hlegal⟩, -⟩ := h
    rw [hcall] at hlegal
    obtain ⟨k, hw⟩ := hlegal
    rw [Request.key, hcall] at hkey
    cases hkey.symm.trans hw.key

/-- Changes to what is not published add up. -/
theorem Untouched.trans (h : Untouched es w w₁) (hle : w.Le es w₁ es) (hinv : w.Inv pool z es live)
    (h' : Untouched es w₁ w') : Untouched es w w' where
  slots := h'.slots.trans h.slots
  header := h'.header.trans h.header
  shm q hq := (h'.shm q (hle.pub hinv hq)).trans (h.shm q hq)

/-- So does any number of them. -/
theorem run_untouched (h : Run (Step pool z php) w evs w') (hinv : w.Inv pool z es live)
    (hlock : ∀ n, w.env.lockOk n = true) (hrej : ∀ e ∈ evs, e.Rejects) :
    w'.Inv pool z es live ∧ Untouched es w w' := by
  induction h with
  | nil => exact ⟨hinv, rfl, rfl, fun _ _ => rfl⟩
  | cons h1 _ ih =>
    obtain ⟨⟨hinv₁, hle⟩, hun⟩ := h1.rejected hinv hlock (hrej _ (by simp))
    obtain ⟨hinv', hun'⟩ := ih hinv₁ (by rwa [hle.env]) fun e he => hrej e (by simp [he])
    exact ⟨hinv', hun.trans hle hinv hun'⟩

/-- From any state that a cache can come to, with locks that are acquired: after any number of
stores that return false the slots, the entries with all that is published, and the counters are as
they were, and each segment has the same free blocks and the same `avail`. -/
theorem run_rejected (hc : Created pool w₀) (h : Run (Step pool z php) w₀ evs w)
    (h' : Run (Step pool z php) w evs' w') (hlock : ∀ n, w.env.lockOk n = true)
    (hrej : ∀ e ∈ evs', e.Rejects) :
    w'.slots = w.slots ∧ w'.header = w.header ∧ w'.entries = w.entries ∧
      (∀ q, Pub w.shm w.entries q → w'.shm q = w.shm q) ∧
      ∀ i < pool.num, (w.sma.segs i).SameFree (w'.sma.segs i) := by
  obtain ⟨es, live, hinv⟩ := run_inv hc h
  obtain ⟨hinv', hun⟩ := run_untouched h' hinv hlock hrej
  refine ⟨hun.slots, hun.header, hinv.entries_congr hinv' (by rw [hun.slots]), fun q hq => ?_,
    fun i hi => hinv.sma.sameFree hinv'.sma hi⟩
  exact hun.shm q ((hinv.pub_entries q).1 hq)

/-- The second store of a key is rejected. -/
theorem run_rejected_small : ∃ o w w',
    Run (Step Small.pool Small.zend Small.php) (Small.start (Small.env none))
      [⟨Small.start (Small.env none), Small.storeA, o⟩] w ∧
    Step Small.pool Small.zend Small.php w ⟨w, Small.storeA, some (.stored false)⟩ w' ∧
      w'.header = w.header ∧ (w.sma.segs 0).SameFree (w'.sma.segs 0) := by
  have hrun : (match Small.storeA.run Small.pool Small.php (Small.start (Small.env none)) with
      | .ok _ w =>
        match Small.storeA.run Small.pool Small.php w with
        | .ok (.stored ret) _ => !ret
        | _ => false
      | .error _ _ => false) = true := by decide +kernel
  have hlegal := Small.storeA_legal (Small.start (Small.env none))
  cases hr : Small.storeA.run Small.pool Small.php (Small.start (Small.env none)) with
  | error u w =>
    rw [hr] at hrun
    cases hrun
  | ok o w =>
    rw [hr] at hrun
    dsimp only at hrun
    have h : Run (Step Small.pool Small.zend Small.php) (Small.start (Small.env none))
        [⟨Small.start (Small.env none), Small.storeA, some o⟩] w :=
      .cons ⟨rfl, hlegal, by rw [hr]; exact ⟨rfl, rfl⟩⟩ .nil
    cases hr' : Small.storeA.run Small.pool Small.php w with
    | error u w' =>
      rw [hr'] at hrun
      cases hrun
    | ok o' w' =>
      rw [hr'] at hrun
      obtain ⟨rfl⟩ : o' = .stored false := by
        cases o' <;> simp_all
      have h' : Step Small.pool Small.zend Small.php w ⟨w, Small.storeA, some (.stored false)⟩ w' :=
        ⟨rfl, Small.storeA_legal w, by rw [hr']; exact ⟨rfl, rfl⟩⟩
      have hlock : ∀ n, w.env.lockOk n = true := fun n => by
        obtain ⟨-, hdr, sz, hinv⟩ := Small.created.inv Small.zend
        obtain ⟨es, live, -, hle⟩ := run_kept h hinv
        rw [hle.env, Small.start_env]
        rfl
      have hunchanged := run_rejected Small.created h (.cons h' .nil) hlock
        (by simpa using ⟨⟨104, .long 1, 0, rfl⟩, rfl⟩)
      exact ⟨some o, w, w', h, h', hunchanged.2.1, hunchanged.2.2.2.2 0 (by decide)⟩

/-! ## No block is lost -/

/-- Every payload is that of the header, at `hdr`, or that of an entry. -/
def Accounted (hdr : Nat) (es : List (Nat × Bytes)) (live : Nat → Option Nat) : Prop :=
  ∀ p, live p ≠ none → p = hdr ∨ p ∈ es.map Prod.fst

/-- The event is a store whose copy aborts. -/
def Event.Aborts (pool : Pool) (php : Serializer υ) (e : Event υ) : Prop :=
  ∃ key val t, e.req.call = .store key val t ∧
    CopyAborts pool e.req.sp php e.req.depth (initEntry key val t) e.before

/-- Only the copy of an array in direct form can abort, where it allocates memo entries. -/
theorem Step.copyAllocates (h : Step pool z php w e w') (hinv : w.Inv pool z es live)
    (he : e.Aborts pool php) : ∃ key val t, e.req.call = .store key val t ∧
      CopyAllocates e.req.sp (w.view e.req.sp) e.req.depth w.serializer (initEntry key val t) := by
  obtain ⟨rfl, ⟨hon, hlegal⟩, -⟩ := h
  obtain ⟨key, val, t, hcall, habort⟩ := he
  rw [hcall] at hlegal
  obtain ⟨k, hw⟩ := hlegal
  rw [← hon.zend] at hinv
  rw [hinv.view_eq] at hw ⊢
  exact ⟨key, val, t, hcall, habort.copyAllocates hinv hw⟩

/-- A step accounts for its blocks, unless it is a store whose copy aborts. -/
theorem Step.accounted (h : Step pool z php w e w') (hinv : w.Inv pool z es live)
    (hlock : ∀ n, w.env.lockOk n = true) (he : ¬ e.Aborts pool php)
    (hacc : Accounted hdr es live) :
    ∃ es' live', w'.Inv pool z es' live' ∧ w'.env = w.env ∧ Accounted hdr es' live' := by
  obtain ⟨es', live', heff⟩ := h.effect hinv
  obtain ⟨hinv', hle⟩ := heff.kept
  refine ⟨es', live', hinv', hle.env, ?_⟩
  generalize e.outcome = o at heff
  cases heff with
  | @added _ _ _ p sz k _ _ _ _ _ _ _ =>
    intro q hq
    by_cases hqp : q = p
    · exact .inr (by simp [hqp])
    · rw [Function.update_of_ne hqp] at hq
      exact (hacc q hq).imp_right fun hm => by simp [hm]
  | leaked hcall _ _ hwhy =>
    obtain ⟨-, habort⟩ | ⟨-, n, hno⟩ := hwhy
    · exact absurd ⟨_, _, _, hcall, h.1 ▸ habort⟩ he
    · rw [hlock n] at hno
      cases hno
  | rejected _ _ _ _ _ => exact hacc
  | answered _ _ _ => exact hacc
  | reported _ _ => exact hacc
  | aborted _ => exact hacc

/-- Nor does a run, if none of its steps is one. -/
theorem run_accounted (h : Run (Step pool z php) w evs w') (hinv : w.Inv pool z es live)
    (hlock : ∀ n, w.env.lockOk n = true) (habort : ∀ e ∈ evs, ¬ e.Aborts pool php)
    (hacc : Accounted hdr es live) :
    ∃ es' live', w'.Inv pool z es' live' ∧ Accounted hdr es' live' := by
  induction h generalizing es live with
  | nil => exact ⟨es, live, hinv, hacc⟩
  | cons h1 _ ih =>
    obtain ⟨es₁, live₁, hinv₁, henv, hacc₁⟩ := h1.accounted hinv hlock (habort _ (by simp)) hacc
    exact ih hinv₁ (by rwa [henv]) (fun e he => habort e (by simp [he])) hacc₁

/-- In every run in which locks are acquired and no copy aborts, every allocated block is the one
that the header has got when the cache was created, or that of an entry. -/
theorem run_reclaimed (hc : Created pool w₀) (h : Run (Step pool z php) w₀ evs w)
    (hlock : ∀ n, w₀.env.lockOk n = true) (habort : ∀ e ∈ evs, ¬ e.Aborts pool php) :
    ∃ hdr sz live, pool.Ok w₀.sma (Function.update (fun _ => none) hdr (some sz)) ∧
      pool.Ok w.sma live ∧ Accounted hdr w.entries live := by
  obtain ⟨-, hdr, sz, hinv₀⟩ := hc.inv z
  have hacc₀ : Accounted hdr [] (Function.update (fun _ => none) hdr (some sz)) := by
    intro p hp
    by_contra hne
    exact hp (Function.update_of_ne (fun he => hne (.inl he)) _ _)
  obtain ⟨es, live, hinv, hacc⟩ := run_accounted h hinv₀ hlock habort hacc₀
  refine ⟨hdr, sz, live, hinv₀.sma, hinv.sma, fun p hp => (hacc p hp).imp_right fun hm => ?_⟩
  obtain ⟨x, hx, rfl⟩ := List.mem_map.1 hm
  exact List.mem_map_of_mem ((hinv.mem_entries x).2 hx)

/-- Where every allocation in the request heap succeeds no copy aborts. -/
theorem Step.not_aborts (h : Step pool z php w e w') (hinv : w.Inv pool z es live)
    (hheap : ∀ n, w.env.emallocOk n = true) : ¬ e.Aborts pool php := by
  obtain ⟨rfl, ⟨hon, hlegal⟩, -⟩ := h
  rintro ⟨key, val, t, hcall, p, c, w₁, hrun, i, -, hfail⟩
  rw [hcall] at hlegal
  obtain ⟨k, hw⟩ := hlegal
  rw [← hon.zend] at hinv
  rw [hinv.view_eq] at hw
  obtain ⟨hno, -⟩ | ⟨p', c', s, sz, -, -, hs, -⟩ := (wp_persistReserve hinv hw).of_ok hrun
  · cases hno
  · rw [hs.env, hheap] at hfail
    cases hfail

/-- So none does in a run. -/
theorem run_not_aborts (h : Run (Step pool z php) w evs w') (hinv : w.Inv pool z es live)
    (hheap : ∀ n, w.env.emallocOk n = true) : ∀ e ∈ evs, ¬ e.Aborts pool php := by
  induction h generalizing es live with
  | nil => exact fun e he => absurd he List.not_mem_nil
  | cons h1 _ ih =>
    obtain ⟨es₁, live₁, heff⟩ := h1.effect hinv
    obtain ⟨hinv₁, hle⟩ := heff.kept
    exact List.forall_mem_cons.2
      ⟨h1.not_aborts hinv hheap, ih hinv₁ fun n => hle.env ▸ hheap n⟩

/-- The small run, with an entry that holds an array, aborts no copy. -/
theorem run_reclaimed_small : ∃ evs w, evs.length = 3 ∧
    Run (Step Small.pool Small.zend Small.php) (Small.start (Small.env none)) evs w ∧
      (∃ x ∈ w.entries, (entryAt w.shm x.1).val.isArray = true) ∧
      ∃ hdr live, Small.pool.Ok w.sma live ∧ Accounted hdr w.entries live := by
  have henv := Small.start_env (Small.env none)
  obtain ⟨-, hdr, sz, hinv⟩ := Small.created.inv Small.zend
  have habort := run_not_aborts Small.run hinv fun n => by rw [henv]; rfl
  obtain ⟨hdr, sz, live, -, hok, hacc⟩ :=
    run_reclaimed Small.created Small.run (fun n => by rw [henv]; rfl) habort
  exact ⟨_, _, Small.events_length, Small.run, Small.used_entry, hdr, live, hok, hacc⟩

/-- When the allocation for the memo entry of the array fails, its copy stays allocated. -/
theorem storeArray_leaks : Created Small.pool (Small.start (Small.env (some 3))) ∧
    (∀ n, (Small.start (Small.env (some 3))).env.lockOk n = true) ∧
    ∃ w', Step Small.pool Small.zend Small.php (Small.start (Small.env (some 3)))
        ⟨Small.start (Small.env (some 3)), Small.storeArray, none⟩ w' ∧
      ¬ ∃ hdr live, Small.pool.Ok w'.sma live ∧ Accounted hdr w'.entries live := by
  have hc : Created Small.pool (Small.start (Small.env (some 3))) :=
    Small.created_of (by decide +kernel)
  refine ⟨hc, fun n => by rw [Small.start_env]; rfl, ?_⟩
  obtain ⟨-, hdr, sz, hinv⟩ := hc.inv Small.zend
  -- the store bails out, and the segment has lost some of its free bytes
  have hrun : (match Small.storeArray.run Small.pool Small.php (Small.start (Small.env (some 3))) with
      | .ok _ _ => false
      | .error _ w' => decide ((w'.sma.segs 0).avail ≠
          ((Small.start (Small.env (some 3))).sma.segs 0).avail)) = true := by decide +kernel
  have hlegal := Small.storeArray_legal (Small.start (Small.env (some 3)))
  generalize Small.start (Small.env (some 3)) = w at *
  cases hr : Small.storeArray.run Small.pool Small.php w with
  | ok o w' =>
    rw [hr] at hrun
    cases hrun
  | error u w' =>
    rw [hr] at hrun
    have havail : (w'.sma.segs 0).avail ≠ (w.sma.segs 0).avail := of_decide_eq_true hrun
    have hstep : Step Small.pool Small.zend Small.php w ⟨w, Small.storeArray, none⟩ w' :=
      ⟨rfl, hlegal, by rw [hr]; exact ⟨rfl, rfl⟩⟩
    refine ⟨w', hstep, ?_⟩
    rintro ⟨hdr', live', hok', hacc⟩
    obtain ⟨es, live, heff⟩ := hstep.effect hinv
    obtain ⟨hinv', -⟩ := heff.kept
    obtain rfl := hok'.unique hinv'.sma
    cases heff with
    | aborted hkept => exact havail (hkept.1.sma.sameFree hinv.sma (i := 0) (by decide)).2
    | @leaked _ _ _ p _ _ _ _ hp _ _ =>
      have hne : p ≠ hdr := by
        rintro rfl
        rw [Function.update_self] at hp
        cases hp
      have hnil : w'.entries = [] :=
        List.eq_nil_iff_forall_not_mem.2 fun x hx => by cases (hinv'.mem_entries x).1 hx
      have hmem : ∀ q, (Function.update (Function.update (fun _ => none) hdr (some sz)) p
          (some _)) q ≠ none → q = hdr' := fun q hq =>
        (hacc q hq).resolve_right (by simp [hnil])
      refine hne ((hmem p ?_).trans (hmem hdr ?_).symm)
      · rw [Function.update_self]
        exact Option.some_ne_none _
      · rw [Function.update_of_ne hne.symm, Function.update_self]
        exact Option.some_ne_none _

end ImmutableCache
