import ImmutableCache.Cache.History
import ImmutableCache.Zend.Array

/-!
# Lookups of many keys

`immutable_cache_fetch` and `immutable_cache_exists` take a key or an array of keys. For an array
they build the result with the engine's hash functions, which take the keys as they are given, so
that PHP code does not find the decimal form of an integer in it, and
`immutable_cache_exists` does not look for a key that is there already
(`batches_agree`, `batches_disagree`).
-/

namespace ImmutableCache

open Bail

section
variable {υ : Type}

/-! ## The PHP functions -/

/-- `PHP_FUNCTION(immutable_cache_fetch)` for a string: the return value, or `false`. -/
def fetchString (sp : Space) (php : Serializer υ) (t key : Nat) : Op υ (Option (Fetched υ)) := do
  match ← cacheFetch sp php key t with
  | some (true, v) => pure (some v)
  | _ => pure none

/-- The loop of `PHP_FUNCTION(immutable_cache_fetch)` over the elements of an array. -/
def fetchLoop (sp : Space) (php : Serializer υ) (t : Nat) :
    List Zval → ZendArray (Fetched υ) → Op υ (ZendArray (Fetched υ))
  | [], a => pure a
  | hentry :: rest, a => do
    match hentry with
    | .string key _ =>
      match ← cacheFetch sp php key t with
      | some (true, v) =>
        emalloc
        fetchLoop sp php t rest (zendHashUpdate a (sp.zstr (← get).shm key).val v)
      | _ => fetchLoop sp php t rest a
    | _ =>
      warning "immutable_cache_fetch() expects a string or array of strings."
      fetchLoop sp php t rest a

/-- `PHP_FUNCTION(immutable_cache_fetch)` for an array, whose elements have been dereferenced. -/
def fetchArray (sp : Space) (php : Serializer υ) (t : Nat) (keys : List Zval) :
    Op υ (ZendArray (Fetched υ)) := do
  emalloc
  fetchLoop sp php t keys []

/-- `PHP_FUNCTION(immutable_cache_exists)` for a string. -/
def existsString (sp : Space) (key : Nat) : Op υ Bool := cacheExists sp key

/-- The loop of `PHP_FUNCTION(immutable_cache_exists)` over the elements of an array. -/
def existsLoop (sp : Space) : List Zval → ZendArray Bool → Op υ (ZendArray Bool)
  | [], a => pure a
  | hentry :: rest, a => do
    match hentry with
    | .string key _ =>
      if ← cacheExists sp key then
        emalloc
        existsLoop sp rest (zendHashAddNew a (sp.zstr (← get).shm key).val true)
      else existsLoop sp rest a
    | _ =>
      warning "immutable_cache_exists() expects a string or array of strings."
      existsLoop sp rest a

/-- `PHP_FUNCTION(immutable_cache_exists)` for an array, whose elements have been dereferenced. -/
def existsArray (sp : Space) (keys : List Zval) : Op υ (ZendArray Bool) := do
  emalloc
  existsLoop sp keys []

end

/-! ## What they give -/

section
variable {υ : Type} {z : Zend} {pool : Pool} {sp : Space} {es : List (Nat × Bytes)}
  {w w' w₀ w₁ : World υ} {live : Nat → Option Nat} {php : Serializer υ} {key t : Nat} {k : Bytes}
  {zs : List Zval} {L : List Bytes} {evs : List (Event υ)}

/-- The zvals are the strings `L`, as the process reads them. -/
def StringsAt (z : Zend) (rd : Mem) : List Zval → List Bytes → Prop :=
  List.Forall₂ fun v k => ∃ p rc, v = .string p rc ∧ readStr z rd p = some k

/-- What is fetched of the entry that the key is bound to, if that succeeds. -/
def World.valueOf (w : World υ) (sp : Space) (php : Serializer υ) (es : List (Nat × Bytes))
    (k : Bytes) : Option (Fetched υ) :=
  (bound es k).bind fun p =>
    let r := unpersist sp w.shm (w.serializer.getD php) (entryAt w.shm p).val
    if r.1 then some r.2 else none

/-- If locks are acquired, the value of a fetch is that of the entry. -/
theorem World.fetched_eq (hlocks : ∀ n, w.env.lockOk n = true) (k : Bytes) :
    (w.fetched sp php es k).bind (fun r => if r.1 then some r.2 else none) =
      w.valueOf sp php es k := by
  rw [World.fetched, World.lookup, if_pos (hlocks _), World.valueOf]
  cases bound es k <;> rfl

/-- Values stay the same. -/
theorem World.Inv.valueOf_congr (h : w.Inv pool sp.zend es live) (hon : sp.On pool sp.zend)
    (php : Serializer υ) (hle : w.Le es w' es) : w'.valueOf sp php es = w.valueOf sp php es := by
  funext k
  rw [World.valueOf, World.valueOf]
  cases hb : bound es k with
  | none => rfl
  | some p =>
    rw [Option.bind_some, Option.bind_some, h.unpersist_bound php hon hb hle]

/-- A fetch of one key gives the value that the key is bound to. -/
theorem wp_fetchString (h : w.Inv pool sp.zend es live) (hon : sp.On pool sp.zend)
    (hlocks : ∀ n, w.env.lockOk n = true)
    (hk : readStr sp.zend (view sp w.shm es) key = some k) :
    Wp (fetchString sp php t key) w (fun v _ => v = w.valueOf sp php es k) fun _ => True := by
  rw [fetchString, wp_bind]
  refine (wp_cacheFetch h hon hk).mono (fun r w₁ h₁ => ?_) fun _ _ => trivial
  obtain ⟨rfl, -⟩ := h₁
  rw [← World.fetched_eq hlocks]
  rcases w.fetched sp php es k with _ | ⟨_ | _, v⟩ <;> rfl

/-- The loop over the keys puts the values that are found into the array, by induction on the keys.
-/
theorem wp_fetchLoop (h : w.Inv pool sp.zend es live) (hon : sp.On pool sp.zend)
    (hlocks : ∀ n, w.env.lockOk n = true) (hL : StringsAt sp.zend (view sp w.shm es) zs L)
    (a : ZendArray (Fetched υ)) :
    Wp (fetchLoop sp php t zs a) w (fun r _ => r = updateAll (w.valueOf sp php es) L a)
      fun _ => True := by
  induction zs generalizing w L a with
  | nil =>
    cases hL
    rfl
  | cons v zs ih =>
    obtain _ | ⟨⟨p, rc, rfl, hk⟩, hL⟩ := hL
    rename_i k L
    simp only [fetchLoop, wp_bind]
    refine (wp_cacheFetch h hon hk).mono (fun r w₁ h₁ => ?_) fun _ _ => trivial
    obtain ⟨rfl, hinv₁, hle⟩ := h₁
    have hview := hle.view h sp
    have hlocks₁ : ∀ n, w₁.env.lockOk n = true := hle.env ▸ hlocks
    have hL₁ : StringsAt sp.zend (view sp w₁.shm es) zs L := by
      refine hL.imp ?_
      rintro v k ⟨p, rc, hv, hr⟩
      exact ⟨p, rc, hv, hview.readStr hr⟩
    have hvalue := h.valueOf_congr hon php hle
    rw [updateAll, ← World.fetched_eq hlocks]
    rcases w.fetched sp php es k with _ | ⟨_ | _, v⟩
    · exact hvalue ▸ ih hinv₁ hlocks₁ hL₁ a
    · exact hvalue ▸ ih hinv₁ hlocks₁ hL₁ a
    · simp only [wp_bind, wp_get]
      refine (Harmless.emalloc w₁).mono (fun _ w₂ h₂ => ?_) fun _ _ => trivial
      have hle₂ := hle.of_same h₂
      have hinv₂ := h₂.inv hinv₁
      have hk₂ := (hle₂.view h sp).readStr hk
      rw [(keyHash_view hk₂).2, ← h.valueOf_congr hon php hle₂]
      exact ih hinv₂ (h₂.env ▸ hlocks₁) (h₂.shm ▸ hL₁) _

/-- A test of one key says whether it is bound. -/
theorem wp_existsString (h : w.Inv pool sp.zend es live) (hon : sp.On pool sp.zend)
    (hlocks : ∀ n, w.env.lockOk n = true)
    (hk : readStr sp.zend (view sp w.shm es) key = some k) :
    Wp (existsString sp key) w (fun r w' => r = (bound es k).isSome ∧ w.Same w') w.Same := by
  refine (wp_cacheExists h hon hk).mono (fun r w₁ h₁ => ?_) fun _ => id
  rwa [World.lookup, if_pos (hlocks _)] at h₁

/-- The loop over the keys puts the ones that are bound into the array. -/
theorem wp_existsLoop (h : w.Inv pool sp.zend es live) (hon : sp.On pool sp.zend)
    (hlocks : ∀ n, w.env.lockOk n = true) (hL : StringsAt sp.zend (view sp w.shm es) zs L)
    (a : ZendArray Bool) :
    Wp (existsLoop sp zs a) w (fun r _ => r = addNewAll (fun k => (bound es k).isSome) true L a)
      fun _ => True := by
  induction zs generalizing w L a with
  | nil =>
    cases hL
    rfl
  | cons v zs ih =>
    obtain _ | ⟨⟨p, rc, rfl, hk⟩, hL⟩ := hL
    rename_i k L
    simp only [existsLoop, wp_bind]
    refine (wp_existsString h hon hlocks hk).mono (fun r w₁ h₁ => ?_) fun _ _ => trivial
    obtain ⟨rfl, h₁⟩ := h₁
    rw [addNewAll]
    split
    · simp only [wp_bind, wp_get]
      refine (Harmless.emalloc w₁).mono (fun _ w₂ h₂ => ?_) fun _ _ => trivial
      have h₂ := h₁.trans h₂
      rw [h₂.shm, (keyHash_view hk).2]
      exact ih (h₂.inv h) (h₂.env ▸ hlocks) (h₂.shm ▸ hL) _
    · exact ih (h₁.inv h) (h₁.env ▸ hlocks) (h₁.shm ▸ hL) _

/-- In every state that a cache can come to, when locks are acquired, and for every list of keys
`L`: the array that `immutable_cache_fetch` gives for `L` agrees with what it gives for the single
keys exactly when no key of `L` that it finds is the decimal form of an integer. For
`immutable_cache_exists`, a key that it finds must also not be in `L` twice. -/
theorem batches_agree (hc : Created pool w₀) (h : Run (Step pool z php) w₀ evs w)
    (hlocks : ∀ n, w₀.env.lockOk n = true) (hon : sp.On pool z) :
    (∀ key k t v w', readStr z (w.view sp) key = some k →
      fetchString sp php t key w = .ok v w' → v = w.valueOf sp php w.entries k) ∧
    (∀ key k r w', readStr z (w.view sp) key = some k →
      existsString sp key w = .ok r w' → r = (bound w.entries k).isSome) ∧
    ∀ zs L, StringsAt z (w.view sp) zs L →
      (∀ t r w', fetchArray sp php t zs w = .ok r w' →
        (Agrees (w.valueOf sp php w.entries) L r ↔
          ∀ k ∈ L, (w.valueOf sp php w.entries k).isSome = true → handleNumericStr k = none)) ∧
      ∀ r w', existsArray sp zs w = .ok r w' →
        (Agrees (fun k => if (bound w.entries k).isSome then some true else none) L r ↔
          (L.filter fun k => (bound w.entries k).isSome).Nodup ∧
            ∀ k ∈ L, (bound w.entries k).isSome = true → handleNumericStr k = none) := by
  obtain ⟨-, hdr, sz, hinv₀⟩ := hc.inv z
  obtain ⟨es, live, hinv, hle⟩ := run_kept h hinv₀
  have hlocks : ∀ n, w.env.lockOk n = true := hle.env ▸ hlocks
  have hz := hon.zend
  subst hz
  have hvalue : w.valueOf sp php w.entries = w.valueOf sp php es := by
    funext k
    rw [World.valueOf, hinv.bound_entries]
    rfl
  rw [hinv.view_eq sp, hinv.bound_entries, hvalue]
  refine ⟨fun key k t v w' hk hok => ((wp_fetchString hinv hon hlocks hk).of_ok hok :),
    fun key k r w' hk hok => (Wp.of_ok (wp_existsString hinv hon hlocks hk) hok).1,
    fun zs L hL => ⟨fun t r w' hok => ?_, fun r w' hok => ?_⟩⟩
  · have hwp : Wp (fetchArray sp php t zs) w (fun r _ => r = updateAll (w.valueOf sp php es) L [])
        fun _ => True := by
      rw [fetchArray, wp_bind]
      refine (Harmless.emalloc w).mono (fun _ w₁ h₁ => ?_) fun _ _ => trivial
      rw [← hinv.valueOf_congr hon php h₁.le]
      exact wp_fetchLoop (h₁.inv hinv) hon (h₁.env ▸ hlocks) (h₁.shm ▸ hL) []
    rw [Wp.of_ok hwp hok]
    exact agrees_updateAll
  · have hwp : Wp (existsArray sp zs) w
        (fun r _ => r = addNewAll (fun k => (bound es k).isSome) true L []) fun _ => True := by
      rw [existsArray, wp_bind]
      refine (Harmless.emalloc w).mono (fun _ w₁ h₁ => ?_) fun _ _ => trivial
      exact wp_existsLoop (h₁.inv hinv) hon (h₁.env ▸ hlocks) (h₁.shm ▸ hL) []
    rw [Wp.of_ok hwp hok]
    exact agrees_addNewAll _ true L

end

/-! ## Small batches -/

namespace Small

/-- A process whose string at 104 is `"1"`. -/
def digitSpace : Space := strSpace [49] (by decide)

/-- Store the number 1 under `"1"`. -/
def storeDigit : Request Bytes := ⟨digitSpace, 0, .store 104 (.long 1) 0⟩

/-- The small cache with the number 1 stored under `"1"`. -/
def digits : World Bytes :=
  match storeDigit.run pool Small.php (start (env none)) with
  | .ok _ w => w
  | .error _ w => w

/-- The cache with one number is reached by a run. -/
theorem digits_run : ∃ evs, Run (Step pool zend Small.php) (start (env none)) evs digits := by
  have hlegal : storeDigit.Legal pool zend (start (env none)) :=
    .scalar (space_on rfl rfl rfl) (by decide) (k := [49]) (by decide) rfl (by decide) _
  unfold digits
  split
  next o w₁ hr =>
    exact ⟨[⟨_, storeDigit, some o⟩], .cons ⟨rfl, hlegal, by rw [hr]; exact ⟨rfl, rfl⟩⟩ .nil⟩
  next u w₁ hr =>
    exact ⟨[⟨_, storeDigit, none⟩], .cons ⟨rfl, hlegal, by rw [hr]; exact ⟨rfl, rfl⟩⟩ .nil⟩

end Small

/-- Fetching `["a", "b", "a"]` and asking for `["b", "a"]` after the small run, which has stored `"a"`
alone. -/
theorem batches_agree_small : ∃ r w' b w'',
    fetchArray Small.sp Small.php 0 [.string 104 true, .string 136 true, .string 104 true]
      Small.used = .ok r w' ∧
    Agrees (Small.used.valueOf Small.sp Small.php Small.used.entries) [[97], [98], [97]] r ∧
    existsArray Small.sp [.string 136 true, .string 104 true] Small.used = .ok b w'' ∧
    Agrees (fun k => if (bound Small.used.entries k).isSome then some true else none)
      [[98], [97]] b := by
  have hfetch : Small.gives (fetchArray Small.sp Small.php 0
      [.string 104 true, .string 136 true, .string 104 true]) Small.used (fun _ => true) = true := by
    decide +kernel
  have hexists : Small.gives (existsArray Small.sp [.string 136 true, .string 104 true]) Small.used
      (fun _ => true) = true := by decide +kernel
  obtain ⟨r, w', hr, -⟩ := Small.of_gives hfetch
  obtain ⟨b, w'', hb, -⟩ := Small.of_gives hexists
  have ha : readStr Small.zend (Small.used.view Small.sp) 104 = some [97] := Small.readStr_a _
  have hb' : readStr Small.zend (Small.used.view Small.sp) 136 = some [98] :=
    readStr_eq_some.2 ⟨⟨false, 0, [98]⟩, Small.view_req (by decide) _, .inl rfl, rfl⟩
  have hagree := (batches_agree Small.created Small.run (by simp [Small.start_env, Small.env])
    Small.on).2.2
  have hnumeric : ∀ k ∈ [[97], [98], [97]], handleNumericStr k = none := by decide
  have hstrings : StringsAt Small.zend (Small.used.view Small.sp)
      [.string 104 true, .string 136 true, .string 104 true] [[97], [98], [97]] :=
    .cons ⟨104, true, rfl, ha⟩ (.cons ⟨136, true, rfl, hb'⟩ (.cons ⟨104, true, rfl, ha⟩ .nil))
  have hpair : StringsAt Small.zend (Small.used.view Small.sp)
      [.string 136 true, .string 104 true] [[98], [97]] :=
    .cons ⟨136, true, rfl, hb'⟩ (.cons ⟨104, true, rfl, ha⟩ .nil)
  refine ⟨r, w', b, w'', hr, ?_, hb, ?_⟩
  · exact ((hagree _ _ hstrings).1 0 r w' hr).2 fun k hk _ => hnumeric k hk
  · refine ((hagree _ _ hpair).2 b w'' hb).2 ⟨.filter _ (by decide), fun k hk _ => ?_⟩
    exact hnumeric k (List.mem_of_mem_tail hk)

/-- PHP code does not find the value of the key `"1"` in the array of `["1"]`, and the array of
`["1", "1"]` has two elements with one key. -/
theorem batches_disagree : ∃ w evs r w' b w'',
    Run (Step Small.pool Small.zend Small.php) (Small.start (Small.env none)) evs w ∧
      fetchArray Small.digitSpace Small.php 0 [.string 104 true] w = .ok r w' ∧
      ¬ Agrees (w.valueOf Small.digitSpace Small.php w.entries) [[49]] r ∧
      existsArray Small.digitSpace [.string 104 true, .string 104 true] w = .ok b w'' ∧
      ¬ Agrees (fun k => if (bound w.entries k).isSome then some true else none) [[49], [49]] b := by
  obtain ⟨evs, hrun⟩ := Small.digits_run
  have hfetch : Small.gives (fetchArray Small.digitSpace Small.php 0 [.string 104 true])
      Small.digits (fun r => (zendSymtableFind r [49]).isNone) = true := by decide +kernel
  have hvalue : (Small.digits.valueOf Small.digitSpace Small.php Small.digits.entries
      [49]).isSome = true := by decide +kernel
  have hexists : Small.gives (existsArray Small.digitSpace [.string 104 true, .string 104 true])
      Small.digits (fun b => decide ¬ (b.map Prod.fst).Nodup) = true := by decide +kernel
  obtain ⟨r, w', hr, hnone⟩ := Small.of_gives hfetch
  obtain ⟨b, w'', hb, hdup⟩ := Small.of_gives hexists
  refine ⟨_, evs, r, w', b, w'', hrun, hr, fun h => ?_, hb, fun h => of_decide_eq_true hdup h.nodup⟩
  rw [← h.find [49] (List.mem_singleton_self _)] at hvalue
  rw [Option.isNone_iff_eq_none] at hnone
  rw [hnone] at hvalue
  cases hvalue

end ImmutableCache
