import ImmutableCache.Cache.Publish
import ImmutableCache.Cache.History

/-!
# Preloading

`immutable_cache_cache_preload` stores, for each file `NAME.data` in a directory, what the file
unserializes to, under the key `NAME`. It is a run of stores (`wp_preloadLoop`), so what is true of
all runs is true of it. It is called in `MINIT` only, before the engine has set
`EG(uninitialized_zval)` to null: of a file that cannot be read, is empty or does not unserialize
nothing is stored.
-/

namespace ImmutableCache

open Bail

/-! ## File names -/

/-- `strrchr`: the string from the last `c` on. -/
def strrchr (c : UInt8) : Bytes → Option Bytes
  | [] => none
  | x :: s => (strrchr c s).or (if x = c then some (x :: s) else none)

/-- What the directory, its files and the engine give to the preloading. -/
structure Preloader where
  /-- `MAXPATHLEN`. -/
  maxPathLen : Nat
  /-- `DEFAULT_SLASH`. -/
  defaultSlash : UInt8
  /-- The names in the directory at a path, in the order of `php_alphasort`. -/
  scandir : Bytes → List Bytes
  /-- What `fread` reads of a file; `none` if `VCWD_STAT` or `malloc` fails. A file that has been found
  can be opened. -/
  fread : Bytes → Option Bytes
  /-- `php_var_unserialize`. -/
  varUnserialize : Bytes → Option Zval
  /-- The address that `zend_string_init` gives to a key. -/
  stringInit : Bytes → Nat
  /-- The address space of the process, and the time, when it stores under a key. -/
  sp : Bytes → Space
  time : Bytes → Nat
  depth : Nat

namespace Preloader

variable (pr : Preloader)

/-- The extension of a data file, `".data"`. -/
def dataExt : Bytes := [46, 100, 97, 116, 97]

/-- The check for the extension in `immutable_cache_cache_preload`. -/
def isDataFile (name : Bytes) : Bool :=
  match strrchr 46 name with
  | none => false
  | some p => p = dataExt

/-- The path of a file, as `snprintf` makes it. -/
def file (path name : Bytes) : Bytes :=
  (path ++ pr.defaultSlash :: name).take (pr.maxPathLen - 1)

/-- The key that `immutable_cache_load_data` cuts out of the path of a data file: what is between
the last slash and the last dot. -/
def dataKey (dataFile : Bytes) : Option Bytes :=
  match strrchr pr.defaultSlash dataFile with
  | some (_ :: c :: s) =>
    let key := (c :: s).take (pr.maxPathLen - 1)
    (strrchr 46 key).map fun p => key.take (key.length - p.length)
  | _ => none

/-- The key under which the file with a name is loaded, if it is. -/
def preloadKey (path name : Bytes) : Option Bytes :=
  if isDataFile name then pr.dataKey (pr.file path name) else none

end Preloader

variable {υ : Type} {z : Zend} {pool : Pool} {php : Serializer υ} {sp : Space}
  {w w' w₀ w₁ : World υ} {es es' : List (Nat × Bytes)} {live live' : Nat → Option Nat}
  {depth p : Nat} {orig : Entry} {k : Bytes} {c : Ctxt} {e : Event υ} {evs loads : List (Event υ)}

/-! ## Where bindings come from -/

/-- Later, a process can read what it could read before. -/
theorem World.Le.extends (hle : w.Le es w' es') (hinv : w.Inv pool z es live)
    (hinv' : w'.Inv pool z es' live') (sp : Space) : Extends (w.view sp) (w'.view sp) := by
  rw [hinv.view_eq, hinv'.view_eq]
  exact hle.view hinv sp

/-- Stores stay legal. -/
theorem Request.Legal.store_later {r : Request υ} {key t : Nat} {val : Zval}
    (h : r.Legal pool z w) (hcall : r.call = .store key val t)
    (hext : Extends (w.view r.sp) (w'.view r.sp)) : r.Legal pool z w' := by
  obtain ⟨hon, hstore⟩ := h
  rw [hcall] at hstore
  obtain ⟨k, hw⟩ := hstore
  refine ⟨hon, ?_⟩
  rw [hcall]
  exact ⟨k, hw.mono hext fun q hq => if_neg (by rw [hq]; decide)⟩

/-- The value of an added entry stands for the value that was stored. -/
theorem Added.standsFor (h : Added pool sp php depth es live w orig k c p w')
    (hinv : w.Inv pool sp.zend es live) (hw : WellEntry sp (view sp w.shm es) depth orig k) :
    StandsFor sp (view sp w'.shm (es ++ [(p, k)])) (w.serializer.getD php) depth orig.val
      (entryAt w'.shm p).val := by
  have hext : Extends (view sp w.shm es) (sp.deref w.shm) := extends_view fun _ _ _ _ ho => ho
  obtain ⟨hst, -⟩ := persistSize_stored hw hext h.sized
  have hval := h.value
  unfold Represents at hval
  cases hst with
  | direct hu ha =>
    rw [hu, if_neg Bool.false_ne_true] at hval
    obtain ⟨a, ha, hread⟩ := hval
    exact .inl ⟨a, readValue_mono (h.le.view hinv sp) ha, hread⟩
  | serialized hu hbuf _ hser =>
    rw [hu, if_pos rfl] at hval
    obtain ⟨q, buf, hv, hbuf', hread⟩ := hval
    obtain rfl := Option.some.inj (hbuf.symm.trans hbuf')
    exact .inr ⟨q, _, _, _, hv, hread, hser⟩

/-- A published entry keeps its value. -/
theorem World.Le.val (h : w.Le es w' es') (hinv : w.Inv pool z es live) (hp : (p, k) ∈ es) :
    (entryAt w'.shm p).val = (entryAt w.shm p).val := by
  rw [(h.evolves.entryAt (hinv.pub_entry hp)).eq]

/-- The event is a store of the key `k`, and in the memory `shm` with the entries `es` the entry at
`p` stands for its value. -/
def Event.Stands (e : Event υ) (ser : Serializer υ) (shm : Mem) (es : List (Nat × Bytes))
    (k : Bytes) (p : Nat) : Prop :=
  ∃ key val t, e.req.call = .store key val t ∧ e.req.key e.before = some k ∧
    StandsFor e.req.sp (view e.req.sp shm es) ser e.req.depth val (entryAt shm p).val

/-- The entry stands for the value that was stored also later. -/
theorem Event.Stands.later {ser : Serializer υ} (h : e.Stands ser w.shm es k p)
    (hinv : w.Inv pool z es live) (hle : w.Le es w' es') (hp : (p, k) ∈ es) :
    e.Stands ser w'.shm es' k p := by
  obtain ⟨key, val, t, hcall, hk, hval⟩ := h
  refine ⟨key, val, t, hcall, hk, ?_⟩
  rw [hle.val hinv hp]
  exact hval.mono (hle.view hinv _)

namespace Preloader

/-- `EG(uninitialized_zval)` in `MINIT`: it becomes null when the executor starts, for the first
request. -/
def uninitializedZval : Zval := .undef

variable (pr : Preloader) {path : Bytes} {names : List Bytes} {result : Bool}

/-- `data_unserialize`. -/
def dataUnserialize (filename : Bytes) : Zval :=
  match pr.fread filename with
  | none => uninitializedZval
  | some contents =>
    if contents.length < 1 then uninitializedZval
    else (pr.varUnserialize contents).getD uninitializedZval

/-- `immutable_cache_load_data`. -/
def loadData (pool : Pool) (php : Serializer υ) (dataFile : Bytes) : Op υ Bool :=
  match pr.dataKey dataFile with
  | none => pure false
  | some key => do
    let data := pr.dataUnserialize dataFile
    if data ≠ .undef then
      let _ ← cacheStore pool (pr.sp key) php pr.depth (pr.stringInit key) data (pr.time key)
    pure true

/-- The loop of `immutable_cache_cache_preload` over the names. -/
def preloadLoop (pool : Pool) (php : Serializer υ) (path : Bytes) : List Bytes → Bool → Op υ Bool
  | [], result => pure result
  | name :: names, result =>
    if isDataFile name then do
      if ← pr.loadData pool php (pr.file path name) then preloadLoop pool php path names true
      else preloadLoop pool php path names result
    else preloadLoop pool php path names result

/-- `immutable_cache_cache_preload`. -/
def cachePreload (pool : Pool) (php : Serializer υ) (path : Bytes) : Op υ Bool :=
  pr.preloadLoop pool php path (pr.scandir path) false

/-- The store for the data file with a name and a key. -/
def request (υ : Type) (path name key : Bytes) : Request υ :=
  ⟨pr.sp key, pr.depth,
    .store (pr.stringInit key) (pr.dataUnserialize (pr.file path name)) (pr.time key)⟩

/-- The file with a name has a value, and the name is that of a data file with a key `k`. -/
def Loads (path name k : Bytes) : Prop :=
  pr.dataUnserialize (pr.file path name) ≠ .undef ∧ pr.preloadKey path name = some k

/-- The stores for the data files with names in a list that have a value. -/
def requests (υ : Type) (path : Bytes) (names : List Bytes) : List (Request υ) :=
  names.filterMap fun name =>
    if pr.dataUnserialize (pr.file path name) = .undef then none
    else (pr.preloadKey path name).map (pr.request υ path name)

/-- Loading a data file without a value changes nothing. -/
theorem wp_loadData_undef {name : Bytes} (hk : pr.dataKey (pr.file path name) = some k)
    (hundef : pr.dataUnserialize (pr.file path name) = .undef) :
    Wp (pr.loadData pool php (pr.file path name)) w (fun r w' => r = true ∧ w' = w)
      fun _ => False := by
  rw [loadData, hk]
  dsimp only
  rw [if_neg (not_not_intro hundef)]
  exact ⟨rfl, rfl⟩

/-- Loading a data file with a value is a store. -/
theorem wp_loadData {name : Bytes} (hk : pr.dataKey (pr.file path name) = some k)
    (hdef : pr.dataUnserialize (pr.file path name) ≠ .undef)
    (hlegal : (pr.request υ path name k).Legal pool z w) :
    Wp (pr.loadData pool php (pr.file path name)) w (fun r w' => r = true ∧
      ∃ e, Step pool z php w e w' ∧ e.req = pr.request υ path name k ∧ e.outcome ≠ none)
      fun _ => True := by
  rw [loadData, hk]
  dsimp only
  rw [if_pos hdef]
  have hstep (b : Bool) (w' : World υ) (hrun : cacheStore pool (pr.sp k) php pr.depth
      (pr.stringInit k) (pr.dataUnserialize (pr.file path name)) (pr.time k) w = .ok b w') :
      Step pool z php w ⟨w, pr.request υ path name k, some (.stored b)⟩ w' := by
    refine ⟨rfl, hlegal, ?_⟩
    have hstored : (pr.request υ path name k).run pool php w = .ok (.stored b) w' := by
      simp only [Request.run, request, Functor.map, EStateM.map, hrun]
    rw [hstored]
    exact ⟨rfl, rfl⟩
  rw [wp_bind]
  unfold Wp
  cases hrun : cacheStore pool (pr.sp k) php pr.depth (pr.stringInit k)
      (pr.dataUnserialize (pr.file path name)) (pr.time k) w with
  | ok b w' => exact ⟨rfl, _, hstep b w' hrun, rfl, by simp⟩
  | error u w' => trivial

/-- The loop is a run of the stores for the data files with a value, in the order of their names. -/
theorem wp_preloadLoop (hinv : w.Inv pool z es live)
    (hlegal : ∀ name ∈ names, ∀ k, pr.Loads path name k →
      (pr.request υ path name k).Legal pool z w) :
    Wp (pr.preloadLoop pool php path names result) w (fun r w' =>
      (r = true ↔ result = true ∨ ∃ name ∈ names, pr.preloadKey path name ≠ none) ∧
      ∃ loads, Run (Step pool z php) w loads w' ∧
        loads.map Event.req = pr.requests υ path names ∧ ∀ e ∈ loads, e.outcome ≠ none)
      fun _ => True := by
  induction names generalizing w es live result with
  | nil => exact ⟨by simp, [], .nil, rfl, by simp⟩
  | cons name names ih =>
    have hlegal' : ∀ name ∈ names, ∀ k, pr.Loads path name k →
        (pr.request υ path name k).Legal pool z w := fun name hname => hlegal name (by simp [hname])
    -- a file that is not loaded changes nothing
    have hskip (hno : pr.preloadKey path name = none) :
        Wp (pr.preloadLoop pool php path names result) w (fun r w' =>
          (r = true ↔ result = true ∨ ∃ n ∈ name :: names, pr.preloadKey path n ≠ none) ∧
          ∃ loads, Run (Step pool z php) w loads w' ∧
            loads.map Event.req = pr.requests υ path (name :: names) ∧
            ∀ e ∈ loads, e.outcome ≠ none) fun _ => True := by
      refine (ih hinv hlegal').mono (fun r w' h => ?_) fun _ h => h
      simpa [hno, requests] using h
    rw [preloadLoop]
    split
    next hdata =>
      rw [wp_bind]
      cases hk : pr.dataKey (pr.file path name) with
      | none =>
        rw [loadData, hk]
        exact hskip (by rw [preloadKey, if_pos hdata, hk])
      | some k =>
        have hpk : pr.preloadKey path name = some k := by rw [preloadKey, if_pos hdata, hk]
        by_cases hundef : pr.dataUnserialize (pr.file path name) = .undef
        · refine (pr.wp_loadData_undef hk hundef).mono (fun r w₁ h => ?_) fun _ => False.elim
          obtain ⟨rfl, rfl⟩ := h
          refine (ih hinv hlegal').mono (fun r w' h => ?_) fun _ h => h
          obtain ⟨hr, loads, hrun, hmap, hrets⟩ := h
          refine ⟨by simp [hr, hpk], loads, hrun, ?_, hrets⟩
          simp [requests, hundef, hmap]
        refine (pr.wp_loadData hk hundef (hlegal name (by simp) k ⟨hundef, hpk⟩)).mono
          (fun r w₁ h => ?_) fun _ _ => trivial
        obtain ⟨rfl, e, hstep, hreq, hret⟩ := h
        obtain ⟨es₁, live₁, heff⟩ := hstep.effect hinv
        obtain ⟨hinv₁, hle₁⟩ := heff.kept
        refine (ih hinv₁ fun n hn k' hk' => ?_).mono (fun r w' h => ?_) fun _ h => h
        · exact (hlegal' n hn k' hk').store_later rfl (hle₁.extends hinv hinv₁ _)
        obtain ⟨hr, loads, hrun, hmap, hrets⟩ := h
        refine ⟨by simp [hr, hpk], e :: loads, .cons hstep hrun, ?_, by simpa [hret] using hrets⟩
        simp [requests, hundef, hpk, hreq, hmap]
    next hdata => exact hskip (by rw [preloadKey, if_neg hdata])

end Preloader

/-! ## A small directory -/

namespace Small

end Small

end ImmutableCache
