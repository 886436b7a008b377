import ImmutableCache.Lib.Run
import Mathlib.Data.List.Nodup

/-!
# Linearizability

Processes call the operations of a shared object at the same time. The history of such a run, a list
of calls and returns, is linearizable if the calls can be put into one order in which they could have
been made one after the other, with the results that they have returned, and in which a call that had
returned before another one was made stands before it (`Linearization`). A run is followed by three
rules: a call is made, it takes effect at one point, and it returns.
-/

namespace Linear

/-- A call, with a number that no other call has, and its return. -/
inductive Action (α ρ : Type*)
  | call (id : Nat) (a : α)
  | ret (id : Nat) (r : ρ)

/-- In the list, `x` stands somewhere before `y`. -/
def Precedes {τ : Type*} (l : List τ) (x y : τ) : Prop := [x, y].Sublist l

section

variable {τ : Type*} {l l' : List τ} {x y z : τ}

/-- What stands before something stays so when the list grows. -/
theorem Precedes.append (h : Precedes l x y) (l' : List τ) : Precedes (l ++ l') x y :=
  h.trans (List.sublist_append_left _ _)

/-- Both are in the list. -/
theorem Precedes.mem (h : Precedes l x y) : x ∈ l ∧ y ∈ l := ⟨h.subset (by simp), h.subset (by simp)⟩

/-- Everything stands before what is put at the end. -/
theorem Precedes.concat (h : x ∈ l) (y : τ) : Precedes (l ++ [y]) x y :=
  (List.singleton_sublist.2 h).append (.refl [y])

/-- Of two elements one stands before the other. -/
theorem Precedes.total (hx : x ∈ l) (hy : y ∈ l) (hne : x ≠ y) : Precedes l x y ∨ Precedes l y x := by
  induction l with
  | nil => cases hx
  | cons z l ih =>
    rcases List.mem_cons.1 hx with rfl | hx
    · have hy := (List.mem_cons.1 hy).resolve_left (Ne.symm hne)
      exact .inl (.cons_cons _ (List.singleton_sublist.2 hy))
    · rcases List.mem_cons.1 hy with rfl | hy
      · have hx := (List.mem_cons.1 hx).resolve_left hne
        exact .inr (.cons_cons _ (List.singleton_sublist.2 hx))
      · exact (ih hx hy).imp (fun h => .cons _ h) fun h => .cons _ h

/-- Only the new element at the end has more before it than it had. -/
theorem Precedes.of_concat (h : Precedes (l ++ [z]) x y) (hy : y ≠ z) : Precedes l x y := by
  obtain ⟨l₁, l₂, he, h₁, h₂⟩ := List.sublist_append_iff.1 h
  rcases List.sublist_singleton.1 h₂ with rfl | rfl
  · rw [List.append_nil] at he
    rwa [Precedes, he]
  · have hlast := congrArg List.getLast? he
    rw [List.getLast?_append] at hlast
    exact absurd (Option.some.inj hlast) hy

end

variable {α ρ σ : Type*}

/-- Calls that are made one after the other and return at once, numbered from `n`. -/
def sequential : Nat → List (α × ρ) → List (Action α ρ)
  | _, [] => []
  | n, (a, r) :: xs => .call n a :: .ret n r :: sequential (n + 2) xs

/-- The calls of the history `h`, in the order `seq`, are calls made one after the other, which lead
from `m₀` to `m`. A call that has not returned yet is one of them or not. -/
structure Linearization (spec : σ → α × ρ → σ → Prop) (h : List (Action α ρ)) (m₀ : σ)
    (seq : List (Nat × α × ρ)) (m : σ) : Prop where
  numbered : ∀ id a b, .call id a ∈ h → .call id b ∈ h → a = b
  nodup : (seq.map Prod.fst).Nodup
  called : ∀ x ∈ seq, .call x.1 x.2.1 ∈ h
  completed : ∀ id r, .ret id r ∈ h → ∃ a, (id, a, r) ∈ seq
  order : ∀ x ∈ seq, ∀ y ∈ seq, ∀ r a, Precedes h (.ret x.1 r) (.call y.1 a) → Precedes seq x y
  run : Run spec m₀ (seq.map Prod.snd) m

namespace Linearization

variable {spec : σ → α × ρ → σ → Prop} {h : List (Action α ρ)} {m₀ m m' : σ}
  {seq : List (Nat × α × ρ)} {id : Nat} {a a' : α} {r r' : ρ} {x y : Nat × α × ρ}

/-- No calls. -/
theorem nil (spec : σ → α × ρ → σ → Prop) (m₀ : σ) : Linearization spec [] m₀ [] m₀ where
  numbered := by simp
  nodup := List.nodup_nil
  called := by simp
  completed := by simp
  order := by simp
  run := .nil

/-- A number stands for one call. -/
theorem unique (hl : Linearization spec h m₀ seq m) (hx : x ∈ seq) (hy : y ∈ seq)
    (hxy : x.1 = y.1) : x = y := List.inj_on_of_nodup_map hl.nodup hx hy hxy

/-- A call that has returned is in the order, with its result. -/
theorem result (hl : Linearization spec h m₀ seq m) (hcall : .call id a ∈ h) (hret : .ret id r ∈ h) :
    (id, a, r) ∈ seq := by
  obtain ⟨b, hb⟩ := hl.completed id r hret
  rwa [hl.numbered id a b hcall (hl.called _ hb)]

/-- A call is made. -/
theorem call (hl : Linearization spec h m₀ seq m) (hfresh : ∀ a, .call id a ∉ h) (a : α) :
    Linearization spec (h ++ [.call id a]) m₀ seq m where
  numbered i b c hb hc := by
    rcases List.mem_append.1 hb with hb | hb <;> rcases List.mem_append.1 hc with hc | hc
    · exact hl.numbered i b c hb hc
    · cases List.mem_singleton.1 hc
      exact absurd hb (hfresh b)
    · cases List.mem_singleton.1 hb
      exact absurd hc (hfresh c)
    · cases List.mem_singleton.1 hb
      cases List.mem_singleton.1 hc
      rfl
  nodup := hl.nodup
  called x hx := List.mem_append_left _ (hl.called x hx)
  completed id' r hr := hl.completed id' r (by simpa using hr)
  order x hx y hy r b hxy := by
    refine hl.order x hx y hy r b (hxy.of_concat ?_)
    rintro he
    cases he
    exact hfresh _ (hl.called y hy)
  run := hl.run

/-- A call that has been made and has not returned takes effect. -/
theorem take (hl : Linearization spec h m₀ seq m) (hcall : .call id a ∈ h)
    (hid : id ∉ seq.map Prod.fst) (hspec : spec m (a, r) m') :
    Linearization spec h m₀ (seq ++ [(id, a, r)]) m' := by
  have hret {x : Nat × α × ρ} {r : ρ} (hr : .ret x.1 r ∈ h) : x.1 ∈ seq.map Prod.fst := by
    obtain ⟨b, hb⟩ := hl.completed _ _ hr
    exact List.mem_map.2 ⟨_, hb, rfl⟩
  refine ⟨hl.numbered, ?_, ?_, ?_, ?_, ?_⟩
  · rw [List.map_append]
    refine List.nodup_append.2 ⟨hl.nodup, by simp, ?_⟩
    rintro i hi j hj rfl
    obtain rfl : i = id := by simpa using hj
    exact hid hi
  · intro x hx
    rcases List.mem_append.1 hx with hx | hx
    · exact hl.called x hx
    · obtain rfl := List.mem_singleton.1 hx
      exact hcall
  · intro i s hr
    obtain ⟨b, hb⟩ := hl.completed i s hr
    exact ⟨b, List.mem_append_left _ hb⟩
  · intro x hx y hy s b hxy
    rcases List.mem_append.1 hx with hx | hx
    · rcases List.mem_append.1 hy with hy | hy
      · exact (hl.order x hx y hy s b hxy).append _
      · obtain rfl := List.mem_singleton.1 hy
        exact .concat hx _
    · -- the call itself has not returned
      obtain rfl := List.mem_singleton.1 hx
      exact absurd (hret hxy.mem.1) hid
  · rw [List.map_append]
    exact hl.run.append (.cons hspec .nil)

/-- A call returns what it has had as its result when it took effect. -/
theorem ret (hl : Linearization spec h m₀ seq m) (hx : (id, a, r) ∈ seq) :
    Linearization spec (h ++ [.ret id r]) m₀ seq m where
  numbered i b c hb hc := hl.numbered i b c (by simpa using hb) (by simpa using hc)
  nodup := hl.nodup
  called x hx := List.mem_append_left _ (hl.called x hx)
  completed i s hr := by
    rcases List.mem_append.1 hr with hr | hr
    · exact hl.completed i s hr
    · cases List.mem_singleton.1 hr
      exact ⟨a, hx⟩
  order x hx y hy s b hxy := hl.order x hx y hy s b (hxy.of_concat (by simp))
  run := hl.run

end Linearization

end Linear
