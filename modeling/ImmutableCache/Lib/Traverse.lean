import Mathlib.Data.Set.Insert
import Mathlib.Logic.Relation

/-!
# Traversing a graph once

A traversal of a graph keeps the set of the nodes that it has visited and does not enter a node a
second time. `Visits next roots s s'` says that a traversal of everything behind `roots` has gone
from the visited nodes `s` to the visited nodes `s'`. Whatever the order and however often a node is
met, a traversal that starts with nothing visited visits exactly the nodes that can be reached
(`Visits.mem_iff`).
-/

namespace Traverse

open Relation

variable {α : Type*} {next : α → Set α} {roots roots' s s₁ s' : Set α} {p : α}

/-- Everything behind `roots` has been visited, from `s` on. -/
structure Visits (next : α → Set α) (roots s s' : Set α) : Prop where
  mono : s ⊆ s'
  covers : roots ⊆ s'
  /-- Nothing else has been visited. -/
  reached : ∀ p ∈ s', p ∈ s ∨ ∃ r ∈ roots, ReflTransGen (fun p q => q ∈ next p) r p
  /-- What has been visited has been left again. -/
  closed : ∀ p ∈ s', p ∉ s → next p ⊆ s'

namespace Visits

/-- There is nothing to do if all the roots have been visited before. -/
theorem seen (h : roots ⊆ s) : Visits next roots s s where
  mono := subset_rfl
  covers := h
  reached _ hp := .inl hp
  closed _ hp hn := absurd hp hn

/-- One traversal after the other. -/
theorem trans (h : Visits next roots s s₁) (h' : Visits next roots' s₁ s') :
    Visits next (roots ∪ roots') s s' where
  mono := h.mono.trans h'.mono
  covers := Set.union_subset (h.covers.trans h'.mono) h'.covers
  reached p hp := by
    rcases h'.reached p hp with hp | ⟨r, hr, hp⟩
    · refine (h.reached p hp).imp_right ?_
      rintro ⟨r, hr, hp⟩
      exact ⟨r, .inl hr, hp⟩
    · exact .inr ⟨r, .inr hr, hp⟩
  closed p hp hn := by
    by_cases hs : p ∈ s₁
    · exact (h.closed p hs hn).trans h'.mono
    · exact h'.closed p hp hs

/-- A node is entered, and then everything behind it is visited. -/
theorem node (h : Visits next (next p) (insert p s) s') : Visits next {p} s s' where
  mono := (Set.subset_insert p s).trans h.mono
  covers := Set.singleton_subset_iff.2 (h.mono (Set.mem_insert p s))
  reached q hq := by
    rcases h.reached q hq with hq | ⟨r, hr, hq⟩
    · rcases Set.mem_insert_iff.1 hq with rfl | hq
      · exact .inr ⟨q, rfl, .refl⟩
      · exact .inl hq
    · exact .inr ⟨p, rfl, .head hr hq⟩
  closed q hq hn := by
    by_cases hqp : q = p
    · exact hqp ▸ h.covers
    · exact h.closed q hq fun hin => (Set.mem_insert_iff.1 hin).elim hqp hn

/-- A traversal from the start visits what can be reached from the roots. -/
theorem mem_iff (h : Visits next roots ∅ s') :
    p ∈ s' ↔ ∃ r ∈ roots, ReflTransGen (fun p q => q ∈ next p) r p := by
  refine ⟨fun hp => (h.reached p hp).resolve_left (Set.notMem_empty p), ?_⟩
  rintro ⟨r, hr, hp⟩
  induction hp with
  | refl => exact h.covers hr
  | tail _ hq ih => exact h.closed _ ih (Set.notMem_empty _) hq

end Visits

end Traverse
