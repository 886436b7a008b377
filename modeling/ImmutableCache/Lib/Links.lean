import Mathlib.Logic.Function.Basic
import Mathlib.Data.List.Nodup

/-!
# Doubly linked lists in a memory of links

A doubly linked list is a list of nodes whose consecutive members point at each other in two link
maps, `next` and `prev`. `Links next prev l` says so for the nodes of `l`, with no condition on
the links that leave the two ends. The edits a program makes, unlinking a node, linking a node in
and putting one node in another's place, are point updates of the two maps, and each has a lemma
that gives the list after the edit.
-/

variable {α : Type*}

/-- Consecutive nodes of the list point at each other. -/
def Links (next prev : α → α) : List α → Prop
  | x :: y :: rest => next x = y ∧ prev y = x ∧ Links next prev (y :: rest)
  | _ => True

namespace Links

variable {next prev next' prev' : α → α}

@[simp] theorem singleton (x : α) : Links next prev [x] := trivial

@[simp] theorem cons_cons {x y : α} {rest : List α} :
    Links next prev (x :: y :: rest) ↔ next x = y ∧ prev y = x ∧ Links next prev (y :: rest) :=
  Iff.rfl

/-- A linked list splits at any of its nodes, which belongs to both halves. -/
theorem append_cons {x : α} : ∀ {l₁ l₂ : List α},
    Links next prev (l₁ ++ x :: l₂) ↔
      Links next prev (l₁ ++ [x]) ∧ Links next prev (x :: l₂)
  | [], _ => by simp
  | [a], _ => by simp [and_assoc]
  | a :: b :: l₁, l₂ => by
    have ih : Links next prev (b :: l₁ ++ x :: l₂) ↔
      Links next prev (b :: l₁ ++ [x]) ∧ Links next prev (x :: l₂) := append_cons
    simp only [List.cons_append] at ih
    simp only [List.cons_append, cons_cons, ih, and_assoc]

/-- A list stays linked when the `next` links of all nodes but the last and the `prev` links of
all nodes but the first are kept. -/
theorem congr : ∀ {l : List α}, Links next prev l →
    (∀ x ∈ l.dropLast, next' x = next x) → (∀ x ∈ l.tail, prev' x = prev x) → Links next' prev' l
  | [], _, _, _ => trivial
  | [_], _, _, _ => trivial
  | x :: y :: rest, ⟨hn, hp, hl⟩, h1, h2 => by
    refine ⟨by rw [h1 x (by simp), hn], by rw [h2 y (by simp), hp], congr hl ?_ ?_⟩
    · exact fun z hz => h1 z (by simp [hz])
    · exact fun z hz => h2 z (List.mem_cons_of_mem _ hz)

/-- The node after `x` in a linked list is the one `next` gives. -/
theorem next_eq {x y : α} {l₁ l₂ : List α} (h : Links next prev (l₁ ++ x :: y :: l₂)) :
    next x = y := (append_cons.1 h).2.1

/-- The node before `y` in a linked list is the one `prev` gives. -/
theorem prev_eq {x y : α} {l₁ l₂ : List α} (h : Links next prev (l₁ ++ x :: y :: l₂)) :
    prev y = x := (append_cons.1 h).2.2.1

/-- Keeping every `next` link but the one of `x`, the last node, keeps the links up to `x`. -/
theorem init_congr {x : α} {l : List α} (h : Links next prev (l ++ [x])) (hd : (l ++ [x]).Nodup)
    (h1 : ∀ a, a ≠ x → a ∈ l → next' a = next a) (h2 : ∀ a ∈ (l ++ [x]).tail, prev' a = prev a) :
    Links next' prev' (l ++ [x]) := by
  refine h.congr (fun a ha => ?_) h2
  rw [List.dropLast_concat] at ha
  refine h1 a ?_ ha
  rintro rfl
  exact (List.nodup_append.1 hd).2.2 a ha a (by simp) rfl

/-- Keeping every `prev` link but the one of `x`, the first node, keeps the links from `x` on. -/
theorem tail_congr {x : α} {l : List α} (h : Links next prev (x :: l)) (hd : (x :: l).Nodup)
    (h1 : ∀ a ∈ (x :: l).dropLast, next' a = next a) (h2 : ∀ a, a ≠ x → a ∈ l → prev' a = prev a) :
    Links next' prev' (x :: l) := by
  refine h.congr h1 fun a ha => h2 a ?_ ha
  rintro rfl
  exact (List.nodup_cons.1 hd).1 ha

/-! ## Edits -/

variable [DecidableEq α]

/-- Unlinking `y` from between `x` and `z`. -/
theorem unlink {x y z : α} {l₁ l₂ : List α} (h : Links next prev (l₁ ++ x :: y :: z :: l₂))
    (hd : (l₁ ++ x :: y :: z :: l₂).Nodup) :
    Links (Function.update next x z) (Function.update prev z x) (l₁ ++ x :: z :: l₂) := by
  have hd' : (l₁ ++ x :: z :: l₂).Nodup := hd.sublist (by simp)
  obtain ⟨hl, hr⟩ := append_cons.1 h
  obtain ⟨-, -, -, -, hr⟩ := hr
  have hdl : (l₁ ++ [x]).Nodup := hd'.sublist (by simp)
  have hdr : (z :: l₂).Nodup := hd'.sublist (by simp)
  have hne : ∀ a ∈ l₁ ++ [x], ∀ b ∈ z :: l₂, a ≠ b := by
    rw [List.append_cons] at hd'
    exact (List.nodup_append.1 hd').2.2
  refine append_cons.2 ⟨?_, by simp, by simp, ?_⟩
  · refine hl.init_congr hdl (fun a ha _ => by simp [ha]) fun a ha => ?_
    rw [Function.update_of_ne (hne a (List.mem_of_mem_tail ha) z (by simp))]
  · refine hr.tail_congr hdr (fun a ha => ?_) fun a ha _ => by simp [ha]
    rw [Function.update_of_ne (hne x (by simp) a (List.dropLast_subset _ ha)).symm]

/-- Linking a new node `y` in between `x` and `z`. -/
theorem link {x y z : α} {l₁ l₂ : List α} (h : Links next prev (l₁ ++ x :: z :: l₂))
    (hd : (l₁ ++ x :: y :: z :: l₂).Nodup) :
    Links (Function.update (Function.update next y z) x y)
      (Function.update (Function.update prev y x) z y) (l₁ ++ x :: y :: z :: l₂) := by
  obtain ⟨hl, -, -, hr⟩ := append_cons.1 h
  have hd' : (l₁ ++ x :: z :: l₂).Nodup := hd.sublist (by simp)
  have hdl : (l₁ ++ [x]).Nodup := hd'.sublist (by simp)
  have hdr : (z :: l₂).Nodup := hd'.sublist (by simp)
  have hne : ∀ a ∈ l₁ ++ [x], ∀ b ∈ y :: z :: l₂, a ≠ b := by
    rw [List.append_cons] at hd
    exact (List.nodup_append.1 hd).2.2
  have hny : ∀ a ∈ z :: l₂, a ≠ y := by
    rintro a ha rfl
    exact (List.nodup_cons.1 (hd.sublist (by simp) : (a :: z :: l₂).Nodup)).1 ha
  have hxy := hne x (by simp) y (by simp)
  refine append_cons.2 ⟨?_, by simp, ?_, ?_, by simp, ?_⟩
  · refine hl.init_congr hdl (fun a ha hm => ?_) fun a ha => ?_
    · rw [Function.update_of_ne ha, Function.update_of_ne (hne a (by simp [hm]) y (by simp))]
    · have hm := List.mem_of_mem_tail ha
      rw [Function.update_of_ne (hne a hm z (by simp)),
        Function.update_of_ne (hne a hm y (by simp))]
  · rw [Function.update_of_ne (hny z (by simp)).symm, Function.update_self]
  · rw [Function.update_of_ne hxy.symm, Function.update_self]
  · refine hr.tail_congr hdr (fun a ha => ?_) fun a ha hm => ?_
    · have hm := List.dropLast_subset _ ha
      rw [Function.update_of_ne (hne x (by simp) a (List.mem_cons_of_mem _ hm)).symm,
        Function.update_of_ne (hny a hm)]
    · rw [Function.update_of_ne ha, Function.update_of_ne (hny a (by simp [hm]))]

/-- Unlinking a node that is at neither end, by its own two links. -/
theorem unlink_mem {y : α} {l₁ l₂ : List α} (h : Links next prev (l₁ ++ y :: l₂))
    (hd : (l₁ ++ y :: l₂).Nodup) (h1 : l₁ ≠ []) (h2 : l₂ ≠ []) :
    Links (Function.update next (prev y) (next y)) (Function.update prev (next y) (prev y))
      (l₁ ++ l₂) := by
  obtain ⟨z, l₂, rfl⟩ := List.exists_cons_of_ne_nil h2
  obtain ⟨l₁, x, rfl⟩ := List.eq_nil_or_concat l₁ |>.resolve_left h1
  simp only [List.concat_eq_append, List.append_assoc, List.cons_append, List.nil_append] at h hd ⊢
  have hn : next y = z := by
    rw [List.append_cons] at h
    exact h.next_eq
  rw [prev_eq h, hn]
  exact h.unlink hd

/-- Putting a new node `w` in the place of a node `y` that is at neither end. -/
theorem replace {y w : α} {l₁ l₂ : List α} (h : Links next prev (l₁ ++ y :: l₂))
    (hd : (l₁ ++ y :: l₂).Nodup) (hw : w ∉ l₁ ++ y :: l₂) (h1 : l₁ ≠ []) (h2 : l₂ ≠ []) :
    Links (Function.update (Function.update next w (next y)) (prev y) w)
      (Function.update (Function.update prev w (prev y)) (next y) w) (l₁ ++ w :: l₂) := by
  have hu := h.unlink_mem hd h1 h2
  obtain ⟨z, l₂, rfl⟩ := List.exists_cons_of_ne_nil h2
  obtain ⟨l₁, x, rfl⟩ := List.eq_nil_or_concat l₁ |>.resolve_left h1
  simp only [List.concat_eq_append, List.append_assoc, List.cons_append, List.nil_append,
    List.mem_append, List.mem_cons, not_or] at h hd hu hw ⊢
  have hn : next y = z := by
    rw [List.append_cons] at h
    exact h.next_eq
  rw [prev_eq h, hn] at hu ⊢
  have hd' : (l₁ ++ x :: w :: z :: l₂).Nodup := by
    have h0 : (l₁ ++ x :: z :: l₂).Nodup := hd.sublist (by simp)
    have hp : (l₁ ++ x :: w :: z :: l₂).Perm (w :: (l₁ ++ x :: z :: l₂)) := by
      rw [List.append_cons, List.append_cons l₁ x (z :: l₂)]
      exact List.perm_middle
    rw [hp.nodup_iff, List.nodup_cons]
    simp only [List.mem_append, List.mem_cons, not_or]
    exact ⟨⟨hw.1, hw.2.1, hw.2.2.2⟩, h0⟩
  have := hu.link hd'
  rwa [Function.update_comm (Ne.symm hw.2.1), Function.update_idem,
    Function.update_comm (Ne.symm hw.2.2.2.1), Function.update_idem] at this

end Links
