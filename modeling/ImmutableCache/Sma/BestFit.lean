import ImmutableCache.Sma.Run

/-!
# The block that `find_block` chooses

The first loop of `find_block` ends on every heap (`FindFit`), at the first block of the free list
that is large enough or at the end of the list. The second loop looks at the next three entries of
the list, of which the `last` sentinel may be one, and settles on the earliest of the smallest
blocks that are large enough (`BestFit`).
-/

namespace ImmutableCache

open Segment

variable {s : Segment} {cs : List Chunk} {order : List Nat} {r : Nat}

/-- The first loop of `find_block`, from `prv`, ends with the result `found`. -/
inductive FindFit (s : Segment) (r : Nat) : Nat → Option Nat → Prop
  | done {prv : Nat} : s.fnext prv = 0 → FindFit s r prv none
  | found {prv : Nat} : s.fnext prv ≠ 0 → r ≤ s.size (s.fnext prv) →
      FindFit s r prv (some (s.fnext prv))
  | next {prv : Nat} {found : Option Nat} : s.fnext prv ≠ 0 → s.size (s.fnext prv) < r →
      FindFit s r (s.fnext prv) found → FindFit s r prv found

/-- `o` is the earliest of the smallest blocks of at least `r` bytes among the nodes `l`. -/
def BestFit (s : Segment) (r : Nat) (l : List Nat) (o : Nat) : Prop :=
  r ≤ s.size o ∧ ∃ l₁ l₂, l = l₁ ++ o :: l₂ ∧
    (∀ x ∈ l₁, r ≤ s.size x → s.size o < s.size x) ∧
    ∀ x ∈ l₂, r ≤ s.size x → s.size o ≤ s.size x

/-- Along a list of nodes that ends in a node without a successor, the loop ends. -/
theorem FindFit.of_links (hr : 0 < r) : ∀ {l : List Nat} {prv z : Nat},
    Links s.fnext s.fprev (prv :: (l ++ [z])) → (∀ o ∈ l ++ [z], 0 < o) → s.fnext z = 0 →
    s.size z = 0 → FindFit s r prv (l.find? (r ≤ s.size ·))
  | [], prv, z, hl, hp, hz, hs => by
    have hn : s.fnext prv = z := hl.1
    have hz0 := hp z (by simp)
    have hend : FindFit s r z none := .done hz
    exact .next (by omega) (by rw [hn, hs]; exact hr) (by rw [hn]; exact hend)
  | o :: l, prv, z, hl, hp, hz, hs => by
    obtain ⟨hn, -, hl'⟩ := hl
    have ho : s.fnext prv ≠ 0 := by
      rw [hn]
      exact (hp o (by simp)).ne'
    have ih : FindFit s r o (l.find? (r ≤ s.size ·)) :=
      of_links hr hl' (fun x hx => hp x (by simp [hx])) hz hs
    rw [List.find?_cons]
    cases hfit : decide (r ≤ s.size o) with
    | true =>
      have hfound : FindFit s r prv (some (s.fnext prv)) :=
        .found ho (by rw [hn]; exact of_decide_eq_true hfit)
      rwa [hn] at hfound
    | false =>
      have hlt : s.size (s.fnext prv) < r := by
        rw [hn]
        exact Nat.lt_of_not_le (of_decide_eq_false hfit)
      exact .next ho hlt (by rw [hn]; exact ih)

/-- The second loop settles on the earliest of the smallest blocks that are large enough. -/
theorem BestFit.foldl : ∀ {l : List Nat} {b : Nat}, r ≤ s.size b →
    BestFit s r (b :: l) (l.foldl (smaller s r) b)
  | [], b, hb => ⟨hb, [], [], rfl, by simp, by simp⟩
  | x :: l, b, hb => by
    rw [List.foldl_cons]
    by_cases hc : r ≤ s.size x ∧ s.size x < s.size b
    · rw [smaller, if_pos hc]
      obtain ⟨hge, l₁, l₂, heq, h1, h2⟩ := BestFit.foldl (l := l) hc.1
      -- the choice among `x :: l` is no larger than `x`
      have hle : s.size (l.foldl (smaller s r) x) ≤ s.size x := by
        cases l₁ with
        | nil => rw [← (List.cons.inj heq).1]
        | cons y l₁ =>
          obtain ⟨rfl, -⟩ := List.cons.inj heq
          exact (h1 x (by simp) hc.1).le
      refine ⟨hge, b :: l₁, l₂, by rw [heq]; rfl, ?_, h2⟩
      intro y hy hry
      rcases List.mem_cons.1 hy with rfl | hy
      · omega
      · exact h1 y hy hry
    · rw [smaller, if_neg hc]
      obtain ⟨hge, l₁, l₂, heq, h1, h2⟩ := BestFit.foldl (l := l) hb
      cases l₁ with
      | nil =>
        obtain ⟨he, rfl⟩ := List.cons.inj heq
        rw [← he] at h2 ⊢
        refine ⟨hb, [], x :: l, rfl, by simp, ?_⟩
        intro y hy hry
        rcases List.mem_cons.1 hy with rfl | hy
        · omega
        · exact h2 y hy hry
      | cons y l₁ =>
        obtain ⟨rfl, htail⟩ := List.cons.inj heq
        refine ⟨hge, b :: x :: l₁, l₂, congrArg (b :: x :: ·) htail, ?_, h2⟩
        have hlt := h1 b (by simp) hb
        intro z hz hrz
        simp only [List.mem_cons] at hz
        rcases hz with rfl | rfl | hz
        · exact hlt
        · omega
        · exact h1 z (by simp [hz]) hrz

/-- A node that is too small does not matter at the end of the list. -/
theorem BestFit.append {l ls : List Nat} {o : Nat} (h : BestFit s r l o)
    (hs : ∀ x ∈ ls, s.size x < r) : BestFit s r (l ++ ls) o := by
  obtain ⟨hge, l₁, l₂, rfl, h1, h2⟩ := h
  refine ⟨hge, l₁, l₂ ++ ls, by simp, h1, ?_⟩
  intro x hx hrx
  rcases List.mem_append.1 hx with hx | hx
  · exact h2 x hx hrx
  · have := hs x hx
    omega

/-- On every heap `find_block` ends. It finds nothing exactly if no free block is large enough.
Otherwise, with `b` the first block of the free list that is large enough, it returns the earliest
of the smallest blocks that are large enough among `b` and the next three entries of the list; that
is a free block, and so neither of the sentinels. -/
theorem findBlock_bestFit (h : Heap s cs order) (hr : 0 < r) :
    (∃ found, FindFit s r first found ∧
      findBlock s r = found.map fun b => betterFit s r bestFitLimit b b) ∧
    (findBlock s r = none ↔ ∀ c ∈ cs, c.free = true → c.size < r) ∧
    ∀ o₁ b o₂, order = o₁ ++ b :: o₂ → (∀ x ∈ o₁, s.size x < r) → r ≤ s.size b →
      ∃ o, findBlock s r = some o ∧
        BestFit s r (b :: (o₂ ++ [s.last]).take bestFitLimit) o ∧
        (∃ c ∈ cs, c.free = true ∧ c.off = o) ∧ o ≠ first ∧ o ≠ s.last := by
  obtain ⟨hle, hst⟩ := h.last_eq
  obtain ⟨qs, hw, -⟩ := h.walk
  have hL := layout
  have hfit := FindFit.of_links hr h.links (fun o ho => h.node_pos hst (List.mem_cons_of_mem _ ho))
    h.fnext_last h.size_last
  refine ⟨⟨_, hfit, ?_⟩, ⟨?_, ?_⟩, ?_⟩
  · rw [findBlock, h.findFit_eq hr]
    cases order.find? (r ≤ s.size ·) <;> rfl
  · intro hn
    rcases h.findBlock_spec hr with ⟨-, hall⟩ | ⟨c, -, -, -, he⟩
    · exact hall
    · rw [hn] at he
      cases he
  · intro hall
    rcases h.findBlock_spec hr with ⟨hn, -⟩ | ⟨c, hc, hf, hge, -⟩
    · exact hn
    · have := hall c hc hf
      omega
  · rintro o₁ b o₂ rfl hbefore hb
    rcases h.findBlock_eq hr with ⟨-, hnone⟩ | ⟨p₁, d, p₂, heq, hp, hd, he⟩
    · have := List.find?_eq_none.1 hnone b (by simp)
      simp only [decide_eq_true_eq] at this
      exact absurd hb this
    -- both splits are at the first block that is large enough
    obtain ⟨rfl, rfl, rfl⟩ : o₁ = p₁ ∧ b = d ∧ o₂ = p₂ := by
      rcases List.append_eq_append_iff.1 heq with ⟨as, rfl, hb'⟩ | ⟨as, rfl, hb'⟩
      · cases as with
        | nil =>
          obtain ⟨rfl, rfl⟩ := List.cons.inj hb'
          exact ⟨by simp, rfl, rfl⟩
        | cons y as =>
          obtain ⟨rfl, -⟩ := List.cons.inj hb'
          have := hp b (by simp)
          omega
      · cases as with
        | nil =>
          obtain ⟨rfl, rfl⟩ := List.cons.inj hb'
          exact ⟨by simp, rfl, rfl⟩
        | cons y as =>
          obtain ⟨rfl, -⟩ := List.cons.inj hb'
          have := hbefore d (by simp)
          omega
    refine ⟨_, he, ?_, ?_⟩
    · rw [List.take_append, ← List.cons_append]
      refine (BestFit.foldl hb).append ?_
      intro x hx
      have := List.mem_of_mem_take hx
      rw [List.mem_singleton] at this
      rw [this, h.size_last]
      exact hr
    · have hm := (foldl_smaller_mem (s := s) (o₂.take bestFitLimit) b hb).1
      have hmo : (o₂.take bestFitLimit).foldl (smaller s r) b ∈ o₁ ++ b :: o₂ := by
        rcases List.mem_cons.1 hm with hm | hm
        · simp [hm]
        · simp [List.mem_of_mem_take hm]
      have hrange := h.order_range hmo
      exact ⟨h.mem_order.1 hmo, by omega, by omega⟩

namespace Small

/-- A segment after seven allocations, three of which have been freed again, the smallest one
first. -/
def fragmented : Segment :=
  ([1480, 1344, 1168].foldl SmaState.deallocate
    ([104, 8, 64, 8, 40, 8, 60].foldl SmaState.allocate (.init (2 ^ 20)))).seg

/-- Its free blocks have 136, 96, 72 and, at the end of the segment, many bytes. -/
theorem fragmented_heap : Heap fragmented
    [⟨1136, 136, true⟩, ⟨1272, 40, false⟩, ⟨1312, 96, true⟩, ⟨1408, 40, false⟩, ⟨1448, 72, true⟩,
      ⟨1520, 40, false⟩, ⟨1560, 96, false⟩, ⟨1656, 1046856, true⟩]
    [1136, 1312, 1448, 1656] where
  range := by decide +kernel
  nodup := by decide
  links := by
    simp only [List.cons_append, List.nil_append, Links]
    decide +kernel
  perm := by decide
  live := by decide +kernel
  fnext_last := by decide +kernel
  room := by decide +kernel
  bound := by decide +kernel
  walk := ⟨1046856, by
    simp only [Walk]
    decide +kernel⟩
  size_last := by decide +kernel
  avail := by decide +kernel

end Small

/-- All four free blocks have 72 bytes, and `find_block` returns the smallest one. -/
theorem findBlock_bestFit_fragmented : ∃ o, findBlock Small.fragmented 72 = some o ∧
    BestFit Small.fragmented 72 [1136, 1312, 1448, 1656] o ∧ o ≠ first ∧
      o ≠ Small.fragmented.last := by
  obtain ⟨-, -, h⟩ := findBlock_bestFit (r := 72) Small.fragmented_heap (by decide)
  obtain ⟨o, ho, hbest, -, h1, h2⟩ := h [] 1136 [1312, 1448, 1656] rfl (by simp) (by decide +kernel)
  exact ⟨o, ho, hbest, h1, h2⟩

end ImmutableCache
