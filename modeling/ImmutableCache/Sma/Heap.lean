import ImmutableCache.Lib.Links
import ImmutableCache.Sma.Segment

/-!
# The heap a segment holds

The abstract heap behind a segment is the list of its blocks in address order (`Chunk`: offset,
size and whether the block is free) together with the order in which the free list threads the
free blocks. `Heap s cs order` says that the block headers of the segment `s` hold exactly that
heap: the blocks tile the range between the sentinels (`Walk`), the boundary tags and the free
list agree with it (`Links`), no two free blocks are neighbours, and `avail` is the free total.
-/

namespace ImmutableCache

open Segment

/-- A block of the heap: its offset, its size with the header, and whether it is free. -/
structure Chunk where
  off : Nat
  size : Nat
  free : Bool
  deriving DecidableEq

namespace Chunk

/-- What the `prev_size` of the next block holds: the size of a free block, 0 for a live one. -/
def tag (c : Chunk) : Nat := if c.free then c.size else 0

@[simp] theorem tag_free {c : Chunk} (h : c.free = true) : c.tag = c.size := by simp [tag, h]

@[simp] theorem tag_live {c : Chunk} (h : c.free = false) : c.tag = 0 := by simp [tag, h]

end Chunk

/-- The number of free bytes of a list of blocks, headers included. -/
def freeBytes (cs : List Chunk) : Nat := (cs.map Chunk.tag).sum

/-- The offsets of the free blocks, in address order. -/
def freeOffs (cs : List Chunk) : List Nat := (cs.filter (·.free)).map (·.off)

@[simp] theorem freeBytes_nil : freeBytes [] = 0 := rfl

@[simp] theorem freeBytes_cons (c : Chunk) (cs : List Chunk) :
    freeBytes (c :: cs) = c.tag + freeBytes cs := by simp [freeBytes]

@[simp] theorem freeBytes_append (cs ds : List Chunk) :
    freeBytes (cs ++ ds) = freeBytes cs + freeBytes ds := by simp [freeBytes]

@[simp] theorem freeOffs_nil : freeOffs [] = [] := rfl

@[simp] theorem freeOffs_cons_free {c : Chunk} {cs : List Chunk} (h : c.free = true) :
    freeOffs (c :: cs) = c.off :: freeOffs cs := by simp [freeOffs, h]

@[simp] theorem freeOffs_cons_live {c : Chunk} {cs : List Chunk} (h : c.free = false) :
    freeOffs (c :: cs) = freeOffs cs := by simp [freeOffs, h]

@[simp] theorem freeOffs_append (cs ds : List Chunk) :
    freeOffs (cs ++ ds) = freeOffs cs ++ freeOffs ds := by simp [freeOffs]

/-- The offsets of the free blocks. -/
theorem mem_freeOffs {cs : List Chunk} {o : Nat} :
    o ∈ freeOffs cs ↔ ∃ c ∈ cs, c.free = true ∧ c.off = o := by
  simp [freeOffs, and_assoc]

/-- The blocks `cs` lie one after the other from offset `p` to offset `q` of the segment, with the
sizes and `prev_size` tags of its headers. `ps` is the tag that the block at `p` must carry and
`qs` the one that the block at `q` must carry. Blocks start on word boundaries, have room for
their header, and a free block follows no free block. -/
def Walk (s : Segment) : Nat → Nat → List Chunk → Nat → Nat → Prop
  | p, ps, [], q, qs => p = q ∧ ps = qs
  | p, ps, c :: cs, q, qs =>
    c.off = p ∧ s.size p = c.size ∧ s.prevSize p = ps ∧ blockSize ≤ c.size ∧
      p % 8 = 0 ∧ (c.free = true → ps = 0) ∧ Walk s (p + c.size) c.tag cs q qs

namespace Walk

variable {s s' : Segment} {p ps q qs : Nat} {cs ds : List Chunk}

@[simp] theorem nil_iff : Walk s p ps [] q qs ↔ p = q ∧ ps = qs := Iff.rfl

/-- The first block of a walk. -/
theorem cons_iff {c : Chunk} : Walk s p ps (c :: cs) q qs ↔
    c.off = p ∧ s.size p = c.size ∧ s.prevSize p = ps ∧ blockSize ≤ c.size ∧
      p % 8 = 0 ∧ (c.free = true → ps = 0) ∧ Walk s (p + c.size) c.tag cs q qs := Iff.rfl

/-- A walk along two lists is a walk along the first and one along the second. -/
theorem append_iff : Walk s p ps (cs ++ ds) q qs ↔
    ∃ m ms, Walk s p ps cs m ms ∧ Walk s m ms ds q qs := by
  induction cs generalizing p ps with
  | nil => simp
  | cons c cs ih =>
    simp only [List.cons_append, cons_iff, ih]
    constructor
    · rintro ⟨h1, h2, h3, h4, h5, h6, m, ms, h7, h8⟩
      exact ⟨m, ms, ⟨h1, h2, h3, h4, h5, h6, h7⟩, h8⟩
    · rintro ⟨m, ms, ⟨h1, h2, h3, h4, h5, h6, h7⟩, h8⟩
      exact ⟨h1, h2, h3, h4, h5, h6, m, ms, h7, h8⟩

/-- A walk goes up. -/
theorem le (h : Walk s p ps cs q qs) : p ≤ q := by
  induction cs generalizing p ps with
  | nil => exact h.1.le
  | cons c cs ih => have := ih h.2.2.2.2.2.2; omega

/-- Every block of a walk lies in its range, with its size in its header. -/
theorem mem (h : Walk s p ps cs q qs) {c : Chunk} (hc : c ∈ cs) :
    p ≤ c.off ∧ c.off + c.size ≤ q ∧ s.size c.off = c.size ∧ blockSize ≤ c.size ∧
      c.off % 8 = 0 := by
  induction cs generalizing p ps with
  | nil => cases hc
  | cons d cs ih =>
    obtain ⟨rfl, h2, -, h4, h5, -, h7⟩ := h
    rcases List.mem_cons.1 hc with rfl | hc
    · exact ⟨le_rfl, h7.le, h2, h4, h5⟩
    · have ⟨i1, i2⟩ := ih h7 hc
      exact ⟨by omega, i2⟩

/-- The blocks of a walk are in address order without overlap. -/
theorem pairwise (h : Walk s p ps cs q qs) : cs.Pairwise fun c d => c.off + c.size ≤ d.off := by
  induction cs generalizing p ps with
  | nil => exact .nil
  | cons c cs ih =>
    obtain ⟨rfl, -, -, -, -, -, h7⟩ := h
    exact .cons (fun d hd => (h7.mem hd).1) (ih h7)

/-- Two different blocks of a walk do not overlap. -/
theorem disjoint (h : Walk s p ps cs q qs) {c d : Chunk} (hc : c ∈ cs) (hd : d ∈ cs)
    (hne : c ≠ d) : c.off + c.size ≤ d.off ∨ d.off + d.size ≤ c.off := by
  have hpw := h.pairwise
  obtain ⟨cs₁, cs₂, rfl⟩ := List.append_of_mem hc
  obtain ⟨-, h2, h1⟩ := List.pairwise_append.1 hpw
  simp only [List.mem_append, List.mem_cons] at hd
  rcases hd with hd | rfl | hd
  · exact .inr (h1 d hd c (by simp))
  · exact absurd rfl hne
  · exact .inl (List.rel_of_pairwise_cons h2 hd)

/-- Two blocks of a walk at one offset are the same block. -/
theorem off_inj (h : Walk s p ps cs q qs) {c d : Chunk} (hc : c ∈ cs) (hd : d ∈ cs)
    (he : c.off = d.off) : c = d := by
  by_contra hne
  have := h.mem hc
  have := h.mem hd
  have := h.disjoint hc hd hne
  have := layout
  omega

/-- The offsets of a walk's blocks are distinct. -/
theorem nodup_off (h : Walk s p ps cs q qs) : (cs.map (·.off)).Nodup := by
  rw [List.Nodup, List.pairwise_map]
  refine h.pairwise.imp_of_mem fun ha _ hle he => ?_
  have := h.mem ha
  have := layout
  omega

/-- The free offsets of a walk's blocks are distinct. -/
theorem nodup_freeOffs (h : Walk s p ps cs q qs) : (freeOffs cs).Nodup :=
  h.nodup_off.sublist (List.filter_sublist.map _)

/-- Every block takes at least a header, so a walk is no longer than its range. -/
theorem length_le (h : Walk s p ps cs q qs) : p + blockSize * cs.length ≤ q := by
  induction cs generalizing p ps with
  | nil => simpa using h.1.le
  | cons c cs ih =>
    obtain ⟨-, -, -, h4, -, -, h7⟩ := h
    have := ih h7
    simp only [List.length_cons]
    have := layout
    rw [Nat.mul_add]
    omega

/-- The free bytes of a walk lie in its range. -/
theorem freeBytes_le (h : Walk s p ps cs q qs) : p + freeBytes cs ≤ q := by
  induction cs generalizing p ps with
  | nil => simpa using h.1.le
  | cons c cs ih =>
    have := ih h.2.2.2.2.2.2
    have ht : c.tag ≤ c.size := by unfold Chunk.tag; split <;> omega
    simp only [freeBytes_cons]
    omega

/-- A walk depends on the headers in its range only. -/
theorem congr (h : Walk s p ps cs q qs)
    (hs : ∀ o, p ≤ o → o < q → s'.size o = s.size o ∧ s'.prevSize o = s.prevSize o) :
    Walk s' p ps cs q qs := by
  induction cs generalizing p ps with
  | nil => exact h
  | cons c cs ih =>
    obtain ⟨h1, h2, h3, h4, h5, h6, h7⟩ := h
    have hle := h7.le
    have hL := layout
    have ⟨e1, e2⟩ := hs p le_rfl (by omega)
    exact ⟨h1, by rw [e1, h2], by rw [e2, h3], h4, h5, h6,
      ih h7 fun o ho hq => hs o (by omega) hq⟩

/-- Writing a new tag `x` into the block at the start of a walk, which must not be free unless the
tag is 0. -/
theorem retag {x : Nat} (h : Walk s p ps cs q qs) (hq : s.prevSize q = qs)
    (hx : x = 0 ∨ ∀ c cs', cs = c :: cs' → c.free = false)
    (hsz : ∀ o, p ≤ o → o < q → s'.size o = s.size o)
    (hps : ∀ o, p < o → o ≤ q → s'.prevSize o = s.prevSize o) (hp : s'.prevSize p = x) :
    ∃ qs', Walk s' p x cs q qs' ∧ s'.prevSize q = qs' := by
  cases cs with
  | nil =>
    obtain ⟨rfl, -⟩ := h
    exact ⟨x, ⟨rfl, rfl⟩, hp⟩
  | cons c cs =>
    obtain ⟨h1, h2, -, h4, h5, -, h7⟩ := h
    have hle := h7.le
    have hL := layout
    refine ⟨qs, ⟨h1, by rw [hsz p le_rfl (by omega), h2], hp, h4, h5, fun hf => ?_, ?_⟩, ?_⟩
    · rcases hx with hx | hx
      · exact hx
      · rw [hx c cs rfl] at hf; cases hf
    · exact h7.congr fun o ho hq => ⟨hsz o (by omega) hq, hps o (by omega) hq.le⟩
    · rw [hps q (by omega) le_rfl, hq]

/-- A walk read at one of its blocks: the walk up to it, its header, and the walk after it. -/
theorem at_cons {c : Chunk} (h : Walk s p ps (cs ++ c :: ds) q qs) :
    ∃ ms, Walk s p ps cs c.off ms ∧ s.prevSize c.off = ms ∧ (c.free = true → ms = 0) ∧
      Walk s (c.off + c.size) c.tag ds q qs := by
  obtain ⟨m, ms, h1, rfl, -, h3, -, -, h6, h7⟩ := append_iff.1 h
  exact ⟨ms, h1, h3, h6, h7⟩

/-- The tag at the end of a walk is the one of its last block, or the one it began with. -/
theorem end_tag (h : Walk s p ps cs q qs) :
    (cs = [] ∧ p = q ∧ qs = ps) ∨ ∃ ds d, cs = ds ++ [d] ∧ qs = d.tag ∧ d.off + d.size = q := by
  rcases List.eq_nil_or_concat cs with rfl | ⟨ds, d, rfl⟩
  · exact .inl ⟨rfl, h.1, h.2.symm⟩
  · rw [List.concat_eq_append] at h ⊢
    obtain ⟨ms, -, -, -, h4⟩ := h.at_cons
    exact .inr ⟨ds, d, rfl, h4.2.symm, h4.1⟩

/-- Putting the blocks `mid` in the place of whatever lay between `a` and `b`: the headers outside
are kept, and the block at `b` gets the tag that `mid` ends with. -/
theorem replace {a b as bs x : Nat} {m : List Chunk} (hl : Walk s p ps cs a as)
    (hr : Walk s b bs ds q qs) (hq : s.prevSize q = qs) (hm : Walk s' a as m b x)
    (hsz : ∀ o, o < a ∨ b ≤ o → o < q → s'.size o = s.size o)
    (hps : ∀ o, o < a ∨ b < o → o ≤ q → s'.prevSize o = s.prevSize o)
    (hb : s'.prevSize b = x) (hx : x = 0 ∨ ∀ c ds', ds = c :: ds' → c.free = false) :
    ∃ qs', Walk s' p ps (cs ++ (m ++ ds)) q qs' ∧ s'.prevSize q = qs' := by
  have hbq := hr.le
  have hab := hm.le
  obtain ⟨qs', hr', hq'⟩ := hr.retag hq hx (fun o h1 h2 => hsz o (.inr h1) h2)
    (fun o h1 h2 => hps o (.inr h1) h2) hb
  refine ⟨qs', append_iff.2 ⟨a, as, ?_, append_iff.2 ⟨b, x, hm, hr'⟩⟩, hq'⟩
  exact hl.congr fun o h1 h2 => ⟨hsz o (.inl h2) (by omega), hps o (.inl h2) (by omega)⟩

/-- The block after a free block is not free. -/
theorem next_live {c : Chunk} (h : Walk s p ps (cs ++ c :: ds) q qs) (hf : c.free = true) :
    ∀ d ds', ds = d :: ds' → d.free = false := by
  rintro d ds' rfl
  have hc := h.mem (c := c) (by simp)
  obtain ⟨ms, -, -, -, h4⟩ := h.at_cons
  by_contra hd
  have ht := h4.2.2.2.2.2.1 (by simpa using hd)
  rw [Chunk.tag_free hf] at ht
  have := layout
  omega

end Walk

/-- The `last` sentinel of a segment: `immutable_cache_sma_init` leaves it two headers short of the
end of the segment. -/
def Segment.last (s : Segment) : Nat := s.segsize - 2 * blockSize

/-- The free list of the segment `s` threads, in the order `order`, exactly the free ones among the
blocks `cs`. -/
structure FreeList (s : Segment) (cs : List Chunk) (order : List Nat) : Prop where
  /-- The blocks lie between the sentinels. -/
  range : ∀ c ∈ cs, start ≤ c.off ∧ c.off < s.last
  nodup : (cs.map (·.off)).Nodup
  /-- The list runs from `first` through the free blocks to `last` and back. -/
  links : Links s.fnext s.fprev (first :: (order ++ [s.last]))
  /-- The list visits exactly the free blocks, each once. -/
  perm : order.Perm (freeOffs cs)
  /-- A live block has no successor in the list. -/
  live : ∀ c ∈ cs, c.free = false → s.fnext c.off = 0
  /-- The list ends at `last`. -/
  fnext_last : s.fnext s.last = 0

/-- The segment `s` holds the heap with blocks `cs`, whose free blocks are listed in `order`. -/
structure Heap (s : Segment) (cs : List Chunk) (order : List Nat) : Prop
    extends FreeList s cs order where
  /-- Room for the header and the sentinels. -/
  room : start + 2 * blockSize ≤ s.segsize
  /-- Sizes are `size_t`. -/
  bound : s.segsize < 2 ^ 64
  /-- The blocks tile the range between the sentinels, with the right boundary tags. -/
  walk : ∃ qs, Walk s start 0 cs s.last qs ∧ s.prevSize s.last = qs
  /-- The sentinel at the end has size 0. -/
  size_last : s.size s.last = 0
  /-- `avail` counts the free blocks and one header more. -/
  avail : s.avail = freeBytes cs + blockSize

/-! ## The free list -/

namespace FreeList

variable {s s' : Segment} {cs pre post : List Chunk} {c : Chunk} {order : List Nat}

/-- A node of the list proper is a free block. -/
theorem mem_order (h : FreeList s cs order) {o : Nat} :
    o ∈ order ↔ ∃ c ∈ cs, c.free = true ∧ c.off = o := by rw [h.perm.mem_iff, mem_freeOffs]

/-- The nodes of the list lie between the sentinels. -/
theorem order_range (h : FreeList s cs order) {o : Nat} (ho : o ∈ order) :
    start ≤ o ∧ o < s.last := by
  obtain ⟨c, hc, -, rfl⟩ := h.mem_order.1 ho
  exact h.range c hc

/-- A live block is no node of the list. -/
theorem live_not_mem (h : FreeList s cs order) (hc : c ∈ cs) (hl : c.free = false) :
    c.off ∉ order := by
  intro hm
  obtain ⟨d, hd, hf, he⟩ := h.mem_order.1 hm
  rw [List.inj_on_of_nodup_map h.nodup hd hc he, hl] at hf
  cases hf

/-- The nodes of the list, sentinels included, are distinct. -/
theorem nodes_nodup (h : FreeList s cs order) (hl : start ≤ s.last) :
    (first :: (order ++ [s.last])).Nodup := by
  have hL := layout
  rw [List.nodup_cons, List.nodup_append]
  refine ⟨?_, h.perm.nodup_iff.2 (h.nodup.sublist (List.filter_sublist.map _)), by simp, ?_⟩
  · simp only [List.mem_append, List.mem_singleton, not_or]
    exact ⟨fun hm => by have := h.order_range hm; omega, by omega⟩
  · rintro a ha b hb rfl
    rw [List.mem_singleton] at hb
    have := h.order_range ha
    omega

/-- Every node of the list is a positive offset. -/
theorem node_pos (h : FreeList s cs order) (hl : start ≤ s.last) {o : Nat}
    (ho : o ∈ first :: (order ++ [s.last])) : 0 < o := by
  have hL := layout
  simp only [List.mem_cons, List.mem_append, List.not_mem_nil, or_false] at ho
  rcases ho with rfl | ho | rfl
  · omega
  · have := h.order_range ho
    omega
  · omega

/-- The place of a free block in the list. -/
theorem split (h : FreeList s cs order) (hc : c ∈ cs) (hf : c.free = true) :
    ∃ o₁ o₂, order = o₁ ++ c.off :: o₂ := List.append_of_mem (h.mem_order.2 ⟨c, hc, hf, rfl⟩)

/-- The links around a node of the list: its neighbours are nodes too. -/
theorem around {o₁ o₂ : List Nat} {o : Nat} (h : FreeList s cs (o₁ ++ o :: o₂)) :
    s.fprev o ∈ first :: o₁ ∧ s.fnext o ∈ o₂ ++ [s.last] := by
  have hl := h.links
  obtain ⟨z, o₃, hz⟩ : ∃ z o₃, o₂ ++ [s.last] = z :: o₃ := List.exists_cons_of_ne_nil (by simp)
  obtain ⟨o₀, x, hx⟩ := List.eq_nil_or_concat (first :: o₁) |>.resolve_left (by simp)
  have he : first :: (o₁ ++ o :: o₂ ++ [s.last]) = o₀ ++ x :: o :: z :: o₃ := by
    calc first :: (o₁ ++ o :: o₂ ++ [s.last]) = (first :: o₁) ++ o :: (o₂ ++ [s.last]) := by simp
      _ = o₀ ++ x :: o :: z :: o₃ := by rw [hx, hz]; simp
  rw [he] at hl
  have hl' : Links s.fnext s.fprev ((o₀ ++ [x]) ++ o :: z :: o₃) := by simpa using hl
  have hn : s.fnext o = z := hl'.next_eq
  rw [hl.prev_eq, hn, hz, hx]
  simp

/-- A block has a successor in the list exactly if it is free. -/
theorem fnext_ne_zero (h : FreeList s cs order) (hl : start ≤ s.last) (hc : c ∈ cs) :
    s.fnext c.off ≠ 0 ↔ c.free = true := by
  constructor
  · intro hne
    by_contra hf
    exact hne (h.live c hc (by simpa using hf))
  · intro hf
    obtain ⟨o₁, o₂, rfl⟩ := h.split hc hf
    have hn : s.fnext c.off ∈ first :: (o₁ ++ c.off :: o₂ ++ [s.last]) := by
      have := h.around.2
      simp only [List.mem_append, List.mem_cons] at this ⊢
      tauto
    have := h.node_pos hl hn
    omega

/-- Taking a free block out of the list by its own two links. -/
theorem remove (h : FreeList s (pre ++ c :: post) order) (hl : start ≤ s.last)
    (hf : c.free = true) (hseg : s'.segsize = s.segsize)
    (hn : s'.fnext = Function.update s.fnext (s.fprev c.off) (s.fnext c.off))
    (hp : s'.fprev = Function.update s.fprev (s.fnext c.off) (s.fprev c.off)) :
    FreeList s' (pre ++ post) (order.erase c.off) := by
  have hlast : s'.last = s.last := by unfold Segment.last; rw [hseg]
  obtain ⟨o₁, o₂, rfl⟩ := h.split (by simp) hf
  have hd := h.nodes_nodup hl
  have hno : c.off ∉ o₁ := by
    rintro hm
    have : (o₁ ++ c.off :: o₂).Nodup := hd.sublist (by simp)
    exact (List.nodup_append.1 this).2.2 _ hm _ (by simp) rfl
  have hperm : (o₁ ++ o₂).Perm (freeOffs (pre ++ post)) := by
    have := h.perm
    rw [freeOffs_append, freeOffs_cons_free hf] at this
    rw [freeOffs_append]
    exact ((List.perm_middle.symm.trans this).trans List.perm_middle).cons_inv
  have ha := h.around.1
  rw [List.erase_append_right _ hno, List.erase_cons_head]
  refine ⟨fun d hd => ?_, ?_, ?_, hperm, fun d hd hlv => ?_, ?_⟩
  · rw [hlast]
    exact h.range d (by simp only [List.mem_append, List.mem_cons] at hd ⊢; tauto)
  · exact h.nodup.sublist (by simp)
  · rw [hn, hp, hlast]
    have hlinks : Links s.fnext s.fprev ((first :: o₁) ++ c.off :: (o₂ ++ [s.last])) := by
      simpa using h.links
    simpa using hlinks.unlink_mem (by simpa using hd) (by simp) (by simp)
  · have hd' : d ∈ pre ++ c :: post := by simp only [List.mem_append, List.mem_cons] at hd ⊢; tauto
    rw [hn, Function.update_of_ne, h.live d hd' hlv]
    -- the node before `c` is `first` or a free block, and `d` is neither
    intro he
    rw [← he, List.mem_cons] at ha
    rcases ha with ha | ha
    · have := h.range d hd'
      have := layout
      omega
    · exact h.live_not_mem hd' hlv (by simp [ha])
  · rw [hn, hlast, Function.update_of_ne, h.fnext_last]
    intro he
    rw [← he] at ha
    have : (first :: o₁ ++ (c.off :: o₂ ++ [s.last])).Nodup := by simpa using hd
    exact (List.nodup_append.1 this).2.2 _ ha s.last (by simp) rfl

/-- A block `d` put in the place of the free block `c`, by the links of `c`. -/
theorem replace {d : Chunk} (h : FreeList s (pre ++ c :: post) order) (hl : start ≤ s.last)
    (hf : c.free = true) (hfd : d.free = true) (hr : start ≤ d.off ∧ d.off < s.last)
    (hd : d.off ∉ (pre ++ c :: post).map (·.off)) (hseg : s'.segsize = s.segsize)
    (hn : s'.fnext = Function.update (Function.update s.fnext d.off (s.fnext c.off))
      (s.fprev c.off) d.off)
    (hp : s'.fprev = Function.update (Function.update s.fprev d.off (s.fprev c.off))
      (s.fnext c.off) d.off) :
    ∃ o₁ o₂, order = o₁ ++ c.off :: o₂ ∧ FreeList s' (pre ++ d :: post) (o₁ ++ d.off :: o₂) := by
  have hL := layout
  have hlast : s'.last = s.last := by unfold Segment.last; rw [hseg]
  obtain ⟨o₁, o₂, rfl⟩ := h.split (by simp) hf
  refine ⟨o₁, o₂, rfl, ?_⟩
  have hnd := h.nodes_nodup hl
  have hno : d.off ∉ first :: (o₁ ++ c.off :: o₂ ++ [s.last]) := by
    rw [List.mem_cons, List.mem_append, List.mem_singleton]
    rintro (he | he | he)
    · omega
    · obtain ⟨e, hm, -, he⟩ := h.mem_order.1 he
      exact hd (List.mem_map.2 ⟨e, hm, he⟩)
    · omega
  have ha := h.around.1
  refine ⟨fun e hm => ?_, ?_, ?_, ?_, fun e hm hlv => ?_, ?_⟩
  · rw [hlast]
    simp only [List.mem_append, List.mem_cons] at hm
    rcases hm with hm | rfl | hm
    exacts [h.range e (by simp [hm]), hr, h.range e (by simp [hm])]
  · have := h.nodup
    simp only [List.map_append, List.map_cons, List.perm_middle.nodup_iff, List.nodup_cons,
      List.mem_append, List.mem_cons, not_or] at this hd ⊢
    exact ⟨⟨hd.1, hd.2.2⟩, this.2⟩
  · rw [hn, hp, hlast]
    have hlinks : Links s.fnext s.fprev ((first :: o₁) ++ c.off :: (o₂ ++ [s.last])) := by
      simpa using h.links
    simpa using hlinks.replace (by simpa using hnd) (by simpa using hno) (by simp) (by simp)
  · have := h.perm
    rw [freeOffs_append, freeOffs_cons_free hf] at this
    rw [freeOffs_append, freeOffs_cons_free hfd]
    refine List.perm_middle.trans (List.Perm.trans (.cons _ ?_) List.perm_middle.symm)
    exact ((List.perm_middle.symm.trans this).trans List.perm_middle).cons_inv
  · have hm' : e ∈ pre ++ c :: post := by
      simp only [List.mem_append, List.mem_cons] at hm ⊢
      rcases hm with hm | rfl | hm
      exacts [.inl hm, absurd hlv (by simp [hfd]), .inr (.inr hm)]
    have hne : e.off ≠ d.off := fun he => hd (he ▸ List.mem_map_of_mem hm')
    rw [hn, Function.update_of_ne, Function.update_of_ne hne, h.live e hm' hlv]
    intro he
    rw [← he, List.mem_cons] at ha
    rcases ha with ha | ha
    · have := h.range e hm'
      omega
    · exact h.live_not_mem hm' hlv (by simp [ha])
  · have hne : s.last ≠ d.off := by omega
    rw [hn, hlast, Function.update_of_ne, Function.update_of_ne hne, h.fnext_last]
    intro he
    rw [← he] at ha
    have : (first :: o₁ ++ (c.off :: o₂ ++ [s.last])).Nodup := by simpa using hnd
    exact (List.nodup_append.1 this).2.2 _ ha s.last (by simp) rfl

/-- A list of blocks gains a live block, whose links the list does not use. -/
theorem add_live (h : FreeList s (pre ++ post) order)
    (hc : c.free = false) (hr : start ≤ c.off ∧ c.off < s.last)
    (hd : c.off ∉ (pre ++ post).map (·.off)) (hseg : s'.segsize = s.segsize)
    (hn : s'.fnext = Function.update s.fnext c.off 0) (hp : s'.fprev = s.fprev) :
    FreeList s' (pre ++ c :: post) order := by
  have hL := layout
  have hlast : s'.last = s.last := by unfold Segment.last; rw [hseg]
  have hno : c.off ∉ order := by
    intro hm
    obtain ⟨d, hd', -, he⟩ := h.mem_order.1 hm
    exact hd (List.mem_map.2 ⟨d, hd', he⟩)
  refine ⟨fun d hm => ?_, ?_, ?_, ?_, fun d hm hlv => ?_, ?_⟩
  · rw [hlast]
    simp only [List.mem_append, List.mem_cons] at hm
    rcases hm with hm | rfl | hm
    exacts [h.range d (by simp [hm]), hr, h.range d (by simp [hm])]
  · rw [List.map_append, List.map_cons, List.perm_middle.nodup_iff, List.nodup_cons,
      ← List.map_append]
    exact ⟨hd, h.nodup⟩
  · rw [hn, hp, hlast]
    refine h.links.congr (fun x hx => ?_) fun x _ => rfl
    rw [Function.update_of_ne]
    rintro rfl
    have := List.dropLast_subset _ hx
    simp only [List.mem_cons, List.mem_append, List.not_mem_nil, or_false] at this
    rcases this with he | he | he
    exacts [by omega, hno he, by omega]
  · rw [freeOffs_append, freeOffs_cons_live hc, ← freeOffs_append]
    exact h.perm
  · rw [hn]
    by_cases he : d.off = c.off
    · rw [he, Function.update_self]
    · rw [Function.update_of_ne he]
      refine h.live d ?_ hlv
      simp only [List.mem_append, List.mem_cons] at hm ⊢
      rcases hm with hm | rfl | hm
      exacts [.inl hm, absurd rfl he, .inr hm]
  · rw [hn, hlast, Function.update_of_ne (by omega), h.fnext_last]

/-- A list of blocks without one of its live blocks. -/
theorem drop_live (h : FreeList s (pre ++ c :: post) order) (hc : c.free = false) :
    FreeList s (pre ++ post) order := by
  have hsub : ∀ d ∈ pre ++ post, d ∈ pre ++ c :: post := fun d hd => by
    simp only [List.mem_append, List.mem_cons] at hd ⊢
    tauto
  refine ⟨fun d hd => h.range d (hsub d hd), h.nodup.sublist (by simp), h.links, ?_,
    fun d hd => h.live d (hsub d hd), h.fnext_last⟩
  have := h.perm
  rwa [freeOffs_append, freeOffs_cons_live hc, ← freeOffs_append] at this

/-- The free list does not read sizes. -/
theorem of_eq (h : FreeList s cs order) (hseg : s'.segsize = s.segsize) (hn : s'.fnext = s.fnext)
    (hp : s'.fprev = s.fprev) : FreeList s' cs order := by
  have hlast : s'.last = s.last := by unfold Segment.last; rw [hseg]
  exact ⟨by rw [hlast]; exact h.range, h.nodup, by rw [hn, hp, hlast]; exact h.links, h.perm,
    by rw [hn]; exact h.live, by rw [hn, hlast]; exact h.fnext_last⟩

/-- The links of a free block do not lead to itself. -/
theorem fnext_ne (h : FreeList s cs order) (hl : start ≤ s.last) (hc : c ∈ cs)
    (hf : c.free = true) : s.fprev c.off ≠ c.off ∧ s.fnext c.off ≠ c.off := by
  obtain ⟨o₁, o₂, rfl⟩ := h.split hc hf
  have hd : (first :: o₁ ++ (c.off :: (o₂ ++ [s.last]))).Nodup := by
    simpa using h.nodes_nodup hl
  have ha := h.around
  refine ⟨fun he => ?_, fun he => ?_⟩
  · rw [he] at ha
    exact (List.nodup_append.1 hd).2.2 _ ha.1 c.off (by simp) rfl
  · rw [he] at ha
    exact (List.nodup_cons.1 (List.nodup_append.1 hd).2.1).1 ha.2

/-- A new free block linked in right after `first`. -/
theorem add_free (h : FreeList s (pre ++ post) order) (hl : start ≤ s.last)
    (hc : c.free = true) (hr : start ≤ c.off ∧ c.off < s.last)
    (hd : c.off ∉ (pre ++ post).map (·.off)) (hseg : s'.segsize = s.segsize)
    (hn : s'.fnext = Function.update (Function.update s.fnext c.off (s.fnext first)) first c.off)
    (hp : s'.fprev = Function.update (Function.update s.fprev c.off first) (s.fnext first) c.off) :
    FreeList s' (pre ++ c :: post) (c.off :: order) := by
  have hL := layout
  have hlast : s'.last = s.last := by unfold Segment.last; rw [hseg]
  have hno : c.off ∉ order := by
    intro hm
    obtain ⟨d, hd', -, he⟩ := h.mem_order.1 hm
    exact hd (List.mem_map.2 ⟨d, hd', he⟩)
  have hnd := h.nodes_nodup hl
  obtain ⟨z, o₃, hz⟩ : ∃ z o₃, order ++ [s.last] = z :: o₃ := List.exists_cons_of_ne_nil (by simp)
  have hlk := h.links
  rw [hz] at hlk hnd
  have hnd' : ([] ++ first :: c.off :: z :: o₃).Nodup := by
    have hcz : c.off ∉ z :: o₃ := by
      rw [← hz]
      simp only [List.mem_append, List.mem_singleton, not_or]
      exact ⟨hno, by omega⟩
    rw [List.nil_append, List.nodup_cons, List.nodup_cons]
    rw [List.nodup_cons] at hnd
    refine ⟨?_, hcz, hnd.2⟩
    simp only [List.mem_cons, not_or] at hnd ⊢
    exact ⟨by omega, hnd.1⟩
  refine ⟨fun d hm => ?_, ?_, ?_, ?_, fun d hm hlv => ?_, ?_⟩
  · rw [hlast]
    simp only [List.mem_append, List.mem_cons] at hm
    rcases hm with hm | rfl | hm
    exacts [h.range d (by simp [hm]), hr, h.range d (by simp [hm])]
  · rw [List.map_append, List.map_cons, List.perm_middle.nodup_iff, List.nodup_cons,
      ← List.map_append]
    exact ⟨hd, h.nodup⟩
  · rw [hn, hp, hlast, List.cons_append, hz, hlk.1]
    have hlk' : Links s.fnext s.fprev ([] ++ _) := hlk
    exact hlk'.link hnd'
  · rw [freeOffs_append, freeOffs_cons_free hc]
    refine (List.Perm.cons _ h.perm).trans ?_
    rw [freeOffs_append]
    exact List.perm_middle.symm
  · have hm' : d ∈ pre ++ post := by
      simp only [List.mem_append, List.mem_cons] at hm ⊢
      rcases hm with hm | rfl | hm
      exacts [.inl hm, absurd hlv (by simp [hc]), .inr hm]
    have hne : d.off ≠ c.off := fun he => hd (he ▸ List.mem_map_of_mem hm')
    have := h.range d hm'
    rw [hn, Function.update_of_ne (by omega), Function.update_of_ne hne]
    exact h.live d hm' hlv
  · rw [hn, hlast, Function.update_of_ne (by omega), Function.update_of_ne (by omega),
      h.fnext_last]

end FreeList

namespace Heap

variable {s : Segment} {cs : List Chunk} {order : List Nat}

/-- The last sentinel is two headers before the end, and after the first block. -/
theorem last_eq (h : Heap s cs order) : s.last + 2 * blockSize = s.segsize ∧ start ≤ s.last := by
  have := h.room
  have := layout
  unfold Segment.last
  omega

end Heap

end ImmutableCache
