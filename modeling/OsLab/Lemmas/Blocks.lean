import OsLab.FirstFit
import OsLab.Lib.Seg

/-!
# The block list: what the headers in memory say

`Chain m p bs q` reads the headers of a memory as a list of blocks: the links lead from `p` through `bs` to `q`. `Tiled h bs` is
the invariant of the heap: the blocks stand in the order of their addresses, their extents do not overlap and together are the
bytes `sbrk` gave. The surgery lemma (`Tiled.replace`) says that what one operation does inside the extent of one block keeps
it; splitting a block, taking it and freeing it are instances.
-/

namespace OsLab.Malloc

/-- The memory holds the header of the block. -/
def HeaderAt (m : Mem) (b : Block) : Prop :=
  m.loadLE b.addr 8 = b.size ∧ m.loadLE (b.addr + 8) 4 = b.free.toNat

/-- The link in the header of the block. -/
def linkOf (m : Mem) (b : Block) : Nat := m.loadLE (b.addr + 16) 8

/-- The links lead from `p` through the headers of the blocks to `q`. -/
abbrev Chain (m : Mem) (p : Nat) (bs : List Block) (q : Nat) : Prop := Seg Block.addr (HeaderAt m) (linkOf m) p bs q

/-- The bytes `sbrk` gave by one move. -/
def Given (g : Nat × Int) (x : Nat) : Prop := g.1 ≤ x ∧ (x : Int) < g.1 + g.2

/-- The invariant of the heap: the list from `global_base` is `bs`, in the order of the addresses, no extents overlap, no block
is empty or past the break, and the extents are exactly the bytes `sbrk` gave. -/
structure Tiled (h : Heap) (bs : List Block) : Prop where
  chain : Chain h.mem h.globalBase bs 0
  apart : bs.Pairwise (fun a b => a.stop ≤ b.addr)
  addr_pos : ∀ b ∈ bs, 0 < b.addr
  size_pos : ∀ b ∈ bs, 1 ≤ b.size
  below : ∀ b ∈ bs, b.stop ≤ h.brk
  brk_pos : 0 < h.brk
  brk_lt : h.brk < 2 ^ 64
  cover : ∀ x, (∃ b ∈ bs, b.InExtent x) ↔ ∃ g ∈ h.moved, Given g x

namespace BlocksAux

/-- A header read from bytes that agree is the same header. -/
theorem headerAt_congr {m m' : Mem} {b : Block} (hm : ∀ x, b.InHeader x → m' x = m x) (h : HeaderAt m b) :
    HeaderAt m' b := by
  obtain ⟨h1, h2⟩ := h
  unfold Block.InHeader metaSize at hm
  refine ⟨?_, ?_⟩
  · rw [← h1]
    exact Mem.loadLE_congr (fun x hx hx' => hm x (by omega))
  · rw [← h2]
    exact Mem.loadLE_congr (fun x hx hx' => hm x (by omega))

/-- A link read from bytes that agree is the same link. -/
theorem linkOf_congr {m m' : Mem} {b : Block} (hm : ∀ x, b.InHeader x → m' x = m x) : linkOf m' b = linkOf m b := by
  unfold Block.InHeader metaSize at hm
  exact Mem.loadLE_congr (fun x hx hx' => hm x (by omega))

/-- A chain is a chain in every memory that agrees on its headers. -/
theorem chain_congr {m m' : Mem} {p q : Nat} {bs : List Block} (h : Chain m p bs q)
    (hm : ∀ b ∈ bs, ∀ x, b.InHeader x → m' x = m x) : Chain m' p bs q :=
  Seg.congr h (fun b hb => headerAt_congr (hm b hb)) (fun b hb => linkOf_congr (hm b hb))

/-- The header is in the extent. -/
theorem inExtent_of_inHeader {b : Block} {x : Nat} (h : b.InHeader x) : b.InExtent x := by
  unfold Block.InHeader at h
  unfold Block.InExtent Block.stop
  omega

/-- The blocks before one end before it, the blocks after it start after it. -/
theorem apart_split {pre post : List Block} {b : Block}
    (h : (pre ++ b :: post).Pairwise (fun a b => a.stop ≤ b.addr)) :
    (∀ c ∈ pre, c.stop ≤ b.addr) ∧ (∀ c ∈ post, b.stop ≤ c.addr) := by
  rw [List.pairwise_append, List.pairwise_cons] at h
  exact ⟨fun c hc => h.2.2 c hc b (by simp), h.2.1.1⟩

/-- A chain that ends in `NULL` starts in `NULL` exactly when it has no block. -/
theorem chain_start_eq_zero_iff {m : Mem} {p : Nat} {bs : List Block} (h : Chain m p bs 0) (hpos : ∀ b ∈ bs, 0 < b.addr) :
    p = 0 ↔ bs = [] := by
  cases bs with
  | nil => simpa using h
  | cons b bs =>
    have := h.1
    have := hpos b (by simp)
    constructor
    · intro; omega
    · intro hb; cases hb

end BlocksAux

open BlocksAux

/-- Two blocks of a tiled heap are the same or lie apart. -/
theorem Tiled.eq_or_apart {h : Heap} {bs : List Block} (ht : Tiled h bs) {b c : Block} (hb : b ∈ bs) (hc : c ∈ bs) :
    b = c ∨ b.stop ≤ c.addr ∨ c.stop ≤ b.addr := by
  obtain ⟨pre, post, rfl⟩ := List.append_of_mem hb
  obtain ⟨h1, h2⟩ := apart_split ht.apart
  simp only [List.mem_append, List.mem_cons] at hc
  rcases hc with hc | rfl | hc
  · exact Or.inr (Or.inr (h1 c hc))
  · exact Or.inl rfl
  · exact Or.inr (Or.inl (h2 c hc))

/-- A payload is the payload of one block. -/
theorem Tiled.payload_inj {h : Heap} {bs : List Block} (ht : Tiled h bs) {b c : Block} (hb : b ∈ bs) (hc : c ∈ bs)
    (he : b.payload = c.payload) : b = c := by
  have := ht.size_pos b hb
  have := ht.size_pos c hc
  rcases ht.eq_or_apart hb hc with h1 | h1 | h1
  · exact h1
  · unfold Block.payload Block.stop at *
    omega
  · unfold Block.payload Block.stop at *
    omega

/-- The surgery lemma. What happens inside the extent of one block, and leaves there a chain of blocks that tiles the same
extent, keeps the heap tiled. -/
theorem Tiled.replace {h h' : Heap} {pre post mid : List Block} {b : Block} (ht : Tiled h (pre ++ b :: post))
    (hbrk : h'.brk = h.brk) (hmoved : h'.moved = h.moved) (hbase : h'.globalBase = h.globalBase)
    (hmem : ∀ x, ¬b.InExtent x → h'.mem x = h.mem x) (hmid : Chain h'.mem b.addr mid (linkOf h.mem b))
    (hapart : mid.Pairwise (fun a c => a.stop ≤ c.addr))
    (hin : ∀ c ∈ mid, b.addr ≤ c.addr ∧ c.stop ≤ b.stop ∧ 1 ≤ c.size)
    (hcover : ∀ x, b.InExtent x ↔ ∃ c ∈ mid, c.InExtent x) : Tiled h' (pre ++ mid ++ post) := by
  obtain ⟨hpre, hpost⟩ := apart_split ht.apart
  have hb : b ∈ pre ++ b :: post := by simp
  -- the blocks before and after keep their headers: they lie outside the extent that changed
  have hkeep : ∀ c, (c ∈ pre ∨ c ∈ post) → ∀ x, c.InHeader x → h'.mem x = h.mem x := by
    intro c hc x hx
    apply hmem
    unfold Block.InExtent
    have hx' := inExtent_of_inHeader hx
    unfold Block.InHeader at hx
    unfold Block.InExtent at hx'
    rcases hc with hc | hc
    · have := hpre c hc
      omega
    · have := hpost c hc
      omega
  have hchain : Chain h'.mem h'.globalBase (pre ++ mid ++ post) 0 := by
    obtain ⟨r, h1, h2⟩ := Seg.append_iff.1 ht.chain
    obtain ⟨rfl, _, h3⟩ := h2
    rw [hbase, List.append_assoc]
    refine Seg.append_iff.2 ⟨_, chain_congr h1 (fun c hc => hkeep c (Or.inl hc)), ?_⟩
    exact Seg.append_iff.2 ⟨_, hmid, chain_congr h3 (fun c hc => hkeep c (Or.inr hc))⟩
  have hold := ht.apart
  rw [List.pairwise_append, List.pairwise_cons] at hold
  obtain ⟨o1, ⟨_, o2⟩, o3⟩ := hold
  have hcases : ∀ c ∈ pre ++ mid ++ post, c ∈ pre ++ b :: post ∨ c ∈ mid := by
    intro c hc
    simp only [List.mem_append, List.mem_cons] at hc ⊢
    tauto
  refine ⟨hchain, ?_, ?_, ?_, ?_, hbrk ▸ ht.brk_pos, hbrk ▸ ht.brk_lt, ?_⟩
  · rw [List.append_assoc, List.pairwise_append, List.pairwise_append]
    refine ⟨o1, ⟨hapart, o2, ?_⟩, ?_⟩
    · intro a ha c hc
      have := hin a ha
      have := hpost c hc
      omega
    · intro a ha c hc
      rcases List.mem_append.1 hc with hc | hc
      · have := hin c hc
        have := hpre a ha
        omega
      · exact o3 a ha c (by simp [hc])
  · intro c hc
    rcases hcases c hc with hc | hc
    · exact ht.addr_pos c hc
    · have := hin c hc
      have := ht.addr_pos b hb
      omega
  · intro c hc
    rcases hcases c hc with hc | hc
    · exact ht.size_pos c hc
    · exact (hin c hc).2.2
  · intro c hc
    rw [hbrk]
    rcases hcases c hc with hc | hc
    · exact ht.below c hc
    · have := hin c hc
      have := ht.below b hb
      omega
  · intro x
    rw [hmoved, ← ht.cover x]
    simp only [List.mem_append, List.mem_cons, or_and_right, exists_or, exists_eq_left, hcover x, or_assoc]

end OsLab.Malloc
