import OsLab.Lemmas.Blocks

/-!
# What each function of the allocator does to a tiled heap

One statement for each function, over the list of blocks the headers spell: `find_free_block` finds the first block that fits
or the end of the list, `split_block` cuts a block in two, `request_space` puts a block at the break, and `my_malloc` is one
request to the list (`FirstFit`). Every one of them changes bytes of headers only.
-/

namespace OsLab.Malloc

open BlocksAux

/-- Two memories differ in headers of the blocks only. -/
def HeadersOnly (m m' : Mem) (bs : List Block) : Prop := ∀ x, (∀ b ∈ bs, ¬b.InHeader x) → m' x = m x

namespace MallocAux

/-! ## The walk over the list -/

/-- The test of the walk, on a block whose header is in memory. -/
theorem fits_iff {h : Heap} {b : Block} {size : Nat} (hb : HeaderAt h.mem b) :
    (h.free b.addr ≠ 0 ∧ h.size b.addr ≥ size) ↔ b.Fits size := by
  obtain ⟨h1, h2⟩ := hb
  unfold Heap.free Heap.size Block.Fits
  rw [h1, h2]
  cases b.free <;> simp

/-- One step of the walk over a block that does not fit. -/
theorem findFreeBlock_pass {h : Heap} {b : Block} {size fuel last : Nat} (hb : HeaderAt h.mem b) (hpos : 0 < b.addr)
    (hfit : ¬b.Fits size) :
    findFreeBlock h size (fuel + 1) last b.addr = findFreeBlock h size fuel b.addr (linkOf h.mem b) := by
  rw [findFreeBlock, if_pos ⟨by omega, fun hf => hfit ((fits_iff hb).1 hf)⟩]
  rfl

/-- The walk stops at the first block that fits. -/
theorem findFreeBlock_found {h : Heap} {pre post : List Block} {b : Block} {size p fuel : Nat} (last : Nat)
    (hc : Chain h.mem p (pre ++ b :: post) 0) (hpos : ∀ c ∈ pre ++ b :: post, 0 < c.addr)
    (hpre : ∀ c ∈ pre, ¬c.Fits size) (hb : b.Fits size) (hfuel : pre.length < fuel) :
    ∃ l, findFreeBlock h size fuel last p = some (b.addr, l) := by
  induction pre generalizing p fuel last with
  | nil =>
    obtain ⟨rfl, hh, _⟩ := hc
    obtain ⟨fuel, rfl⟩ : ∃ n, fuel = n + 1 := ⟨fuel - 1, by simp at hfuel; omega⟩
    refine ⟨last, ?_⟩
    rw [findFreeBlock, if_neg]
    rintro ⟨_, hn⟩
    exact hn ((fits_iff hh).2 hb)
  | cons c pre ih =>
    obtain ⟨rfl, hh, hrest⟩ := hc
    obtain ⟨fuel, rfl⟩ : ∃ n, fuel = n + 1 := ⟨fuel - 1, by simp at hfuel; omega⟩
    rw [findFreeBlock_pass hh (hpos c (by simp)) (hpre c (by simp))]
    exact ih _ hrest (fun d hd => hpos d (by simp at hd ⊢; tauto)) (fun d hd => hpre d (by simp [hd]))
      (by simp at hfuel; omega)

/-- The walk over a list where nothing fits reaches its end, with `last` at the last block. -/
theorem findFreeBlock_end {h : Heap} {bs : List Block} {size : Nat} {p fuel last : Nat} (hc : Chain h.mem p bs 0)
    (hpos : ∀ c ∈ bs, 0 < c.addr) (hbs : ∀ c ∈ bs, ¬c.Fits size) (hfuel : bs.length < fuel) :
    findFreeBlock h size fuel last p = some (0, (bs.getLast?.map Block.addr).getD last) := by
  induction bs generalizing p fuel last with
  | nil =>
    obtain rfl : p = 0 := hc
    obtain ⟨fuel, rfl⟩ : ∃ n, fuel = n + 1 := ⟨fuel - 1, by simp at hfuel; omega⟩
    rw [findFreeBlock, if_neg (by simp)]
    rfl
  | cons c bs ih =>
    obtain ⟨rfl, hh, hrest⟩ := hc
    obtain ⟨fuel, rfl⟩ : ∃ n, fuel = n + 1 := ⟨fuel - 1, by simp at hfuel; omega⟩
    rw [findFreeBlock_pass hh (hpos c (by simp)) (hbs c (by simp)),
      ih hrest (fun d hd => hpos d (by simp [hd])) (fun d hd => hbs d (by simp [hd])) (by simp at hfuel; omega)]
    cases hl : bs.getLast? <;> simp [List.getLast?_cons, hl]

/-- The first block of a list that fits, or none does. -/
theorem exists_first_fit (bs : List Block) (size : Nat) :
    (∃ pre b post, bs = pre ++ b :: post ∧ (∀ c ∈ pre, ¬c.Fits size) ∧ b.Fits size) ∨ ∀ c ∈ bs, ¬c.Fits size := by
  induction bs with
  | nil => exact Or.inr (by simp)
  | cons b bs ih =>
    by_cases hb : b.Fits size
    · exact Or.inl ⟨[], b, bs, rfl, by simp, hb⟩
    · rcases ih with ⟨pre, c, post, rfl, hpre, hc⟩ | hbs
      · exact Or.inl ⟨b :: pre, c, post, rfl, by simpa using ⟨hb, hpre⟩, hc⟩
      · exact Or.inr (by simpa using ⟨hb, hbs⟩)

/-- The block with the lowest address of those that fit is the first of them in the list. -/
theorem lowest_first {h : Heap} {bs : List Block} {b : Block} {size : Nat} (ht : Tiled h bs) (hb : b ∈ bs)
    (hlow : ∀ c ∈ bs, c.Fits size → b.addr ≤ c.addr) : ∃ pre post, bs = pre ++ b :: post ∧ ∀ c ∈ pre, ¬c.Fits size := by
  obtain ⟨pre, post, rfl⟩ := List.append_of_mem hb
  refine ⟨pre, post, rfl, fun c hc hf => ?_⟩
  have hle := hlow c (by simp [hc]) hf
  have hstop := (apart_split ht.apart).1 c hc
  unfold Block.stop metaSize at hstop
  omega

/-! ## Cutting a block -/

/-- The memory after `split_block` has cut a block: the header of the rest, then size and link of the block. -/
def cutMem (m : Mem) (block newBlock size rest : Nat) : Mem :=
  ((((m.storeLE newBlock 8 rest).storeLE (newBlock + 8) 4 1).storeLE (newBlock + 16) 8 (m.loadLE (block + 16) 8)).storeLE
    block 8 size).storeLE (block + 16) 8 newBlock

/-- `split_block` leaves a block that is not large enough to cut. -/
theorem splitBlock_whole {h : Heap} {b : Block} {size : Nat} (hh : HeaderAt h.mem b) (hs : b.size ≤ size + metaSize)
    (hsize : size + metaSize < 2 ^ 63) : splitBlock h b.addr size = h := by
  have h1 : h.size b.addr = b.size := hh.1
  have h2 : Word.add (Word.add size metaSize) 1 = size + metaSize + 1 := by
    rw [Word.add_of_lt (a := size) (by omega), Word.add_of_lt (by omega)]
  unfold splitBlock
  rw [h1, h2, if_neg (by omega)]

/-- `split_block` cuts a block that is. -/
theorem splitBlock_cut {h : Heap} {b : Block} {size : Nat} (hh : HeaderAt h.mem b) (hs : size + metaSize < b.size)
    (hsize : size + metaSize < 2 ^ 63) (hstop : b.stop < 2 ^ 64) :
    splitBlock h b.addr size =
      { h with mem := cutMem h.mem b.addr (b.payload + size) size (b.size - size - metaSize) } := by
  have h1 : h.size b.addr = b.size := hh.1
  unfold Block.stop at hstop
  have h2 : Word.add (Word.add size metaSize) 1 = size + metaSize + 1 := by
    rw [Word.add_of_lt (a := size) (by omega), Word.add_of_lt (by omega)]
  have h3 : Word.add (Word.add b.addr metaSize) size = b.payload + size := by
    unfold Block.payload
    rw [Word.add_of_lt (a := b.addr) (by omega), Word.add_of_lt (by omega)]
  have h4 : Word.sub (Word.sub b.size size) metaSize = b.size - size - metaSize := by
    rw [Word.sub_of_le (a := b.size) (by omega) (by omega), Word.sub_of_le (by omega) (by omega)]
  unfold splitBlock
  rw [h1, h2, if_pos (by omega), h3, h4]
  have h5 : ((h.mem.storeLE (b.payload + size) 8 (b.size - size - metaSize)).storeLE (b.payload + size + 8) 4 1).loadLE
      (b.addr + 16) 8 = h.mem.loadLE (b.addr + 16) 8 := by
    unfold Block.payload metaSize
    rw [Mem.loadLE_storeLE_disjoint _ _ (by omega), Mem.loadLE_storeLE_disjoint _ _ (by omega)]
  simp only [Heap.setSize, Heap.setFree, Heap.setNext, Heap.next, h5]
  rfl

/-- What the cut leaves in memory: the two headers, linked to each other and to what the block was linked to; outside them
nothing changes. -/
theorem cutMem_spec (m : Mem) (b : Block) (size rest : Nat) (hfree : m.loadLE (b.addr + 8) 4 = b.free.toNat)
    (hlt : b.payload + size + metaSize + rest < 2 ^ 64) :
    let n : Block := { addr := b.payload + size, size := rest, free := true }
    let m' := cutMem m b.addr (b.payload + size) size rest
    HeaderAt m' { b with size := size } ∧ linkOf m' b = n.addr ∧ HeaderAt m' n ∧ linkOf m' n = linkOf m b ∧
      ∀ x, ¬b.InHeader x → ¬n.InHeader x → m' x = m x := by
  unfold Block.payload metaSize at hlt
  have hm := m.loadLE_lt (b.addr + 16) 8
  have hd : metaSize = 24 := rfl
  refine ⟨⟨?_, ?_⟩, ?_, ⟨?_, ?_⟩, ?_, ?_⟩
  · show (cutMem m b.addr _ size rest).loadLE b.addr 8 = size
    unfold cutMem
    rw [Mem.loadLE_storeLE_disjoint _ _ (by omega), Mem.loadLE_storeLE _ (by omega)]
  · show (cutMem m b.addr _ size rest).loadLE (b.addr + 8) 4 = b.free.toNat
    unfold cutMem Block.payload
    rw [Mem.loadLE_storeLE_disjoint _ _ (by omega), Mem.loadLE_storeLE_disjoint _ _ (by omega),
      Mem.loadLE_storeLE_disjoint _ _ (by omega), Mem.loadLE_storeLE_disjoint _ _ (by omega),
      Mem.loadLE_storeLE_disjoint _ _ (by omega), hfree]
  · unfold linkOf cutMem Block.payload
    rw [Mem.loadLE_storeLE _ (by omega)]
  · show (cutMem m b.addr _ size rest).loadLE (b.payload + size) 8 = rest
    unfold cutMem Block.payload
    rw [Mem.loadLE_storeLE_disjoint _ _ (by omega), Mem.loadLE_storeLE_disjoint _ _ (by omega),
      Mem.loadLE_storeLE_disjoint _ _ (by omega), Mem.loadLE_storeLE_disjoint _ _ (by omega),
      Mem.loadLE_storeLE _ (by omega)]
  · show (cutMem m b.addr _ size rest).loadLE (b.payload + size + 8) 4 = 1
    unfold cutMem Block.payload
    rw [Mem.loadLE_storeLE_disjoint _ _ (by omega), Mem.loadLE_storeLE_disjoint _ _ (by omega),
      Mem.loadLE_storeLE_disjoint _ _ (by omega), Mem.loadLE_storeLE _ (by omega)]
  · show (cutMem m b.addr _ size rest).loadLE (b.payload + size + 16) 8 = linkOf m b
    unfold cutMem Block.payload linkOf
    rw [Mem.loadLE_storeLE_disjoint _ _ (by omega), Mem.loadLE_storeLE_disjoint _ _ (by omega),
      Mem.loadLE_storeLE _ (by omega)]
  · intro x hx hx'
    unfold Block.InHeader at hx hx'
    simp only [Block.payload] at hx'
    unfold cutMem Block.payload
    rw [Mem.storeLE_frame _ _ (by omega), Mem.storeLE_frame _ _ (by omega), Mem.storeLE_frame _ _ (by omega),
      Mem.storeLE_frame _ _ (by omega), Mem.storeLE_frame _ _ (by omega)]

/-! ## Setting the flag of a block -/

/-- Setting the flag of a block leaves its size, its link and every other byte. -/
theorem setFree_spec (h : Heap) (b : Block) (f : Bool) (hh : HeaderAt h.mem b) :
    HeaderAt (h.setFree b.addr f.toNat).mem { b with free := f } ∧
      linkOf (h.setFree b.addr f.toNat).mem b = linkOf h.mem b ∧
      ∀ x, ¬b.InHeader x → (h.setFree b.addr f.toNat).mem x = h.mem x := by
  have hd : metaSize = 24 := rfl
  have hf : f.toNat < 256 ^ 4 := by cases f <;> decide
  refine ⟨⟨?_, ?_⟩, ?_, ?_⟩
  · rw [← hh.1]
    exact Mem.loadLE_storeLE_disjoint _ _ (Or.inl (Nat.le_refl _))
  · exact Mem.loadLE_storeLE _ hf
  · exact Mem.loadLE_storeLE_disjoint _ _ (by omega)
  · intro x hx
    unfold Block.InHeader at hx
    exact Mem.storeLE_frame _ _ (by omega)

end MallocAux

open MallocAux

/-- Setting the flag of one block keeps the heap tiled. -/
theorem Tiled.setFree {h : Heap} {pre post : List Block} {b : Block} (ht : Tiled h (pre ++ b :: post)) (f : Bool) :
    Tiled (h.setFree b.addr f.toNat) (pre ++ { b with free := f } :: post) := by
  have hh : HeaderAt h.mem b := Seg.holds_of_mem ht.chain b (by simp)
  obtain ⟨h1, h2, h3⟩ := setFree_spec h b f hh
  have hs : 1 ≤ b.size := ht.size_pos b (by simp)
  rw [List.append_cons]
  refine ht.replace rfl rfl rfl ?_ ⟨rfl, h1, h2⟩ (List.pairwise_singleton _ _) ?_ ?_
  · intro x hx
    exact h3 x (fun hx' => hx (inExtent_of_inHeader hx'))
  · intro c hc
    rw [List.mem_singleton] at hc
    subst hc
    exact ⟨Nat.le_refl _, Nat.le_refl _, hs⟩
  · intro x
    simp [Block.InExtent, Block.stop]

/-- Cutting one block keeps the heap tiled: the two parts tile the extent of the block. -/
theorem Tiled.cut {h : Heap} {pre post : List Block} {b : Block} {size : Nat} (ht : Tiled h (pre ++ b :: post))
    (hpos : 0 < size) (hs : size + metaSize < b.size) (hsize : size + metaSize < 2 ^ 63) :
    Tiled (splitBlock h b.addr size)
      (pre ++ { b with size := size } ::
        { addr := b.payload + size, size := b.size - size - metaSize, free := true } :: post) := by
  have hb : b ∈ pre ++ b :: post := by simp
  have hh : HeaderAt h.mem b := Seg.holds_of_mem ht.chain b hb
  have hstop : b.stop < 2 ^ 64 := Nat.lt_of_le_of_lt (ht.below b hb) ht.brk_lt
  rw [splitBlock_cut hh hs hsize hstop]
  unfold Block.stop at hstop
  obtain ⟨h1, h2, h3, h4, h5⟩ := cutMem_spec h.mem b size (b.size - size - metaSize) hh.2
    (by unfold Block.payload; omega)
  suffices hmid : Tiled _ (pre ++ [{ b with size := size },
      { addr := b.payload + size, size := b.size - size - metaSize, free := true }] ++ post) by
    simpa only [List.append_assoc, List.cons_append, List.nil_append] using hmid
  refine ht.replace rfl rfl rfl ?_ ⟨rfl, h1, h2, h3, h4⟩ ?_ ?_ ?_
  · intro x hx
    apply h5 x (fun hx' => hx (inExtent_of_inHeader hx'))
    intro hx'
    apply hx
    simp only [Block.InHeader, Block.InExtent, Block.stop, Block.payload] at hx' ⊢
    omega
  · rw [List.pairwise_pair]
    exact Nat.le_refl _
  · intro c hc
    simp only [List.mem_cons, List.not_mem_nil, or_false] at hc
    rcases hc with rfl | rfl
    · simp only [Block.stop]
      omega
    · simp only [Block.stop, Block.payload]
      omega
  · intro x
    simp only [List.mem_cons, List.not_mem_nil, or_false, exists_eq_or_imp, exists_eq_left, Block.InExtent, Block.stop,
      Block.payload]
    omega

/-! ## Extending the heap -/

namespace MallocAux

/-- The memory after `request_space` has put a block at `block` and linked it behind `last`. -/
def appendMem (m : Mem) (block last size : Nat) : Mem :=
  let m := ((m.storeLE block 8 size).storeLE (block + 8) 4 0).storeLE (block + 16) 8 0
  if last ≠ 0 then m.storeLE (last + 16) 8 block else m

/-- The increment `request_space` asks for, when the size is not too large for it. -/
theorem increment_eq {size : Nat} (hsize : size + metaSize < 2 ^ 63) :
    Word.toInt (Word.add metaSize size) = ((metaSize + size : Nat) : Int) := by
  rw [Word.add_of_lt (by omega), Word.toInt_of_lt (by omega)]

/-- When the size is not too large for it, `sbrk` refuses the increment by the system's choice or past the address space. -/
theorem refuses_of_not {h : Heap} {size : Nat} {grant : Bool} (hsize : size + metaSize < 2 ^ 63)
    (hno : ¬(grant = true ∧ h.brk + (metaSize + size) < 2 ^ 64)) : h.Refuses size grant := by
  unfold Heap.Refuses sbrk
  rw [increment_eq hsize, if_neg]
  rintro ⟨hg, _, h2⟩
  exact hno ⟨hg, by omega⟩

/-- `request_space` leaves the heap as it is when `sbrk` refuses. -/
theorem requestSpace_refuse {h : Heap} {last size : Nat} {grant : Bool} (hr : h.Refuses size grant) :
    requestSpace h last size grant = (h, 0) := by
  unfold requestSpace
  rw [hr]
  rfl

/-- `request_space` puts a block at the break when `sbrk` moves it. -/
theorem requestSpace_extend {h : Heap} {last size : Nat} (hsize : size + metaSize < 2 ^ 63)
    (hfit : h.brk + (metaSize + size) < 2 ^ 64) :
    requestSpace h last size true =
      ({ h with mem := appendMem h.mem h.brk last size, brk := h.brk + (metaSize + size),
                moved := h.moved ++ [(h.brk, ((metaSize + size : Nat) : Int))] }, h.brk) := by
  unfold requestSpace sbrk
  have hd : metaSize = 24 := rfl
  rw [increment_eq hsize, if_pos ⟨rfl, by omega, by omega⟩]
  have hne : h.brk ≠ sbrkFailed := by
    unfold sbrkFailed
    omega
  have hto : ((h.brk : Int) + ((metaSize + size : Nat) : Int)).toNat = h.brk + (metaSize + size) := by omega
  simp only [hne, if_false, hto, appendMem, currentBreak, Heap.setSize, Heap.setFree, Heap.setNext]
  split <;> rfl

/-- What the append leaves in memory: the header of the new block, the link of the last block to it, and every other byte. -/
theorem appendMem_spec (m : Mem) (block last size : Nat) (hsize : size < 2 ^ 64) (hblock : block < 2 ^ 64)
    (hlast : last = 0 ∨ last + metaSize ≤ block) :
    let n : Block := { addr := block, size := size, free := false }
    let m' := appendMem m block last size
    HeaderAt m' n ∧ linkOf m' n = 0 ∧ (last ≠ 0 → m'.loadLE (last + 16) 8 = block) ∧
      ∀ x, ¬n.InHeader x → (last = 0 ∨ x < last + 16 ∨ last + metaSize ≤ x) → m' x = m x := by
  have hd : metaSize = 24 := rfl
  simp only [HeaderAt, linkOf, Block.InHeader, appendMem]
  by_cases h0 : last = 0
  · simp only [h0, ne_eq, not_true_eq_false, if_false]
    refine ⟨⟨?_, ?_⟩, ?_, ?_, ?_⟩
    · rw [Mem.loadLE_storeLE_disjoint _ _ (by omega), Mem.loadLE_storeLE_disjoint _ _ (by omega),
        Mem.loadLE_storeLE _ (by omega)]
    · rw [Mem.loadLE_storeLE_disjoint _ _ (by omega), Mem.loadLE_storeLE _ (by omega)]
      rfl
    · rw [Mem.loadLE_storeLE _ (by omega)]
    · intro h
      exact h.elim
    · intro x hx _
      rw [Mem.storeLE_frame _ _ (by omega), Mem.storeLE_frame _ _ (by omega), Mem.storeLE_frame _ _ (by omega)]
  · simp only [ne_eq, h0, not_false_eq_true, if_true, false_or] at hlast ⊢
    refine ⟨⟨?_, ?_⟩, ?_, ?_, ?_⟩
    · rw [Mem.loadLE_storeLE_disjoint _ _ (by omega), Mem.loadLE_storeLE_disjoint _ _ (by omega),
        Mem.loadLE_storeLE_disjoint _ _ (by omega), Mem.loadLE_storeLE _ (by omega)]
    · rw [Mem.loadLE_storeLE_disjoint _ _ (by omega), Mem.loadLE_storeLE_disjoint _ _ (by omega),
        Mem.loadLE_storeLE _ (by omega)]
      rfl
    · rw [Mem.loadLE_storeLE_disjoint _ _ (by omega), Mem.loadLE_storeLE _ (by omega)]
    · intro _
      rw [Mem.loadLE_storeLE _ (by omega)]
    · intro x hx hl
      rw [Mem.storeLE_frame _ _ (by omega), Mem.storeLE_frame _ _ (by omega), Mem.storeLE_frame _ _ (by omega),
        Mem.storeLE_frame _ _ (by omega)]

/-- The chain after the append: what was the whole list is now linked to the new block. -/
theorem chain_append {m : Mem} {p block size : Nat} {bs : List Block} (hc : Chain m p bs 0)
    (hpos : ∀ b ∈ bs, 0 < b.addr) (happart : bs.Pairwise (fun a b => a.stop ≤ b.addr))
    (hbelow : ∀ b ∈ bs, b.stop ≤ block) (hsize : size < 2 ^ 64) (hblock : block < 2 ^ 64) :
    Chain (appendMem m block ((bs.getLast?.map Block.addr).getD 0) size) (if p = 0 then block else p)
      (bs ++ [{ addr := block, size := size, free := false }]) 0 := by
  have hd : metaSize = 24 := rfl
  have hlast : ∀ l, bs.getLast? = some l → l ∈ bs := fun l hl => List.mem_of_getLast? hl
  have hside : (bs.getLast?.map Block.addr).getD 0 = 0 ∨ (bs.getLast?.map Block.addr).getD 0 + metaSize ≤ block := by
    cases hl : bs.getLast? with
    | none => exact Or.inl rfl
    | some l =>
      have := hbelow l (hlast l hl)
      unfold Block.stop at this
      simp only [Option.map_some, Option.getD_some]
      omega
  obtain ⟨h1, h2, h3, h4⟩ := appendMem_spec m block _ size hsize hblock hside
  refine Seg.append_iff.2 ⟨block, ?_, rfl, h1, h2⟩
  rcases List.eq_nil_or_concat bs with rfl | ⟨init, l, rfl⟩
  · obtain rfl : p = 0 := hc
    simp
  · simp only [List.concat_eq_append] at *
    simp only [List.getLast?_append, List.getLast?_singleton, Option.some_or, Option.map_some, Option.getD_some] at h3 h4 ⊢
    have hp : p ≠ 0 := by
      intro h0
      have := (chain_start_eq_zero_iff hc hpos).1 h0
      simp at this
    rw [if_neg hp]
    have hl : 0 < l.addr := hpos l (by simp)
    have hlb : l.stop ≤ block := hbelow l (by simp)
    unfold Block.stop at hlb
    obtain ⟨r, hinit, rfl, hh, _⟩ := Seg.append_iff.1 hc
    refine Seg.append_iff.2 ⟨l.addr, ?_, rfl, ?_, h3 (by omega)⟩
    · apply chain_congr hinit
      intro b hb x hx
      have hbl : b.stop ≤ l.addr := (apart_split happart).1 b hb
      simp only [Block.InHeader, Block.stop] at hx hbl h4
      exact h4 x (by omega) (by omega)
    · refine ⟨?_, ?_⟩
      · rw [← hh.1]
        apply Mem.loadLE_congr
        intro x hx hx'
        simp only [Block.InHeader] at h4
        exact h4 x (by omega) (by omega)
      · rw [← hh.2]
        apply Mem.loadLE_congr
        intro x hx hx'
        simp only [Block.InHeader] at h4
        exact h4 x (by omega) (by omega)

end MallocAux

/-- The heap with a block of `size` bytes put at the break. -/
def Heap.extended (h : Heap) (last size : Nat) : Heap :=
  { mem := appendMem h.mem h.brk last size, brk := h.brk + (metaSize + size),
    moved := h.moved ++ [(h.brk, ((metaSize + size : Nat) : Int))],
    globalBase := if h.globalBase = 0 then h.brk else h.globalBase }

/-- Extending the heap keeps it tiled: the new block is the bytes `sbrk` gave. -/
theorem Tiled.extend {h : Heap} {bs : List Block} {size : Nat} (ht : Tiled h bs) (hpos : 0 < size)
    (hfit : h.brk + (metaSize + size) < 2 ^ 64) :
    Tiled (h.extended ((bs.getLast?.map Block.addr).getD 0) size)
      (bs ++ [{ addr := h.brk, size := size, free := false }]) := by
  have hstop : ∀ b ∈ bs ++ [{ addr := h.brk, size := size, free := false }], b.stop ≤ h.brk + (metaSize + size) := by
    intro b hb
    rcases List.mem_append.1 hb with hb | hb
    · have := ht.below b hb
      omega
    · rw [List.mem_singleton] at hb
      subst hb
      simp only [Block.stop]
      omega
  refine ⟨chain_append ht.chain ht.addr_pos ht.apart ht.below (by omega) ht.brk_lt, ?_, ?_, ?_, hstop, ?_, hfit, ?_⟩
  · rw [List.pairwise_append]
    refine ⟨ht.apart, List.pairwise_singleton _ _, ?_⟩
    intro a ha b hb
    rw [List.mem_singleton] at hb
    subst hb
    exact ht.below a ha
  · intro b hb
    rcases List.mem_append.1 hb with hb | hb
    · exact ht.addr_pos b hb
    · rw [List.mem_singleton] at hb
      subst hb
      exact ht.brk_pos
  · intro b hb
    rcases List.mem_append.1 hb with hb | hb
    · exact ht.size_pos b hb
    · rw [List.mem_singleton] at hb
      subst hb
      exact hpos
  · exact Nat.lt_of_lt_of_le ht.brk_pos (Nat.le_add_right _ _)
  · intro x
    have hnew : Block.InExtent { addr := h.brk, size := size, free := false } x ↔
        Given (h.brk, ((metaSize + size : Nat) : Int)) x := by
      simp only [Block.InExtent, Block.stop, Given]
      omega
    simp only [Heap.extended, List.mem_append, List.mem_singleton, or_and_right, exists_or, exists_eq_left, hnew,
      ht.cover x]

/-! ## `my_malloc` and `my_free` -/

/-- The request takes the first block that fits. -/
theorem myMalloc_reuse {h : Heap} {pre post : List Block} {b : Block} {size fuel : Nat} (grant : Bool)
    (ht : Tiled h (pre ++ b :: post)) (hpos : 0 < size) (hpre : ∀ c ∈ pre, ¬c.Fits size) (hb : b.Fits size)
    (hfuel : pre.length < fuel) :
    myMalloc fuel h size grant = some ((splitBlock h b.addr size).setFree b.addr 0, b.payload) := by
  have hmem : b ∈ pre ++ b :: post := by simp
  have hbase : h.globalBase ≠ 0 := by
    intro h0
    have := (chain_start_eq_zero_iff ht.chain ht.addr_pos).1 h0
    simp at this
  obtain ⟨l, hl⟩ := findFreeBlock_found h.globalBase ht.chain ht.addr_pos hpre hb hfuel
  have hb0 : b.addr ≠ 0 := Nat.ne_of_gt (ht.addr_pos b hmem)
  have hstop := ht.below b hmem
  have hlt := ht.brk_lt
  unfold Block.stop at hstop
  have hpay : Word.add b.addr metaSize = b.payload := Word.add_of_lt (by omega)
  unfold myMalloc
  rw [if_neg (by omega), if_neg hbase, hl]
  simp only [hb0, if_false, hpay]

/-- The request when nothing fits: the answer of `request_space`, asked to link behind the last block. -/
theorem myMalloc_request {h : Heap} {bs : List Block} {size fuel : Nat} (grant : Bool) (ht : Tiled h bs) (hpos : 0 < size)
    (hbs : ∀ c ∈ bs, ¬c.Fits size) (hfuel : bs.length < fuel) :
    myMalloc fuel h size grant =
      let r := requestSpace h ((bs.getLast?.map Block.addr).getD 0) size grant
      if r.2 = 0 then some (r.1, 0)
      else some (if h.globalBase = 0 then { r.1 with globalBase := r.2 } else r.1, Word.add r.2 metaSize) := by
  unfold myMalloc
  rw [if_neg (by omega)]
  by_cases hbase : h.globalBase = 0
  · have hnil := (chain_start_eq_zero_iff ht.chain ht.addr_pos).1 hbase
    subst hnil
    simp only [if_pos hbase]
    rfl
  · have hlast : (bs.getLast?.map Block.addr).getD h.globalBase = (bs.getLast?.map Block.addr).getD 0 := by
      cases hl : bs.getLast? with
      | none =>
        have hnil := List.getLast?_eq_none_iff.1 hl
        exact absurd ((chain_start_eq_zero_iff ht.chain ht.addr_pos).2 hnil) hbase
      | some l => rfl
    rw [if_neg hbase, findFreeBlock_end ht.chain ht.addr_pos hbs hfuel, hlast]
    simp only [if_true, if_neg hbase]

/-- The request when nothing fits and `sbrk` moves the break: a block at the break. -/
theorem myMalloc_extend {h : Heap} {bs : List Block} {size fuel : Nat} (ht : Tiled h bs) (hpos : 0 < size)
    (hsize : size + metaSize < 2 ^ 63) (hbs : ∀ c ∈ bs, ¬c.Fits size) (hfuel : bs.length < fuel)
    (hfit : h.brk + (metaSize + size) < 2 ^ 64) :
    myMalloc fuel h size true = some (h.extended ((bs.getLast?.map Block.addr).getD 0) size, h.brk + metaSize) := by
  have hbrk : h.brk ≠ 0 := Nat.ne_of_gt ht.brk_pos
  rw [myMalloc_request true ht hpos hbs hfuel, requestSpace_extend hsize hfit]
  simp only [if_neg hbrk, Word.add_of_lt (show h.brk + metaSize < 2 ^ 64 by omega), Heap.extended]
  split <;> rfl

/-- The request when nothing fits and `sbrk` refuses: `NULL`, and the heap as it was. -/
theorem myMalloc_refuse {h : Heap} {bs : List Block} {size fuel : Nat} {grant : Bool} (ht : Tiled h bs) (hpos : 0 < size)
    (hbs : ∀ c ∈ bs, ¬c.Fits size) (hfuel : bs.length < fuel) (hr : h.Refuses size grant) :
    myMalloc fuel h size grant = some (h, 0) := by
  rw [myMalloc_request grant ht hpos hbs hfuel, requestSpace_refuse hr]
  rfl

/-- Setting a flag changes a byte of a header only. -/
theorem headersOnly_setFree (h : Heap) {b : Block} {bs : List Block} (v : Nat) (hb : b ∈ bs) :
    HeadersOnly h.mem (h.setFree b.addr v).mem bs := by
  intro x hx
  have := hx b hb
  unfold Block.InHeader metaSize at this
  exact Mem.storeLE_frame _ _ (by omega)

/-- More fuel does not change where the walk ends. -/
theorem findFreeBlock_mono {h : Heap} {size fuel fuel' last p : Nat} {r : Nat × Nat}
    (hr : findFreeBlock h size fuel last p = some r) (hle : fuel ≤ fuel') : findFreeBlock h size fuel' last p = some r := by
  induction fuel generalizing fuel' last p with
  | zero => cases hr
  | succ fuel ih =>
    obtain ⟨fuel', rfl⟩ : ∃ n, fuel' = n + 1 := ⟨fuel' - 1, by omega⟩
    unfold findFreeBlock at hr ⊢
    split at hr
    · rename_i hc
      rw [if_pos hc]
      exact ih hr (by omega)
    · rename_i hc
      rw [if_neg hc]
      exact hr

/-- More fuel does not change what `my_malloc` returns. -/
theorem myMalloc_mono {h : Heap} {size fuel fuel' : Nat} {grant : Bool} {r : Heap × Nat}
    (hr : myMalloc fuel h size grant = some r) (hle : fuel ≤ fuel') : myMalloc fuel' h size grant = some r := by
  unfold myMalloc at hr ⊢
  split at hr
  · rename_i h0
    rw [if_pos h0]
    exact hr
  · rename_i h0
    rw [if_neg h0]
    split at hr
    · rename_i h1
      rw [if_pos h1]
      exact hr
    · rename_i h1
      rw [if_neg h1]
      cases hf : findFreeBlock h size fuel h.globalBase h.globalBase with
      | none => rw [hf] at hr; cases hr
      | some q =>
        rw [hf] at hr
        rw [findFreeBlock_mono hf hle]
        exact hr

/-- What the answer `p` to a request says about the heap: it is as it was, or a new block took the bytes behind the break, or a
block below the break is reused and the break stays. -/
def Answered (h h' : Heap) (size p : Nat) : Prop :=
  p = 0 ∧ h' = h ∨ p = h.brk + metaSize ∧ h'.brk = h.brk + (metaSize + size) ∨
    p ≠ 0 ∧ p < h.brk + metaSize ∧ h'.brk = h.brk

/-- The payload of a block of the list is a pointer below the one a new block would give. -/
theorem answered_reuse {h h' : Heap} {bs : List Block} {b : Block} {size : Nat} (ht : Tiled h bs) (hb : b ∈ bs)
    (hbrk : h'.brk = h.brk) : Answered h h' size b.payload := by
  have h1 := ht.below b hb
  have h2 := ht.size_pos b hb
  have h3 := ht.addr_pos b hb
  unfold Block.stop at h1
  refine Or.inr (Or.inr ⟨?_, ?_, hbrk⟩)
  · unfold Block.payload
    omega
  · unfold Block.payload
    omega

/-- The request takes the first block that fits, whole or cut: what becomes of the heap. The system is not asked. -/
theorem myMalloc_reuse_spec {h : Heap} {pre post : List Block} {b : Block} {size : Nat} (ht : Tiled h (pre ++ b :: post))
    (hpos : 0 < size) (hsize : size + metaSize < 2 ^ 63) (hpre : ∀ c ∈ pre, ¬c.Fits size) (hb : b.Fits size) :
    ∃ h', (∀ fuel grant, pre.length < fuel → myMalloc fuel h size grant = some (h', b.payload)) ∧
      Tiled h' (pre ++ b.taken size ++ post) ∧ HeadersOnly h.mem h'.mem (pre ++ b.taken size ++ post) ∧ h'.brk = h.brk ∧
      h'.moved = h.moved ∧ h'.globalBase = h.globalBase := by
  have hmem : b ∈ pre ++ b :: post := by simp
  have hh : HeaderAt h.mem b := Seg.holds_of_mem ht.chain b hmem
  have hm := fun fuel grant hf => @myMalloc_reuse h pre post b size fuel grant ht hpos hpre hb hf
  rcases Nat.lt_or_ge (size + metaSize) b.size with hs | hs
  · have hstop : b.stop < 2 ^ 64 := Nat.lt_of_le_of_lt (ht.below b hmem) ht.brk_lt
    have hcut := (ht.cut hpos hs hsize).setFree false
    have heq := splitBlock_cut hh hs hsize hstop
    unfold Block.taken
    rw [if_neg (by omega), List.append_assoc]
    refine ⟨_, hm, hcut, ?_, ?_, ?_, ?_⟩
    · intro x hx
      have hb' : ¬b.InHeader x := hx { b with size := size, free := false } (by simp)
      have hn := hx { addr := b.payload + size, size := b.size - size - metaSize, free := true } (by simp)
      have hset : ((splitBlock h b.addr size).setFree b.addr 0).mem x = (splitBlock h b.addr size).mem x :=
        headersOnly_setFree (splitBlock h b.addr size) 0 (List.mem_singleton_self b) x (by simpa using hb')
      rw [hset, heq]
      unfold Block.stop at hstop
      exact (cutMem_spec h.mem b size (b.size - size - metaSize) hh.2 (by unfold Block.payload; omega)).2.2.2.2 x hb' hn
    · rw [heq]
      rfl
    · rw [heq]
      rfl
    · rw [heq]
      rfl
  · rw [splitBlock_whole hh hs hsize] at hm
    unfold Block.taken
    rw [if_pos hs, ← List.append_cons]
    exact ⟨_, hm, ht.setFree false, @headersOnly_setFree h { b with free := false } _ 0 (by simp), rfl, rfl, rfl⟩

/-- `my_malloc` is one request to the list of blocks: with enough fuel it returns, the list after it is the one first fit gives,
and no byte outside the headers of that list has changed. -/
theorem myMalloc_firstFit {h : Heap} {bs : List Block} {size fuel : Nat} (grant : Bool) (ht : Tiled h bs) (hpos : 0 < size)
    (hsize : size + metaSize < 2 ^ 63) (hfuel : bs.length < fuel) :
    ∃ h' p bs', myMalloc fuel h size grant = some (h', p) ∧ FirstFit h.brk size bs bs' p ∧ Tiled h' bs' ∧
      HeadersOnly h.mem h'.mem bs' ∧ Answered h h' size p := by
  rcases exists_first_fit bs size with ⟨pre, b, post, rfl, hpre, hb⟩ | hbs
  · obtain ⟨h', hm, ht', ho, hbrk, _⟩ := myMalloc_reuse_spec ht hpos hsize hpre hb
    refine ⟨h', b.payload, _, hm fuel grant (by simp at hfuel; omega), ?_, ht', ho, answered_reuse ht (by simp) hbrk⟩
    unfold Block.taken
    rcases Nat.lt_or_ge (size + metaSize) b.size with hs | hs
    · rw [if_neg (by omega), List.append_assoc]
      exact FirstFit.split hpre hb hs
    · rw [if_pos hs, ← List.append_cons]
      exact FirstFit.whole hpre hb hs
  · by_cases hg : grant = true ∧ h.brk + (metaSize + size) < 2 ^ 64
    · obtain ⟨rfl, hfit⟩ := hg
      have hm := myMalloc_extend ht hpos hsize hbs hfuel hfit
      refine ⟨_, _, _, hm, FirstFit.extend hbs, ht.extend hpos hfit, ?_, Or.inr (Or.inl ⟨rfl, rfl⟩)⟩
      intro x hx
      have hn := hx { addr := h.brk, size := size, free := false } (by simp)
      have hside : ∀ l, bs.getLast? = some l → l ∈ bs := fun l hl => List.mem_of_getLast? hl
      cases hl : bs.getLast? with
      | none =>
        exact (appendMem_spec h.mem h.brk 0 size (by omega) ht.brk_lt (Or.inl rfl)).2.2.2 x hn (Or.inl rfl)
      | some l =>
        have hmem := hside l hl
        have hbelow := ht.below l hmem
        have hxl := hx l (by simp [hmem])
        unfold Block.stop at hbelow
        unfold Block.InHeader metaSize at hxl
        have hd : metaSize = 24 := rfl
        exact (appendMem_spec h.mem h.brk l.addr size (by omega) ht.brk_lt (Or.inr (by omega))).2.2.2 x hn (by omega)
    · have hm := myMalloc_refuse ht hpos hbs hfuel (refuses_of_not hsize hg)
      exact ⟨_, _, _, hm, FirstFit.refuse hbs, ht, fun x _ => rfl, Or.inl ⟨rfl, rfl⟩⟩

/-- Whatever `my_malloc` returned, on whatever fuel, is one request to the list of blocks. -/
theorem myMalloc_cases {h h' : Heap} {bs : List Block} {size fuel p : Nat} {grant : Bool} (ht : Tiled h bs)
    (hpos : 0 < size) (hsize : size + metaSize < 2 ^ 63) (hm : myMalloc fuel h size grant = some (h', p)) :
    ∃ bs', FirstFit h.brk size bs bs' p ∧ Tiled h' bs' ∧ HeadersOnly h.mem h'.mem bs' ∧ Answered h h' size p := by
  obtain ⟨h1, p1, bs', hm', hf, ht', ho, ha⟩ :=
    myMalloc_firstFit grant ht hpos hsize (show bs.length < max fuel (bs.length + 1) by omega)
  have heq := (myMalloc_mono hm (Nat.le_max_left fuel (bs.length + 1))).symm.trans hm'
  simp only [Option.some.injEq, Prod.mk.injEq] at heq
  obtain ⟨rfl, rfl⟩ := heq
  exact ⟨bs', hf, ht', ho, ha⟩

/-- Freeing a pointer that is no payload of the list does nothing to it. -/
theorem freeAt_of_ne {p : Nat} {bs : List Block} (h : ∀ b ∈ bs, b.payload ≠ p) : freeAt p bs = bs := by
  induction bs with
  | nil => rfl
  | cons b bs ih =>
    rw [freeAt, List.map_cons, if_neg (h b (by simp)), ← freeAt, ih (fun c hc => h c (by simp [hc]))]

/-- Freeing the payload of a block of a list without overlaps changes that block. -/
theorem freeAt_eq {pre post : List Block} {b : Block}
    (h : (pre ++ b :: post).Pairwise (fun a c => a.stop ≤ c.addr)) (hs : ∀ c ∈ pre ++ b :: post, 1 ≤ c.size) :
    freeAt b.payload (pre ++ b :: post) = pre ++ { b with free := true } :: post := by
  obtain ⟨h1, h2⟩ := apart_split h
  have hpre : ∀ c ∈ pre, c.payload ≠ b.payload := by
    intro c hc
    have := h1 c hc
    have := hs c (by simp [hc])
    unfold Block.stop Block.payload at *
    omega
  have hpost : ∀ c ∈ post, c.payload ≠ b.payload := by
    intro c hc
    have := h2 c hc
    have := hs b (by simp)
    unfold Block.stop Block.payload at *
    omega
  have := freeAt_of_ne hpre
  have := freeAt_of_ne hpost
  unfold freeAt at *
  simp_all

/-- `my_free` of the payload of a block of the list frees that block, and changes a byte of its header only. -/
theorem myFree_freeAt {h : Heap} {bs : List Block} {b : Block} (ht : Tiled h bs) (hb : b ∈ bs) :
    Tiled (myFree h b.payload) (freeAt b.payload bs) ∧ HeadersOnly h.mem (myFree h b.payload).mem bs := by
  have hstop := ht.below b hb
  have hlt := ht.brk_lt
  unfold Block.stop at hstop
  have hd : metaSize = 24 := rfl
  have hfree : myFree h b.payload = h.setFree b.addr true.toNat := by
    unfold myFree Block.payload
    rw [if_neg (by omega), Word.sub_of_le (by omega) (by omega), Nat.add_sub_cancel]
    rfl
  rw [hfree]
  refine ⟨?_, headersOnly_setFree h _ hb⟩
  obtain ⟨pre, post, rfl⟩ := List.append_of_mem hb
  rw [freeAt_eq ht.apart ht.size_pos]
  exact ht.setFree true

end OsLab.Malloc
