import OsLab.Lemmas.MallocOps

/-!
# Whole runs of the allocator

Two kinds of programs. One that frees whatever it was ever given keeps the list of blocks whole: it tiles the bytes `sbrk` gave
and loses no block (`blocks_tile_heap`). One that frees live pointers only, and stores inside its live allocations, keeps its
data: no byte of a live allocation changes but by its own stores (`live_allocations_keep_bytes`).
-/

namespace OsLab.Malloc

open BlocksAux MallocAux

namespace HeapAux

/-! ## What first fit does to the blocks of a list -/

variable {brk size p : Nat} {bs bs' : List Block}

/-- Where a block of the list is after a request: it is as it was, or it was free and stands taken at the same address. -/
theorem firstFit_old (h : FirstFit brk size bs bs' p) :
    ∀ b ∈ bs, b ∈ bs' ∨ (b.free = true ∧ ∃ c ∈ bs', c.addr = b.addr) := by
  intro b hb
  cases h with
  | whole hpre hc hs =>
    simp only [List.mem_append, List.mem_cons] at hb
    rcases hb with hb | rfl | hb
    · exact Or.inl (by simp [hb])
    · exact Or.inr ⟨hc.1, _, List.mem_append_right _ List.mem_cons_self, rfl⟩
    · exact Or.inl (by simp [hb])
  | split hpre hc hs =>
    simp only [List.mem_append, List.mem_cons] at hb
    rcases hb with hb | rfl | hb
    · exact Or.inl (by simp [hb])
    · exact Or.inr ⟨hc.1, _, List.mem_append_right _ List.mem_cons_self, rfl⟩
    · exact Or.inl (by simp [hb])
  | extend hbs => exact Or.inl (by simp [hb])
  | refuse hbs => exact Or.inl hb

/-- Where a block of the list after a request comes from: it is taken or left from one that stood there and was no smaller, it is
the rest cut from one, or it is the new one at the break. -/
theorem firstFit_origin (h : FirstFit brk size bs bs' p) :
    ∀ c ∈ bs', (∃ b ∈ bs, c.addr = b.addr ∧ c.size ≤ b.size) ∨ (∃ b ∈ bs, c.addr = b.payload + size ∧ c.size ≤ b.size) ∨
      (c.addr = brk ∧ c.size = size) := by
  intro c hc
  have hsame : c ∈ bs → ∃ b ∈ bs, c.addr = b.addr ∧ c.size ≤ b.size := fun h => ⟨c, h, rfl, Nat.le_refl _⟩
  cases h with
  | @whole _ _ b hpre hb hs =>
    simp only [List.mem_append, List.mem_cons] at hc
    rcases hc with hc | rfl | hc
    · exact Or.inl (hsame (by simp [hc]))
    · exact Or.inl ⟨b, by simp, rfl, Nat.le_refl _⟩
    · exact Or.inl (hsame (by simp [hc]))
  | @split _ _ b hpre hb hs =>
    simp only [List.mem_append, List.mem_cons] at hc
    rcases hc with hc | rfl | rfl | hc
    · exact Or.inl (hsame (by simp [hc]))
    · exact Or.inl ⟨b, by simp, rfl, hb.2⟩
    · exact Or.inr (Or.inl ⟨b, by simp, rfl, Nat.le_trans (Nat.sub_le _ _) (Nat.sub_le _ _)⟩)
    · exact Or.inl (hsame (by simp [hc]))
  | extend hbs =>
    rcases List.mem_append.1 hc with hc | hc
    · exact Or.inl (hsame hc)
    · rw [List.mem_singleton] at hc
      subst hc
      exact Or.inr (Or.inr ⟨rfl, rfl⟩)
  | refuse hbs => exact Or.inl (hsame hc)

/-- A request loses no block: each address is still the address of a block. -/
theorem firstFit_addr (h : FirstFit brk size bs bs' p) : ∀ b ∈ bs, ∃ c ∈ bs', c.addr = b.addr := by
  intro b hb
  rcases firstFit_old h b hb with hb' | ⟨_, hc⟩
  · exact ⟨b, hb', rfl⟩
  · exact hc

/-- A request leaves the blocks in use as they are. -/
theorem firstFit_keeps (h : FirstFit brk size bs bs' p) : ∀ b ∈ bs, b.free = false → b ∈ bs' := by
  intro b hb hfree
  rcases firstFit_old h b hb with hb' | ⟨hf, _⟩
  · exact hb'
  · exact nomatch hfree.symm.trans hf

/-- The pointer a request gets is the payload of a block in use that is large enough. -/
theorem firstFit_result (h : FirstFit brk size bs bs' p) (hp : p ≠ 0) :
    ∃ b ∈ bs', b.payload = p ∧ size ≤ b.size ∧ b.free = false := by
  cases h with
  | whole hpre hc hs => exact ⟨_, List.mem_append_right _ List.mem_cons_self, rfl, hc.2, rfl⟩
  | split hpre hc hs => exact ⟨_, List.mem_append_right _ List.mem_cons_self, rfl, Nat.le_refl _, rfl⟩
  | extend hbs => exact ⟨_, List.mem_append_right _ List.mem_cons_self, rfl, Nat.le_refl _, rfl⟩
  | refuse hbs => exact absurd rfl hp

/-- The pointer a request gets is the payload of no block that was in use. -/
theorem firstFit_new {h : Heap} (hf : FirstFit h.brk size bs bs' p) (ht : Tiled h bs) (hp : p ≠ 0) :
    ∀ b ∈ bs, b.free = false → b.payload ≠ p := by
  intro b hb hfree heq
  cases hf with
  | whole hpre hc hs =>
    have := ht.payload_inj hb (by simp) heq
    subst this
    exact absurd hc.1 (by simp [hfree])
  | split hpre hc hs =>
    have := ht.payload_inj hb (by simp) heq
    subst this
    exact absurd hc.1 (by simp [hfree])
  | extend hbs =>
    have := ht.below b hb
    have := ht.size_pos b hb
    unfold Block.payload at heq
    unfold Block.stop at *
    omega
  | refuse hbs => exact absurd rfl hp

/-- Every block is one the allocator could have asked `sbrk` for: with its header it is a positive signed number of bytes. -/
def Modest (bs : List Block) : Prop := ∀ b ∈ bs, b.size + metaSize < 2 ^ 63

/-- A request for such a size leaves such blocks only. -/
theorem firstFit_modest (h : FirstFit brk size bs bs' p) (hsize : size + metaSize < 2 ^ 63) (hm : Modest bs) :
    Modest bs' := by
  intro c hc
  rcases firstFit_origin h c hc with ⟨b, hb, _, hle⟩ | ⟨b, hb, _, hle⟩ | ⟨_, hs⟩
  · exact Nat.lt_of_le_of_lt (Nat.add_le_add_right hle _) (hm b hb)
  · exact Nat.lt_of_le_of_lt (Nat.add_le_add_right hle _) (hm b hb)
  · rw [hs]
    exact hsize

/-- Freeing leaves the sizes. -/
theorem freeAt_modest (q : Nat) (hm : Modest bs) : Modest (freeAt q bs) := by
  intro b hb
  obtain ⟨c, hc, rfl⟩ := List.mem_map.1 hb
  split <;> exact hm c hc

/-- Freeing keeps every address. -/
theorem freeAt_addr (q : Nat) : ∀ b ∈ bs, ∃ c ∈ freeAt q bs, c.addr = b.addr ∧ c.payload = b.payload := by
  intro b hb
  refine ⟨_, List.mem_map_of_mem hb, ?_⟩
  split <;> exact ⟨rfl, rfl⟩

/-- Freeing leaves the blocks of other pointers. -/
theorem freeAt_keeps {q : Nat} {b : Block} (hb : b ∈ bs) (hq : b.payload ≠ q) : b ∈ freeAt q bs := by
  unfold freeAt
  exact List.mem_map.2 ⟨b, hb, if_neg hq⟩

/-! ## The list in memory -/

/-- In a tiled heap the links lead to the addresses of the blocks. -/
theorem inList_iff {h : Heap} (ht : Tiled h bs) (a : Nat) : InList h a ↔ ∃ b ∈ bs, b.addr = a := by
  constructor
  · intro hl
    induction hl with
    | base h0 =>
      cases bs with
      | nil => exact absurd ht.chain h0
      | cons b bs => exact ⟨b, by simp, ht.chain.1.symm⟩
    | @next block _ hn ih =>
      obtain ⟨b, hb, rfl⟩ := ih
      obtain ⟨pre, post, rfl⟩ := List.append_of_mem hb
      obtain ⟨r, _, rfl, _, hpost⟩ := Seg.append_iff.1 ht.chain
      cases post with
      | nil => exact absurd hpost hn
      | cons c post => exact ⟨c, by simp, hpost.1.symm⟩
  · rintro ⟨b, hb, rfl⟩
    obtain ⟨pre, post, rfl⟩ := List.append_of_mem hb
    clear hb
    -- from the right: the last block of the prefix links to the next one
    induction pre using List.reverseRecOn generalizing b post with
    | nil =>
      have hc := ht.chain
      simp only [List.nil_append, Seg.cons_iff] at hc
      rw [← hc.1]
      exact InList.base (by rw [hc.1]; exact Nat.ne_of_gt (ht.addr_pos b (by simp)))
    | append_singleton pre c ih =>
      have hc := ht.chain
      rw [List.append_assoc, List.singleton_append] at hc ht
      obtain ⟨r, _, _, _, hb, _⟩ := Seg.append_iff.1 hc
      have hn : h.next c.addr = b.addr := hb
      rw [← hn]
      exact InList.next (ih c (b :: post) ht) (by rw [hn]; exact Nat.ne_of_gt (ht.addr_pos b (by simp)))

/-- In a tiled heap every request returns. -/
theorem myMalloc_returns {h : Heap} (ht : Tiled h bs) {size : Nat} (hpos : 0 < size) (hsize : size + metaSize < 2 ^ 63)
    (grant : Bool) : ∃ n, ∀ fuel, n ≤ fuel → ∃ r, myMalloc fuel h size grant = some r := by
  refine ⟨bs.length + 1, fun fuel hf => ?_⟩
  obtain ⟨h', p, _, hm, _⟩ := myMalloc_firstFit grant ht hpos hsize (show bs.length < fuel by omega)
  exact ⟨(h', p), hm⟩

/-- A foreign raise of the break changes nothing for the blocks. -/
theorem tiled_raise {h : Heap} (ht : Tiled h bs) {n : Nat} (hn : h.brk + n < 2 ^ 64) : Tiled (h.raise n) bs := by
  refine ⟨ht.chain, ht.apart, ht.addr_pos, ht.size_pos, ?_, ?_, hn, ht.cover⟩
  · intro b hb
    exact Nat.le_trans (ht.below b hb) (Nat.le_add_right _ _)
  · exact Nat.lt_of_lt_of_le ht.brk_pos (Nat.le_add_right _ _)

/-- The empty heap is tiled by no block. -/
theorem tiled_empty (mem : Mem) (b : Break) : Tiled (Heap.empty mem b) [] := by
  refine ⟨rfl, List.Pairwise.nil, ?_, ?_, ?_, b.pos, b.lt, ?_⟩
  · intro c hc
    cases hc
  · intro c hc
    cases hc
  · intro c hc
    cases hc
  · intro x
    simp [Heap.empty]

/-! ## Programs that free anything they were given -/

/-- The heap is tiled, and every pointer ever returned is the payload of a block. -/
def LooseInv (s : Loose) : Prop :=
  ∃ bs, Tiled s.heap bs ∧ ∀ q ∈ s.returned, ∃ b ∈ bs, b.payload = q

/-- One step keeps a tiling and the blocks of the pointers returned, loses no block and makes none of an immodest size. -/
theorem looseBlocks_step {s s' : Loose} {e : Event} (hs : LooseStep s e s') (ht : Tiled s.heap bs)
    (hret : ∀ q ∈ s.returned, ∃ b ∈ bs, b.payload = q) :
    ∃ bs', Tiled s'.heap bs' ∧ (∀ q ∈ s'.returned, ∃ b ∈ bs', b.payload = q) ∧ (∀ b ∈ bs, ∃ c ∈ bs', c.addr = b.addr) ∧
      (Modest bs → Modest bs') := by
  cases hs with
  | @malloc h p fuel size grant hpos hsize hm =>
    obtain ⟨bs', hf, ht', _⟩ := myMalloc_cases ht hpos hsize hm
    have hold : ∀ q ∈ s.returned, ∃ b ∈ bs', b.payload = q := by
      intro q hq
      obtain ⟨b, hb, rfl⟩ := hret q hq
      obtain ⟨c, hc, hca⟩ := firstFit_addr hf b hb
      exact ⟨c, hc, by unfold Block.payload; rw [hca]⟩
    refine ⟨bs', ht', ?_, firstFit_addr hf, firstFit_modest hf hsize⟩
    intro q hq
    by_cases hp : p = 0
    · rw [if_pos hp] at hq
      exact hold q hq
    · rw [if_neg hp, List.mem_append, List.mem_singleton] at hq
      rcases hq with hq | rfl
      · exact hold q hq
      · obtain ⟨b, hb, hbp, _⟩ := firstFit_result hf hp
        exact ⟨b, hb, hbp⟩
  | @free q hq =>
    by_cases h0 : q = 0
    · subst h0
      exact ⟨bs, ht, hret, fun b hb => ⟨b, hb, rfl⟩, id⟩
    · obtain ⟨b, hb, rfl⟩ := hret q (hq.resolve_left h0)
      refine ⟨freeAt b.payload bs, (myFree_freeAt ht hb).1, ?_, ?_, freeAt_modest _⟩
      · intro q hq
        obtain ⟨c, hc, rfl⟩ := hret q hq
        obtain ⟨d, hd, _, hdp⟩ := freeAt_addr b.payload c hc
        exact ⟨d, hd, hdp⟩
      · intro c hc
        obtain ⟨d, hd, hda, _⟩ := freeAt_addr b.payload c hc
        exact ⟨d, hd, hda⟩
  | raise n hn => exact ⟨bs, tiled_raise ht hn, hret, fun b hb => ⟨b, hb, rfl⟩, id⟩

/-- One step keeps the invariant and loses no block. -/
theorem looseInv_step {s s' : Loose} {e : Event} (hs : LooseStep s e s') (hi : LooseInv s) :
    LooseInv s' ∧ ∀ a, InList s.heap a → InList s'.heap a := by
  obtain ⟨bs, ht, hret⟩ := hi
  obtain ⟨bs', ht', hret', haddr, _⟩ := looseBlocks_step hs ht hret
  refine ⟨⟨bs', ht', hret'⟩, ?_⟩
  intro a ha
  obtain ⟨b, hb, rfl⟩ := (inList_iff ht a).1 ha
  exact (inList_iff ht' _).2 (haddr b hb)

/-- A run from the empty heap keeps the invariant, with modest blocks. -/
theorem looseBlocks_run {mem : Mem} {b : Break} {tr : List Event} {s : Loose}
    (hr : Run LooseStep ⟨Heap.empty mem b, []⟩ tr s) :
    ∃ bs, Tiled s.heap bs ∧ (∀ q ∈ s.returned, ∃ b ∈ bs, b.payload = q) ∧ Modest bs := by
  refine Run.invariant (P := fun _ s => ∃ bs, Tiled s.heap bs ∧ (∀ q ∈ s.returned, ∃ b ∈ bs, b.payload = q) ∧ Modest bs)
    ⟨[], tiled_empty mem b, by simp, nofun⟩ ?_ hr
  intro _ t e u _ ⟨bs, ht, hret, hm⟩ he
  obtain ⟨bs', ht', hret', _, hm'⟩ := looseBlocks_step he ht hret
  exact ⟨bs', ht', hret', hm' hm⟩

/-- Every run keeps it. -/
theorem looseInv_run {mem : Mem} {b : Break} {tr : List Event} {s : Loose}
    (hr : Run LooseStep ⟨Heap.empty mem b, []⟩ tr s) : LooseInv s := by
  obtain ⟨bs, ht, hret, _⟩ := looseBlocks_run hr
  exact ⟨bs, ht, hret⟩

/-- What a run has in the list stays in the list. -/
theorem inList_run {s s' : Loose} {tr : List Event} (hi : LooseInv s) (hr : Run LooseStep s tr s') :
    ∀ a, InList s.heap a → InList s'.heap a := by
  refine (Run.invariant (P := fun _ t => LooseInv t ∧ ∀ a, InList s.heap a → InList t.heap a) ⟨hi, fun a ha => ha⟩ ?_ hr).2
  intro _ t e u _ ⟨hit, hsub⟩ he
  obtain ⟨hiu, hstep⟩ := looseInv_step he hit
  exact ⟨hiu, fun a ha => hstep a (hsub a ha)⟩

end HeapAux

open HeapAux

/-- The list of blocks tiles the heap, whatever is freed and however often. In every run of requests, of frees of `NULL` or of
pointers ever returned, and of foreign raises of the break: the links lead from `global_base` through finitely many headers with
increasing addresses to `NULL`; no block is empty; the extents do not overlap and are exactly the bytes successful calls of
`sbrk` gave; a block once in the list is in the list from then on, the header before every pointer ever returned is one, and
every further request returns. -/
theorem blocks_tile_heap (mem : Mem) (b : Break) (tr : List Event) (s : Loose)
    (hr : Run LooseStep ⟨Heap.empty mem b, []⟩ tr s) :
    (∃ bs, Chain s.heap.mem s.heap.globalBase bs 0 ∧ bs.Pairwise (fun c d => c.addr < d.addr) ∧ (∀ c ∈ bs, 1 ≤ c.size) ∧
      bs.Pairwise (fun c d => ∀ x, ¬(c.InExtent x ∧ d.InExtent x)) ∧
      ∀ x, (∃ c ∈ bs, c.InExtent x) ↔ ∃ g ∈ s.heap.moved, Given g x) ∧
    (∀ tr₁ tr₂ s₁, Run LooseStep ⟨Heap.empty mem b, []⟩ tr₁ s₁ → Run LooseStep s₁ tr₂ s →
      ∀ a, InList s₁.heap a → InList s.heap a) ∧
    (∀ q ∈ s.returned, InList s.heap (Word.sub q metaSize)) ∧
    (∀ size grant, 0 < size → size + metaSize < 2 ^ 63 →
      ∃ n, ∀ fuel, n ≤ fuel → ∃ r, myMalloc fuel s.heap size grant = some r) := by
  obtain ⟨bs, ht, hret⟩ := looseInv_run hr
  refine ⟨⟨bs, ht.chain, ?_, ht.size_pos, ?_, ht.cover⟩, ?_, ?_, ?_⟩
  · apply ht.apart.imp
    intro c d hcd
    unfold Block.stop metaSize at hcd
    omega
  · apply ht.apart.imp
    intro c d hcd x hx
    unfold Block.InExtent at hx
    omega
  · intro _ _ s₁ h1 h2
    exact inList_run (looseInv_run h1) h2
  · intro q hq
    obtain ⟨c, hc, rfl⟩ := hret q hq
    have := ht.below c hc
    have := ht.brk_lt
    unfold Block.payload Block.stop at *
    rw [Word.sub_of_le (by omega) (by omega), Nat.add_sub_cancel]
    exact (inList_iff ht _).2 ⟨c, hc, rfl⟩
  · intro size grant hpos hsize
    exact myMalloc_returns ht hpos hsize grant

/-- A break to start from. -/
def break4096 : Break := ⟨4096, by decide, by decide⟩

/-- A pointer freed twice: its header is still in the list. -/
theorem blocks_tile_heap_double_free :
    ∃ s, Run LooseStep ⟨Heap.empty (fun _ => 0) break4096, []⟩ [.malloc 8 4120, .free 4120, .free 4120] s ∧
      s.returned = [4120] ∧ InList s.heap 4096 := by
  have h1 : LooseStep ⟨Heap.empty (fun _ => 0) break4096, []⟩ (.malloc 8 4120) _ :=
    LooseStep.malloc 1 8 true (by decide) (by decide) rfl
  have hr := ((Run.single h1).snoc (LooseStep.free (q := 4120) (Or.inr (by decide)))).snoc
    (LooseStep.free (q := 4120) (Or.inr (by decide)))
  refine ⟨_, hr, by decide, ?_⟩
  exact (blocks_tile_heap _ _ _ _ hr).2.2.1 4120 (by decide)

/-! ## Programs that free live pointers and store inside live allocations -/

namespace HeapAux

/-- The address is inside the allocation. -/
def InAlloc (x : Nat × Nat) (a : Nat) : Prop := x.1 ≤ a ∧ a < x.1 + x.2

/-- The bytes of an allocation, counted from its pointer. -/
theorem inAlloc_add {p n k : Nat} (h : k < n) : InAlloc (p, n) (p + k) :=
  ⟨Nat.le_add_right _ _, Nat.add_lt_add_left h _⟩

/-- The heap is tiled; each live allocation is the payload, from its start, of a block in use, each of its own; and the bytes of
the live allocations hold what the program stored in them last. -/
structure ProgInv (tr : List Event) (s : Prog) (bs : List Block) : Prop where
  tiled : Tiled s.heap bs
  owned : ∀ x ∈ s.live, ∃ b ∈ bs, b.payload = x.1 ∧ x.2 ≤ b.size ∧ b.free = false
  distinct : (s.live.map Prod.fst).Nodup
  stored : ∀ x ∈ s.live, ∀ a, InAlloc x a → ∀ v, lastStore a tr = some v → s.heap.mem a = v

variable {s s' : Prog} {tr : List Event}

/-- The bytes of an allocation lie in no header of a list that has the allocation's block. -/
theorem not_inHeader {h : Heap} (ht : Tiled h bs) {b : Block} (hb : b ∈ bs) {x : Nat × Nat} (hx : b.payload = x.1)
    (hn : x.2 ≤ b.size) {a : Nat} (ha : InAlloc x a) : ∀ c ∈ bs, ¬c.InHeader a := by
  intro c hc hca
  unfold InAlloc at ha
  unfold Block.payload at hx
  rcases ht.eq_or_apart hb hc with rfl | h1 | h1
  · unfold Block.InHeader at hca
    omega
  · unfold Block.InHeader at hca
    unfold Block.stop at h1
    omega
  · have := ht.size_pos c hc
    unfold Block.InHeader at hca
    unfold Block.stop at h1
    omega

/-- Two live allocations share no byte. -/
theorem ProgInv.disjoint (hi : ProgInv tr s bs) :
    s.live.Pairwise (fun x y => ∀ a, ¬(InAlloc x a ∧ InAlloc y a)) := by
  have hd := hi.distinct
  rw [List.Nodup, List.pairwise_map] at hd
  refine hd.imp_of_mem ?_
  intro x y hx hy hne a ⟨hxa, hya⟩
  obtain ⟨b, hb, hbx, hxs, _⟩ := hi.owned x hx
  obtain ⟨c, hc, hcy, hys, _⟩ := hi.owned y hy
  unfold InAlloc at hxa hya
  unfold Block.payload at hbx hcy
  rcases hi.tiled.eq_or_apart hb hc with rfl | h1 | h1
  · exact hne (hbx.symm.trans hcy)
  · unfold Block.stop at h1
    omega
  · unfold Block.stop at h1
    omega

/-- One event more. -/
theorem lastStore_snoc (a : Nat) (tr : List Event) (e : Event) :
    lastStore a (tr ++ [e]) = storeStep a (lastStore a tr) e := by
  simp only [lastStore, List.foldl_append, List.foldl_cons, List.foldl_nil]

/-- A byte of a live allocation outside the headers of the list after an operation that changes headers only is as before. -/
theorem kept_of_headersOnly {m m' : Mem} {h : Heap} (ht : Tiled h bs) (ho : HeadersOnly m m' bs) {b : Block} (hb : b ∈ bs)
    {x : Nat × Nat} (hx : b.payload = x.1) (hn : x.2 ≤ b.size) {a : Nat} (ha : InAlloc x a) : m' a = m a :=
  ho a (not_inHeader ht hb hx hn ha)

/-- When no byte of a live allocation changes and nothing is stored, the bytes are still those last stored. -/
theorem ProgInv.stored_snoc {e : Event} (hi : ProgInv tr s bs) (hl : ∀ x ∈ s'.live, x ∈ s.live)
    (hk : ∀ x ∈ s.live, ∀ a, InAlloc x a → s'.heap.mem a = s.heap.mem a)
    (he : ∀ a, storeStep a (lastStore a tr) e = lastStore a tr) :
    ∀ x ∈ s'.live, ∀ a, InAlloc x a → ∀ v, lastStore a (tr ++ [e]) = some v → s'.heap.mem a = v := by
  intro x hx a ha v hv
  rw [lastStore_snoc, he] at hv
  exact (hk x (hl x hx) a ha).trans (hi.stored x (hl x hx) a ha v hv)

/-- `my_malloc` keeps the invariant, the blocks in use and every byte of a live allocation. -/
theorem ProgInv.malloc {h : Heap} {p fuel size : Nat} {grant : Bool} (hi : ProgInv tr s bs) (hpos : 0 < size)
    (hsize : size + metaSize < 2 ^ 63) (hm : myMalloc fuel s.heap size grant = some (h, p)) :
    (∃ bs', ProgInv (tr ++ [.malloc size p]) ⟨h, if p = 0 then s.live else s.live ++ [(p, size)]⟩ bs' ∧
      (Modest bs → Modest bs') ∧ ∀ b ∈ bs, b.free = false → b ∈ bs') ∧
      ∀ x ∈ s.live, ∀ a, InAlloc x a → h.mem a = s.heap.mem a := by
  obtain ⟨bs', hf, ht', ho, _⟩ := myMalloc_cases hi.tiled hpos hsize hm
  have hown : ∀ x ∈ s.live, ∃ b ∈ bs', b.payload = x.1 ∧ x.2 ≤ b.size ∧ b.free = false := by
    intro x hx
    obtain ⟨b, hb, h1, h2, h3⟩ := hi.owned x hx
    exact ⟨b, firstFit_keeps hf b hb h3, h1, h2, h3⟩
  have hkept : ∀ x ∈ s.live, ∀ a, InAlloc x a → h.mem a = s.heap.mem a := by
    intro x hx a ha
    obtain ⟨b, hb, h1, h2, _⟩ := hown x hx
    exact kept_of_headersOnly ht' ho hb h1 h2 ha
  refine ⟨⟨bs', ?_, firstFit_modest hf hsize, firstFit_keeps hf⟩, hkept⟩
  by_cases hp : p = 0
  · subst hp
    refine ⟨ht', hown, hi.distinct, ProgInv.stored_snoc hi (fun x hx => hx) hkept ?_⟩
    intro a
    simp only [storeStep, ne_eq, not_true_eq_false, false_and, if_false]
  · rw [if_neg hp]
    refine ⟨ht', ?_, ?_, ?_⟩
    · intro x hx
      rcases List.mem_append.1 hx with hx | hx
      · exact hown x hx
      · rw [List.mem_singleton] at hx
        subst hx
        exact firstFit_result hf hp
    · rw [List.map_append, List.nodup_append]
      refine ⟨hi.distinct, by simp, ?_⟩
      intro q hq r hr hqr
      simp only [List.map_cons, List.map_nil, List.mem_singleton] at hr
      obtain ⟨x, hx, rfl⟩ := List.mem_map.1 hq
      obtain ⟨b, hb, h1, _, h3⟩ := hi.owned x hx
      exact firstFit_new hf hi.tiled hp b hb h3 (h1.trans (hqr.trans hr))
    · -- a byte of the new allocation has no last store: the call forgets what was stored there before
      intro x hx a ha v hv
      rw [lastStore_snoc, storeStep] at hv
      split at hv
      · cases hv
      · rename_i hout
        rcases List.mem_append.1 hx with hx | hx
        · exact (hkept x hx a ha).trans (hi.stored x hx a ha v hv)
        · rw [List.mem_singleton] at hx
          subst hx
          exact absurd ⟨hp, ha⟩ hout

/-- `my_free` of a live allocation keeps the invariant, the blocks of other pointers and every byte of a live allocation. -/
theorem ProgInv.free {p n : Nat} (hi : ProgInv tr s bs) (hl : (p, n) ∈ s.live) :
    (∃ bs', ProgInv (tr ++ [.free p]) ⟨myFree s.heap p, s.live.filter (fun x => x.1 ≠ p)⟩ bs' ∧
      (Modest bs → Modest bs') ∧ ∀ b ∈ bs, b.payload ≠ p → b ∈ bs') ∧
      ∀ x ∈ s.live, ∀ a, InAlloc x a → (myFree s.heap p).mem a = s.heap.mem a := by
  obtain ⟨b, hb, hbp, _⟩ := hi.owned _ hl
  simp only at hbp
  subst hbp
  obtain ⟨ht', ho⟩ := myFree_freeAt hi.tiled hb
  have hkept : ∀ x ∈ s.live, ∀ a, InAlloc x a → (myFree s.heap b.payload).mem a = s.heap.mem a := by
    intro x hx a ha
    obtain ⟨c, hc, h1, h2, _⟩ := hi.owned x hx
    exact kept_of_headersOnly hi.tiled ho hc h1 h2 ha
  refine ⟨⟨freeAt b.payload bs, ⟨ht', ?_, ?_, ?_⟩, freeAt_modest _, fun c hc hp => freeAt_keeps hc hp⟩, hkept⟩
  · intro x hx
    simp only [List.mem_filter, decide_eq_true_eq, ne_eq] at hx
    obtain ⟨c, hc, h1, h2, h3⟩ := hi.owned x hx.1
    exact ⟨c, freeAt_keeps hc (by rw [h1]; exact hx.2), h1, h2, h3⟩
  · exact hi.distinct.sublist (List.filter_sublist.map _)
  · exact ProgInv.stored_snoc hi (fun x hx => (List.mem_filter.1 hx).1) hkept (fun _ => rfl)

/-- A store into a live allocation keeps the invariant. -/
theorem ProgInv.store {p n a : Nat} {v : UInt8} (hi : ProgInv tr s bs) (hl : (p, n) ∈ s.live) (h1 : p ≤ a)
    (h2 : a < p + n) : ProgInv (tr ++ [.store a v]) ⟨s.heap.store a v, s.live⟩ bs := by
  have hne : ∀ x, x ≠ a → (s.heap.store a v).mem x = s.heap.mem x := fun x hx => Mem.set_of_ne _ _ hx
  obtain ⟨b, hb, hbp, hbs, _⟩ := hi.owned _ hl
  have hout := not_inHeader hi.tiled hb hbp hbs (show InAlloc (p, n) a from ⟨h1, h2⟩)
  refine ⟨?_, hi.owned, hi.distinct, ?_⟩
  · refine ⟨?_, hi.tiled.apart, hi.tiled.addr_pos, hi.tiled.size_pos, hi.tiled.below, hi.tiled.brk_pos,
      hi.tiled.brk_lt, hi.tiled.cover⟩
    apply chain_congr hi.tiled.chain
    intro c hc x hx
    apply hne
    rintro rfl
    exact hout c hc hx
  · intro x hx y hy w hw
    rw [lastStore_snoc, storeStep] at hw
    by_cases hya : a = y
    · subst hya
      simp only [if_true, Option.some.injEq] at hw
      subst hw
      exact Mem.set_self _ _ _
    · rw [if_neg hya] at hw
      rw [hne y (Ne.symm hya)]
      exact hi.stored x hx y hy w hw

/-- One step keeps the invariant, and changes no byte of a live allocation but the one it stores. -/
theorem progInv_step {e : Event} (hi : ProgInv tr s bs) (hs : Step s e s') :
    (∃ bs', ProgInv (tr ++ [e]) s' bs' ∧ (Modest bs → Modest bs')) ∧
      ∀ x ∈ s.live, ∀ a, InAlloc x a → (∀ v, e ≠ .store a v) → s'.heap.mem a = s.heap.mem a := by
  cases hs with
  | malloc fuel size grant hpos hsize hm =>
    obtain ⟨⟨bs', hi', hm', _⟩, hkept⟩ := hi.malloc hpos hsize hm
    exact ⟨⟨bs', hi', hm'⟩, fun x hx a ha _ => hkept x hx a ha⟩
  | freeNull =>
    refine ⟨⟨bs, ⟨hi.tiled, hi.owned, hi.distinct, ?_⟩, id⟩, fun _ _ _ _ _ => rfl⟩
    exact ProgInv.stored_snoc hi (fun x hx => hx) (fun _ _ _ _ => rfl) (fun _ => rfl)
  | free hl =>
    obtain ⟨⟨bs', hi', hm', _⟩, hkept⟩ := hi.free hl
    exact ⟨⟨bs', hi', hm'⟩, fun x hx a ha _ => hkept x hx a ha⟩
  | store v hl h1 h2 =>
    refine ⟨⟨bs, hi.store hl h1 h2, id⟩, ?_⟩
    intro x _ y _ he
    refine Mem.set_of_ne _ _ ?_
    rintro rfl
    exact he v rfl
  | raise n hn =>
    refine ⟨⟨bs, ⟨tiled_raise hi.tiled hn, hi.owned, hi.distinct, ?_⟩, id⟩, fun _ _ _ _ _ => rfl⟩
    exact ProgInv.stored_snoc hi (fun x hx => hx) (fun _ _ _ _ => rfl) (fun _ => rfl)

/-- The invariant holds of the empty heap. -/
theorem progInv_empty (mem : Mem) (b : Break) : ProgInv [] ⟨Heap.empty mem b, []⟩ [] :=
  ⟨tiled_empty mem b, by simp, by simp, by simp⟩

/-- A run from the empty heap keeps the invariant, with modest blocks. -/
theorem progInv_run {mem : Mem} {b : Break} (hr : Run Step ⟨Heap.empty mem b, []⟩ tr s) :
    ∃ bs, ProgInv tr s bs ∧ Modest bs := by
  refine Run.invariant (P := fun tr s => ∃ bs, ProgInv tr s bs ∧ Modest bs) ⟨[], progInv_empty mem b, nofun⟩ ?_ hr
  intro tr t e u _ ⟨bs, hi, hm⟩ he
  obtain ⟨bs', hi', hm'⟩ := (progInv_step hi he).1
  exact ⟨bs', hi', hm' hm⟩

/-- A reachable heap is tiled by modest blocks. -/
theorem tiled_reachable {h : Heap} (hr : h.Reachable) : ∃ bs, Tiled h bs ∧ Modest bs := by
  rcases hr with ⟨mem, b, tr, s, hr, rfl⟩ | ⟨mem, b, tr, s, hr, rfl⟩
  · obtain ⟨bs, ht, _, hm⟩ := looseBlocks_run hr
    exact ⟨bs, ht, hm⟩
  · obtain ⟨bs, hi, hm⟩ := progInv_run hr
    exact ⟨bs, hi.tiled, hm⟩

end HeapAux

/-- Live allocations keep their bytes. In every run of requests, of frees of `NULL` or of live pointers, of stores inside live
allocations and of foreign raises of the break: the live allocations share no byte with each other or with a header of the list;
each of their bytes holds the value the program stored there last; no further step changes a byte of one but the store to that
byte; and every further request returns. -/
theorem live_allocations_keep_bytes (mem : Mem) (b : Break) (tr : List Event) (s : Prog)
    (hr : Run Step ⟨Heap.empty mem b, []⟩ tr s) :
    s.live.Pairwise (fun x y => ∀ a, ¬(InAlloc x a ∧ InAlloc y a)) ∧
    (∀ x ∈ s.live, ∀ block, InList s.heap block → ∀ a, InAlloc x a → ¬(block ≤ a ∧ a < block + metaSize)) ∧
    (∀ x ∈ s.live, ∀ a, InAlloc x a → ∀ v, lastStore a tr = some v → s.heap.mem a = v) ∧
    (∀ e s', Step s e s' → ∀ x ∈ s.live, ∀ a, InAlloc x a → (∀ v, e ≠ .store a v) → s'.heap.mem a = s.heap.mem a) ∧
    (∀ size grant, 0 < size → size + metaSize < 2 ^ 63 →
      ∃ n, ∀ fuel, n ≤ fuel → ∃ r, myMalloc fuel s.heap size grant = some r) := by
  obtain ⟨bs, hi, _⟩ := progInv_run hr
  refine ⟨hi.disjoint, ?_, hi.stored, ?_, ?_⟩
  · intro x hx block hbl a ha
    obtain ⟨c, hc, rfl⟩ := (inList_iff hi.tiled block).1 hbl
    obtain ⟨d, hd, h1, h2, _⟩ := hi.owned x hx
    exact not_inHeader hi.tiled hd h1 h2 ha c hc
  · intro e s' he
    exact (progInv_step hi he).2
  · intro size grant hpos hsize
    exact myMalloc_returns hi.tiled hpos hsize grant

/-- A byte stored in an allocation of 8 bytes is there after another allocation was made and freed, and its block split. -/
theorem live_allocations_keep_bytes_store :
    ∃ s, Run Step ⟨Heap.empty (fun _ => 0) break4096, []⟩
        [.malloc 8 4120, .store 4121 7, .malloc 64 4152, .free 4152, .malloc 8 4152] s ∧
      s.live = [(4120, 8), (4152, 8)] ∧ s.heap.size 4160 = 32 ∧ s.heap.mem 4121 = 7 := by
  have h1 : Step ⟨Heap.empty (fun _ => 0) break4096, []⟩ (.malloc 8 4120) _ :=
    Step.malloc 1 8 true (by decide) (by decide) rfl
  have hr := (Run.single h1).snoc (Step.store (p := 4120) (n := 8) (a := 4121) 7 (by decide) (by decide) (by decide))
  have hr := hr.snoc (Step.malloc (p := 4152) 2 64 true (by decide) (by decide) rfl)
  have hr := hr.snoc (Step.free (p := 4152) (n := 64) (by decide))
  have hr := hr.snoc (Step.malloc (p := 4152) 2 8 true (by decide) (by decide) rfl)
  refine ⟨_, hr, by decide, by decide, ?_⟩
  exact (live_allocations_keep_bytes _ _ _ _ hr).2.2.1 (4120, 8) (by decide) 4121 ⟨by decide, by decide⟩ 7 (by decide)

end OsLab.Malloc
