import OsLab.HookMalloc
import OsLab.Theorems.MallocSizes
import Mathlib.Data.List.Nodup

/-!
# What one step of a thread does to the program

The program is sane (`Sane`): its live allocations are payloads of blocks in use, each of its own. A locked section, a byte stored
in a live allocation and a new size for one keep this, and leave every other live allocation as it is (`Keeps`): live, with its
bytes and the size in its header.
-/

namespace OsLab.HookMalloc

open OsLab.Malloc OsLab.Malloc.HeapAux OsLab.Malloc.SizesAux

/-- The live allocations are payloads of blocks in use, each of its own, and every block is modest. -/
structure Sane (s : Prog) (bs : List Block) : Prop where
  inv : ProgInv [] s bs
  modest : Modest bs

/-- A live allocation is as it was: live, with its bytes and the size in its header. -/
structure Keeps (s s' : Prog) (x : Nat × Nat) : Prop where
  live : x ∈ s'.live
  bytes : ∀ a, InAlloc x a → s'.heap.mem a = s.heap.mem a
  size : blockSize s' x.1 = blockSize s x.1

variable {s s' : Prog} {bs bs' : List Block} {b : Block} {x : Nat × Nat} {p n size : Nat}

theorem Keeps.refl (hx : x ∈ s.live) : Keeps s s x := ⟨hx, fun _ _ => rfl, rfl⟩

namespace HookAux

/-- What was stored is forgotten: the places of the blocks and the allocations stay. -/
theorem progInv_forget {tr : List Event} (h : ProgInv tr s bs) : ProgInv [] s bs :=
  ⟨h.tiled, h.owned, h.distinct, by simp [lastStore]⟩

/-- At first there is no block, and nothing is allocated. -/
theorem sane_start (mem : Mem) (b : Break) : Sane ⟨Heap.empty mem b, []⟩ [] := ⟨progInv_empty mem b, nofun⟩

/-! ## Blocks and their headers -/

/-- The header of a block is where `free` looks for it. -/
theorem header_addr (ht : Tiled s.heap bs) (hb : b ∈ bs) : Word.sub b.payload metaSize = b.addr := by
  have h1 := ht.below b hb
  have h2 := ht.brk_lt
  unfold Block.stop at h1
  unfold Block.payload
  rw [Word.sub_of_le (by omega) (by omega), Nat.add_sub_cancel]

/-- The header before the payload of a block has its size. -/
theorem blockSize_payload (ht : Tiled s.heap bs) (hb : b ∈ bs) : blockSize s b.payload = b.size := by
  unfold blockSize
  rw [header_addr ht hb]
  exact (Seg.holds_of_mem ht.chain b hb).1

end HookAux

open HookAux

/-- Less than what is in use is in use. -/
theorem InUse.mono {h : Heap} {m : Nat} (hu : InUse h p n) (hle : m ≤ n) : InUse h p m := by
  obtain ⟨block, h1, h2, h3, h4⟩ := hu
  exact ⟨block, h1, h2, h3, hle.trans h4⟩

/-- The header of a live allocation has room for it, and is the header of a block in use. -/
theorem Sane.inUse (h : Sane s bs) (hx : x ∈ s.live) : InUse s.heap x.1 (blockSize s x.1) ∧ x.2 ≤ blockSize s x.1 := by
  obtain ⟨b, hb, hbx, hs, hf⟩ := h.inv.owned x hx
  have hh := Seg.holds_of_mem h.inv.tiled.chain b hb
  rw [← hbx, blockSize_payload h.inv.tiled hb]
  refine ⟨⟨b.addr, (inList_iff h.inv.tiled _).2 ⟨b, hb, rfl⟩, ?_, rfl, Nat.le_of_eq hh.1.symm⟩, hs⟩
  exact hh.2.trans (by simp [hf])

/-- Two live allocations of one pointer are one. -/
theorem Sane.eq_of_fst (h : Sane s bs) {y : Nat × Nat} (hx : x ∈ s.live) (hy : y ∈ s.live) (he : x.1 = y.1) : x = y :=
  List.inj_on_of_nodup_map h.inv.distinct hx hy he

/-- Two live allocations of different pointers share no byte. -/
theorem Sane.not_inAlloc (h : Sane s bs) {y : Nat × Nat} {a : Nat} (hx : x ∈ s.live) (hy : y ∈ s.live) (hne : x.1 ≠ y.1)
    (ha : InAlloc y a) : ¬InAlloc x a := by
  intro hxa
  obtain ⟨b, hb, hbx, hxs, _⟩ := h.inv.owned x hx
  obtain ⟨c, hc, hcy, hys, _⟩ := h.inv.owned y hy
  unfold InAlloc at ha hxa
  unfold Block.payload at hbx hcy
  rcases h.inv.tiled.eq_or_apart hb hc with rfl | h1 | h1
  · exact hne (hbx.symm.trans hcy)
  · unfold Block.stop at h1
    omega
  · unfold Block.stop at h1
    omega

theorem Sane.pos (h : Sane s bs) (hx : x ∈ s.live) : x.1 ≠ 0 := by
  obtain ⟨b, hb, hbx, _⟩ := h.inv.owned x hx
  have := h.inv.tiled.addr_pos b hb
  unfold Block.payload at hbx
  omega

namespace HookAux

/-! ## Locked sections -/

/-- `my_malloc` under the lock: the heap is left and `NULL` is the answer, or there is a new live allocation, and the others are
kept. -/
theorem lockedMalloc_spec {fuel : Nat} {grant : Bool} {k : Nat → Pc} {pc : Pc} (h : Sane s bs)
    (hok : s.heap.Admits size grant) (hs : lockedMalloc fuel grant s size k = some (s', pc)) :
    ∃ bs' p, pc = k p ∧ Sane s' bs' ∧ (∀ x ∈ s.live, Keeps s s' x) ∧
      ((p = 0 ∧ s' = s) ∨ (p ≠ 0 ∧ (p, size) ∈ s'.live ∧ ∀ x ∈ s.live, x.1 ≠ p)) := by
  unfold lockedMalloc at hs
  split at hs
  · cases hs
  · rename_i h' p hm
    obtain ⟨rfl, rfl⟩ := Prod.mk.inj (Option.some.inj hs)
    rcases admitted_cases h.inv.tiled h.modest hok hm with ⟨hpos, hsize⟩ | ⟨rfl, rfl⟩
    · obtain ⟨⟨bs', hi', hmod, hused⟩, hkept⟩ := h.inv.malloc hpos hsize hm
      have hi' := progInv_forget hi'
      have hold : ∀ x ∈ s.live, x ∈ if p = 0 then s.live else s.live ++ [(p, size)] := by
        intro x hx
        split
        · exact hx
        · exact List.mem_append_left _ hx
      refine ⟨bs', p, rfl, ⟨hi', hmod h.modest⟩, ?_, ?_⟩
      · intro x hx
        refine ⟨hold x hx, hkept x hx, ?_⟩
        obtain ⟨b, hb, hbx, _, hf⟩ := h.inv.owned x hx
        rw [← hbx, blockSize_payload h.inv.tiled hb, blockSize_payload hi'.tiled (hused b hb hf)]
      · by_cases hp : p = 0
        · -- the answer `NULL` to a request that may be made leaves the heap
          have hsound := sound_of_modest h.inv hpos hsize hm
          subst hp
          rw [hsound.2 rfl]
          exact Or.inl ⟨rfl, rfl⟩
        · refine Or.inr ⟨hp, by simp [hp], fun x hx he => ?_⟩
          have hd := hi'.distinct
          simp only [hp, if_false, List.map_append, List.map_cons, List.map_nil] at hd
          exact (List.nodup_append.1 hd).2.2 x.1 (List.mem_map_of_mem hx) p (by simp) he
    · exact ⟨bs, 0, rfl, h, fun x hx => Keeps.refl hx, Or.inl ⟨rfl, rfl⟩⟩

/-- `my_malloc` under the lock returns. -/
theorem lockedMalloc_returns {grant : Bool} (h : Sane s bs) (hok : s.heap.Admits size grant) (k : Nat → Pc) :
    ∃ s' pc, lockedMalloc (bs.length + 1) grant s size k = some (s', pc) := by
  obtain ⟨⟨h', p⟩, hm⟩ := admitted_returns h.inv.tiled h.modest hok (Nat.lt_succ_self bs.length)
  unfold lockedMalloc
  rw [hm]
  exact ⟨_, _, rfl⟩

/-- `my_free` of a live pointer under the lock: its allocation is live no more, the others are kept. -/
theorem lockedFree_spec (h : Sane s bs) (hl : (p, n) ∈ s.live) :
    (∃ bs', Sane (lockedFree s p) bs') ∧ (∀ x ∈ s.live, x.1 ≠ p → Keeps s (lockedFree s p) x) ∧
      ∀ x ∈ (lockedFree s p).live, x.1 ≠ p := by
  obtain ⟨⟨bs', hi', hmod, hused⟩, hkept⟩ := h.inv.free hl
  have hi' := progInv_forget hi'
  refine ⟨⟨bs', hi', hmod h.modest⟩, ?_, ?_⟩
  · intro x hx hne
    refine ⟨List.mem_filter.2 ⟨hx, by simpa using hne⟩, hkept x hx, ?_⟩
    obtain ⟨b, hb, hbx, _⟩ := h.inv.owned x hx
    rw [← hbx] at hne ⊢
    rw [blockSize_payload h.inv.tiled hb]
    exact blockSize_payload hi'.tiled (hused b hb hne)
  · intro x hx
    simpa using (List.mem_filter.1 hx).2

/-! ## Bytes and sizes -/

/-- A byte is stored in a live allocation: no other byte of one changes, and no header. -/
theorem store_spec {a : Nat} (v : UInt8) (h : Sane s bs) (hl : (p, n) ∈ s.live) (ha : InAlloc (p, n) a) :
    Sane { s with heap := s.heap.store a v } bs ∧ (∀ x ∈ s.live, x.1 ≠ p → Keeps s { s with heap := s.heap.store a v } x) ∧
      (∀ x ∈ s.live, blockSize { s with heap := s.heap.store a v } x.1 = blockSize s x.1) ∧
      ∀ block, InList s.heap block → ¬(block ≤ a ∧ a < block + metaSize) := by
  have hi' := progInv_forget (h.inv.store (v := v) hl ha.1 ha.2)
  have hsize : ∀ x ∈ s.live, blockSize { s with heap := s.heap.store a v } x.1 = blockSize s x.1 := by
    intro x hx
    obtain ⟨b, hb, hbx, _⟩ := h.inv.owned x hx
    rw [← hbx, blockSize_payload h.inv.tiled hb]
    exact blockSize_payload hi'.tiled hb
  refine ⟨⟨hi', h.modest⟩, ?_, hsize, ?_⟩
  · intro x hx hne
    refine ⟨hx, fun y hy => Mem.set_of_ne _ _ ?_, hsize x hx⟩
    rintro rfl
    exact h.not_inAlloc hl hx (Ne.symm hne) hy ha
  · intro block hbl
    obtain ⟨c, hc, rfl⟩ := (inList_iff h.inv.tiled block).1 hbl
    obtain ⟨d, hd, h1, h2, _⟩ := h.inv.owned _ hl
    exact not_inHeader h.inv.tiled hd h1 h2 ha c hc

/-- A live allocation gets a size its block has room for. -/
theorem resize_spec (h : Sane s bs) (hl : (p, n) ∈ s.live) (hroom : size ≤ blockSize s p) :
    Sane (resize s p size) bs ∧ (∀ x ∈ s.live, x.1 ≠ p → Keeps s (resize s p size) x) ∧
      (p, size) ∈ (resize s p size).live := by
  have hmem : ∀ x ∈ (resize s p size).live, x = (p, size) ∨ x ∈ s.live := by
    intro x hx
    obtain ⟨y, hy, rfl⟩ := List.mem_map.1 hx
    split
    · exact Or.inl rfl
    · exact Or.inr hy
  refine ⟨⟨⟨h.inv.tiled, ?_, ?_, by simp [lastStore]⟩, h.modest⟩, ?_, ?_⟩
  · intro x hx
    rcases hmem x hx with rfl | hx
    · obtain ⟨b, hb, hbp, _, hf⟩ := h.inv.owned _ hl
      refine ⟨b, hb, hbp, ?_, hf⟩
      rw [← blockSize_payload h.inv.tiled hb, hbp]
      exact hroom
    · exact h.inv.owned x hx
  · have hfst : (resize s p size).live.map Prod.fst = s.live.map Prod.fst := by
      unfold resize
      rw [List.map_map]
      refine List.map_congr_left fun x _ => ?_
      simp only [Function.comp_apply]
      split
      · rename_i he
        exact he.symm
      · rfl
    rw [hfst]
    exact h.inv.distinct
  · intro x hx hne
    refine ⟨List.mem_map.2 ⟨x, hx, if_neg hne⟩, fun _ _ => rfl, rfl⟩
  · exact List.mem_map.2 ⟨(p, n), hl, if_pos rfl⟩

/-- A raise of the break by others keeps everything. -/
theorem raise_spec (h : Sane s bs) (hn : s.heap.brk + n < 2 ^ 64) :
    Sane { s with heap := s.heap.raise n } bs ∧ ∀ x ∈ s.live, Keeps s { s with heap := s.heap.raise n } x :=
  ⟨⟨⟨tiled_raise h.inv.tiled hn, h.inv.owned, h.inv.distinct, by simp [lastStore]⟩, h.modest⟩,
    fun _ hx => ⟨hx, fun _ _ => rfl, rfl⟩⟩

end HookAux

end OsLab.HookMalloc
