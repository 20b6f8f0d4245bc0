import OsLab.Theorems.Malloc

/-!
# `my_malloc` is first fit

In every heap a program can come to, whatever it frees: a request takes the lowest block that is free and large enough, whole or
cut, without asking the system; when there is none the list grows by one block at the break, and when the system refuses that,
nothing changes. So a block that is freed, or one before it, serves the next request that fits in it.
-/

namespace OsLab.Malloc

open BlocksAux MallocAux HeapAux

namespace FirstFitAux

variable {h : Heap} {bs : List Block} {b : Block} {size : Nat}

/-- When the system does not refuse, it moves the break. -/
theorem granted_of_not_refuses {grant : Bool} (hsize : size + metaSize < 2 ^ 63) (hr : ¬h.Refuses size grant) :
    grant = true ∧ h.brk + (metaSize + size) < 2 ^ 64 := by
  by_contra hno
  exact hr (refuses_of_not hsize hno)

/-- The first block that fits, and one that fits: the first is it or lies before it. -/
theorem first_le {pre post : List Block} {c : Block} (ht : Tiled h (pre ++ c :: post)) (hpre : ∀ d ∈ pre, ¬d.Fits size)
    (hb : b ∈ pre ++ c :: post) (hfit : b.Fits size) : c = b ∨ c.addr < b.addr := by
  simp only [List.mem_append, List.mem_cons] at hb
  rcases hb with hb | rfl | hb
  · exact absurd hfit (hpre b hb)
  · exact Or.inl rfl
  · have hstop := (apart_split ht.apart).2 b hb
    unfold Block.stop metaSize at hstop
    exact Or.inr (by omega)

/-- After a block is freed, a request that fits in it gets that block or the first before it that fits. -/
theorem myMalloc_after_free (ht : Tiled h bs) (hm : Modest bs) (hb : b ∈ bs) (hpos : 0 < size) (hs : size ≤ b.size) :
    ∃ h' q n, (∀ fuel, n ≤ fuel → ∀ grant, myMalloc fuel (myFree h b.payload) size grant = some (h', q)) ∧
      h'.brk = (myFree h b.payload).brk ∧ h'.moved = (myFree h b.payload).moved ∧ q ≠ 0 ∧ q ≤ b.payload ∧
      (q = b.payload ↔ ∀ c ∈ bs, c.addr < b.addr → ¬c.Fits size) := by
  obtain ⟨ht', _⟩ := myFree_freeAt ht hb
  have hsize : size + metaSize < 2 ^ 63 := Nat.lt_of_le_of_lt (Nat.add_le_add_right hs _) (hm b hb)
  have hfreed : { b with free := true } ∈ freeAt b.payload bs := List.mem_map.2 ⟨b, hb, if_pos rfl⟩
  have hfit : ({ b with free := true } : Block).Fits size := ⟨rfl, hs⟩
  rcases exists_first_fit (freeAt b.payload bs) size with ⟨pre, c, post, heq, hpre, hc⟩ | hno
  · rw [heq] at ht' hfreed
    obtain ⟨h', hmal, _, _, hbrk, hmoved, _⟩ := myMalloc_reuse_spec ht' hpos hsize hpre hc
    have hfirst := first_le ht' hpre hfreed hfit
    refine ⟨h', c.payload, pre.length + 1, fun fuel hf grant => hmal fuel grant hf, hbrk, hmoved, ?_, ?_, ?_⟩
    · unfold Block.payload metaSize
      omega
    · rcases hfirst with rfl | hlt
      · exact Nat.le_refl _
      · exact Nat.add_le_add_right (Nat.le_of_lt hlt) _
    · constructor
      · -- a block before it that fits would have come first
        intro hq d hd hlt hdf
        have hd' : d ∈ freeAt b.payload bs := freeAt_keeps hd (by unfold Block.payload; omega)
        rw [heq] at hd'
        unfold Block.payload at hq
        rcases first_le ht' hpre hd' hdf with rfl | hcd
        · omega
        · omega
      · intro hnone
        rcases hfirst with rfl | hlt
        · rfl
        · have hc' : c ∈ freeAt b.payload bs := heq ▸ List.mem_append_right _ List.mem_cons_self
          obtain ⟨d, hd, rfl⟩ := List.mem_map.1 hc'
          by_cases hp : d.payload = b.payload
          · rw [if_pos hp]
            exact hp
          · rw [if_neg hp] at hc hlt
            exact absurd hc (hnone d hd hlt)
  · exact absurd hfit (hno _ hfreed)

end FirstFitAux

open FirstFitAux

/-- In every heap that a program comes to, by requests and by frees of whatever it was ever given, there is a list of blocks with
increasing addresses, from `global_base` on, and a request of `size` bytes does to it what first fit does. If a block is free and
large enough, the lowest one is handed out whatever the system would have answered: it stands in the list taken, whole or cut, with
the blocks before and behind it as they were, and `sbrk` has given nothing. If there is none, the heap grows by exactly
`META_SIZE + size` bytes and the new block stands at the end of the list; and only when the system refuses that is the answer
`NULL`, with the heap as it was. So after a block is freed, a request that fits in it gets a pointer, without more memory: the
block itself exactly when no block before it fits. -/
theorem my_malloc_first_fit (h : Heap) (hr : h.Reachable) :
    ∃ bs, Chain h.mem h.globalBase bs 0 ∧ bs.Pairwise (fun c d => c.addr < d.addr) ∧
      (∀ size, 0 < size → size + metaSize < 2 ^ 63 →
        (∀ b ∈ bs, b.Fits size → (∀ c ∈ bs, c.Fits size → b.addr ≤ c.addr) →
          ∃ h' n pre post, (∀ fuel, n ≤ fuel → ∀ grant, myMalloc fuel h size grant = some (h', b.payload)) ∧
            h'.brk = h.brk ∧ h'.moved = h.moved ∧ bs = pre ++ b :: post ∧
            Chain h'.mem h'.globalBase (pre ++ b.taken size ++ post) 0) ∧
        ((∀ b ∈ bs, ¬b.Fits size) → ∃ n, ∀ fuel, n ≤ fuel → ∀ grant,
          (¬h.Refuses size grant → ∃ h', myMalloc fuel h size grant = some (h', h.brk + metaSize) ∧
            h'.brk = h.brk + (metaSize + size) ∧ h'.moved = h.moved ++ [(h.brk, ((metaSize + size : Nat) : Int))] ∧
            Chain h'.mem h'.globalBase (bs ++ [{ addr := h.brk, size := size, free := false }]) 0) ∧
          (h.Refuses size grant → myMalloc fuel h size grant = some (h, 0)))) ∧
      ∀ b ∈ bs, ∀ size, 0 < size → size ≤ b.size →
        ∃ h' q n, (∀ fuel, n ≤ fuel → ∀ grant, myMalloc fuel (myFree h b.payload) size grant = some (h', q)) ∧
          h'.brk = (myFree h b.payload).brk ∧ h'.moved = (myFree h b.payload).moved ∧ q ≠ 0 ∧ q ≤ b.payload ∧
          (q = b.payload ↔ ∀ c ∈ bs, c.addr < b.addr → ¬c.Fits size) := by
  obtain ⟨bs, ht, hm⟩ := tiled_reachable hr
  refine ⟨bs, ht.chain, ?_, ?_, fun b hb size => myMalloc_after_free ht hm hb⟩
  · apply ht.apart.imp
    intro c d hcd
    unfold Block.stop metaSize at hcd
    omega
  · intro size hpos hsize
    refine ⟨?_, ?_⟩
    · intro b hb hfit hlow
      obtain ⟨pre, post, rfl, hpre⟩ := lowest_first ht hb hlow
      obtain ⟨h', hmal, ht', _, hbrk, hmoved, _⟩ := myMalloc_reuse_spec ht hpos hsize hpre hfit
      exact ⟨h', pre.length + 1, pre, post, fun fuel hf grant => hmal fuel grant hf, hbrk, hmoved, rfl, ht'.chain⟩
    · intro hbs
      refine ⟨bs.length + 1, fun fuel hf grant => ⟨fun hno => ?_, fun hre => myMalloc_refuse ht hpos hbs hf hre⟩⟩
      obtain ⟨rfl, hfit⟩ := granted_of_not_refuses hsize hno
      exact ⟨_, myMalloc_extend ht hpos hsize hbs hf hfit, rfl, rfl, (ht.extend hpos hfit).chain⟩

/-- Two requests, the first freed: a request for fewer bytes gets its block without the system, and so does every request that fits
in the block it frees. -/
theorem my_malloc_first_fit_reuse :
    ∃ s, Run LooseStep ⟨Heap.empty (fun _ => 0) break4096, []⟩ [.malloc 8 4120, .malloc 16 4152, .free 4120] s ∧
      s.heap.Reachable ∧ (∃ h, myMalloc 2 s.heap 4 false = some (h, 4120)) ∧
      ∃ bs, Chain s.heap.mem s.heap.globalBase bs 0 ∧ ∀ b ∈ bs, 8 ≤ b.size →
        ∃ h' q n, (∀ fuel, n ≤ fuel → ∀ grant, myMalloc fuel (myFree s.heap b.payload) 8 grant = some (h', q)) ∧ q ≠ 0 := by
  have h1 : LooseStep ⟨Heap.empty (fun _ => 0) break4096, []⟩ (.malloc 8 4120) _ :=
    LooseStep.malloc 1 8 true (by decide) (by decide) rfl
  have hr := (Run.single h1).snoc (LooseStep.malloc (p := 4152) 2 16 true (by decide) (by decide) rfl)
  have hr := hr.snoc (LooseStep.free (q := 4120) (Or.inr (by decide)))
  have hreach : Heap.Reachable _ := Or.inl ⟨_, _, _, _, hr, rfl⟩
  refine ⟨_, hr, hreach, ⟨_, rfl⟩, ?_⟩
  obtain ⟨bs, hc, _, _, hfreed⟩ := my_malloc_first_fit _ hreach
  refine ⟨bs, hc, fun b hb hs => ?_⟩
  obtain ⟨h', q, n, hm, _, _, hq, _⟩ := hfreed b hb 8 (by decide) hs
  exact ⟨h', q, n, hm, hq⟩

end OsLab.Malloc
