import OsLab.Theorems.Malloc

/-!
# What the sizes asked for do to the heap

`META_SIZE + size` is computed without a check and read as a signed increment, and no size is rounded. So the answer of
`my_malloc` is sound exactly when `sbrk` refuses every sum that is not a positive signed number (`my_malloc_sound`), and the
pointers are multiples of 8 as long as every size that puts a block in the list is one (`pointers_word_aligned`). Runs that break
the two conditions stand next to the theorems.
-/

namespace OsLab.Malloc

open MallocAux HeapAux

namespace SizesAux

/-! ## Requests of any size -/

variable {s s' : Prog} {tr : List Event} {bs : List Block}

/-- With modest blocks, a size that is not modest fits nowhere. -/
theorem not_fits_of_large (hm : Modest bs) {size : Nat} (hsize : 2 ^ 63 ≤ size + metaSize) : ∀ c ∈ bs, ¬c.Fits size := by
  intro c hc hf
  have h1 := hm c hc
  have h2 := hf.2
  omega

/-- A request that `sbrk` refuses although no block fits is answered with `NULL`, on whatever fuel it returned. -/
theorem myMalloc_null {h h' : Heap} {size fuel p : Nat} {grant : Bool} (ht : Tiled h bs) (hpos : 0 < size)
    (hbs : ∀ c ∈ bs, ¬c.Fits size) (hr : h.Refuses size grant) (hm : myMalloc fuel h size grant = some (h', p)) :
    h' = h ∧ p = 0 := by
  have h1 := myMalloc_mono hm (Nat.le_max_left fuel (bs.length + 1))
  rw [myMalloc_refuse ht hpos hbs (show bs.length < max fuel (bs.length + 1) by omega) hr] at h1
  simp only [Option.some.injEq, Prod.mk.injEq] at h1
  exact ⟨h1.1.symm, h1.2.symm⟩

/-- `my_malloc(0)` is `NULL`. -/
theorem myMalloc_zero {h h' : Heap} {fuel p : Nat} {grant : Bool} (hm : myMalloc fuel h 0 grant = some (h', p)) :
    h' = h ∧ p = 0 := by
  simp only [myMalloc, if_true, Option.some.injEq, Prod.mk.injEq] at hm
  exact ⟨hm.1.symm, hm.2.symm⟩

/-- A request that may be made is a modest one for some bytes, or one that leaves the heap and returns `NULL`. -/
theorem admitted_cases {h h' : Heap} {size fuel p : Nat} {grant : Bool} (ht : Tiled h bs) (hb : Modest bs)
    (hok : h.Admits size grant) (hm : myMalloc fuel h size grant = some (h', p)) :
    0 < size ∧ size + metaSize < 2 ^ 63 ∨ h' = h ∧ p = 0 := by
  rcases Nat.eq_zero_or_pos size with rfl | hpos
  · exact Or.inr (myMalloc_zero hm)
  · rcases Nat.lt_or_ge (size + metaSize) (2 ^ 63) with hsize | hsize
    · exact Or.inl ⟨hpos, hsize⟩
    · have hr : h.Refuses size grant := hok.resolve_left (by omega)
      exact Or.inr (myMalloc_null ht hpos (not_fits_of_large hb hsize) hr hm)

/-- A request that may be made returns. -/
theorem admitted_returns {h : Heap} {size fuel : Nat} {grant : Bool} (ht : Tiled h bs) (hb : Modest bs)
    (hok : h.Admits size grant) (hfuel : bs.length < fuel) : ∃ r, myMalloc fuel h size grant = some r := by
  rcases Nat.eq_zero_or_pos size with rfl | hpos
  · exact ⟨_, rfl⟩
  · rcases Nat.lt_or_ge (size + metaSize) (2 ^ 63) with hsize | hsize
    · obtain ⟨h', p, _, hm, _⟩ := myMalloc_firstFit grant ht hpos hsize hfuel
      exact ⟨_, hm⟩
    · exact ⟨_, myMalloc_refuse ht hpos (not_fits_of_large hb hsize) hfuel (hok.resolve_left (by omega))⟩

/-- A request that leaves the heap keeps the invariant. -/
theorem progInv_null (hi : ProgInv tr s bs) (size : Nat) : ProgInv (tr ++ [.malloc size 0]) s bs := by
  refine ⟨hi.tiled, hi.owned, hi.distinct, ProgInv.stored_snoc hi (fun x hx => hx) (fun _ _ _ _ => rfl) ?_⟩
  intro a
  simp only [storeStep, ne_eq, not_true_eq_false, false_and, if_false]

/-- One step of a program that makes admitted requests only keeps the invariant and the blocks modest. -/
theorem sizedStep_inv {e : Event} (hs : SizedStep Heap.Admits s e s') (hi : ProgInv tr s bs) (hb : Modest bs) :
    ∃ bs', ProgInv (tr ++ [e]) s' bs' ∧ Modest bs' := by
  cases hs with
  | lawful hs =>
    obtain ⟨bs', hi', hb'⟩ := (progInv_step hi hs).1
    exact ⟨bs', hi', hb' hb⟩
  | malloc fuel size grant _ hok hm =>
    rcases admitted_cases hi.tiled hb hok hm with ⟨hpos, hsize⟩ | ⟨rfl, rfl⟩
    · obtain ⟨bs', hi', hb', _⟩ := (hi.malloc hpos hsize hm).1
      exact ⟨bs', hi', hb' hb⟩
    · exact ⟨bs, progInv_null hi size, hb⟩

/-- A run of such steps from the empty heap keeps the invariant and the blocks modest. -/
theorem sizedRun_inv {mem : Mem} {b : Break} (hr : Run (SizedStep Heap.Admits) ⟨Heap.empty mem b, []⟩ tr s) :
    ∃ bs, ProgInv tr s bs ∧ Modest bs := by
  refine Run.invariant (P := fun tr s => ∃ bs, ProgInv tr s bs ∧ Modest bs) ⟨[], progInv_empty mem b, nofun⟩ ?_ hr
  intro _ _ _ _ _ ⟨bs, hi, hb⟩ hs
  exact sizedStep_inv hs hi hb

/-- The answer to a modest request is sound. -/
theorem sound_of_modest {h : Heap} {size fuel p : Nat} {grant : Bool} (hi : ProgInv tr s bs) (hpos : 0 < size)
    (hsize : size + metaSize < 2 ^ 63) (hm : myMalloc fuel s.heap size grant = some (h, p)) : s.Sound size h p := by
  obtain ⟨bs', hf, ht', _, ha⟩ := myMalloc_cases hi.tiled hpos hsize hm
  have hbrk : p ≠ 0 → s.heap.brk ≤ h.brk := by
    intro hp
    rcases ha with ⟨h0, _⟩ | ⟨_, h1⟩ | ⟨_, _, h1⟩
    · exact absurd h0 hp
    · omega
    · omega
  refine ⟨fun hp => ?_, fun hp => ?_⟩
  · obtain ⟨b, hb, rfl, hbs, _⟩ := firstFit_result hf hp
    have hstop := ht'.below b hb
    refine ⟨Nat.le_add_left _ _, ?_, ht'.brk_lt, hbrk hp, ?_⟩
    · unfold Block.stop at hstop
      unfold Block.payload
      omega
    · -- the block of a live allocation was in use, so it is still in the list, and it is not the block handed out
      intro x hx a h1 h2 ⟨h3, h4⟩
      obtain ⟨c, hc, hcx, hcs, hcf⟩ := hi.owned x hx
      have hne : c.payload ≠ b.payload := firstFit_new hf hi.tiled hp c hc hcf
      have hc' := firstFit_keeps hf c hc hcf
      unfold Block.payload at hcx h3 h4 hne
      rcases ht'.eq_or_apart hb hc' with rfl | hap | hap
      · exact hne rfl
      · unfold Block.stop at hap
        omega
      · unfold Block.stop at hap
        omega
  · rcases ha with ⟨_, rfl⟩ | ⟨h1, _⟩ | ⟨h1, _⟩
    · rfl
    · have := hi.tiled.brk_pos
      omega
    · exact absurd hp h1

/-- What `request_space` makes of an increment that `sbrk` accepts: the break is an address where the increment leads, and the
move is recorded. -/
theorem requestSpace_accepted {h : Heap} {size : Nat} {grant : Bool} (last : Nat) (hr : ¬h.Refuses size grant) :
    (requestSpace h last size grant).1.brk < 2 ^ 64 ∧
    ((requestSpace h last size grant).1.brk : Int) = h.brk + Word.toInt (Word.add metaSize size) ∧
    (requestSpace h last size grant).1.moved = h.moved ++ [(h.brk, Word.toInt (Word.add metaSize size))] := by
  unfold Heap.Refuses at hr
  unfold requestSpace
  generalize Word.toInt (Word.add metaSize size) = inc at *
  have hc : grant ∧ 0 ≤ (h.brk : Int) + inc ∧ (h.brk : Int) + inc < 2 ^ 64 := by
    by_contra hno
    exact hr (by unfold sbrk; rw [if_neg hno])
  have hto : (((h.brk : Int) + inc).toNat : Int) = h.brk + inc := Int.toNat_of_nonneg hc.2.1
  have hlt : ((h.brk : Int) + inc).toNat < 2 ^ 64 := by omega
  simp only [sbrk, if_pos hc]
  split
  · exact ⟨hlt, hto, rfl⟩
  · split
    · exact ⟨hlt, hto, rfl⟩
    · exact ⟨hlt, hto, rfl⟩

/-- The increment of a size that is not modest is negative, or less than the header because the sum wrapped. -/
theorem increment_of_large {size : Nat} (hlt : size < 2 ^ 64) (hsize : 2 ^ 63 ≤ size + metaSize) :
    Word.toInt (Word.add metaSize size) < 0 ∨ 2 ^ 64 ≤ size + metaSize := by
  unfold Word.toInt Word.add metaSize at *
  split <;> omega

/-- A request that may not be made returns, with an answer that is not sound. -/
theorem unsound_of_not_admits {size fuel : Nat} {grant : Bool} (hi : ProgInv tr s bs) (hb : Modest bs) (hlt : size < 2 ^ 64)
    (hok : ¬s.heap.Admits size grant) (hfuel : bs.length < fuel) :
    ∃ h p, myMalloc fuel s.heap size grant = some (h, p) ∧ ¬s.Sound size h p := by
  obtain ⟨hsize, hr⟩ := not_or.1 hok
  have hlarge : 2 ^ 63 ≤ size + metaSize := Nat.le_of_not_lt hsize
  have hpos : 0 < size := by
    unfold metaSize at hlarge
    omega
  have hm := myMalloc_request grant hi.tiled hpos (not_fits_of_large hb hlarge) hfuel
  obtain ⟨hin, hbrk, hmoved⟩ := requestSpace_accepted ((bs.getLast?.map Block.addr).getD 0) hr
  generalize requestSpace s.heap ((bs.getLast?.map Block.addr).getD 0) size grant = r at hm hin hbrk hmoved
  -- with `NULL` the break has moved all the same
  have hnull : ∀ h : Heap, h.moved = r.1.moved → h ≠ s.heap := by
    rintro h hh rfl
    rw [hmoved] at hh
    exact absurd hh (by simp)
  -- with a pointer the break has moved down, or the block ends beyond it
  have hptr : ∀ (h : Heap) (p : Nat), h.brk = r.1.brk → metaSize ≤ p → s.heap.brk ≤ h.brk → ¬p + size ≤ h.brk := by
    intro h p hh hp hdown hle
    rw [hh] at hdown hle
    rcases increment_of_large hlt hlarge with hneg | hwrap
    · omega
    · omega
  have hany : ∀ (h : Heap) (p : Nat), h.moved = r.1.moved → h.brk = r.1.brk → ¬s.Sound size h p := by
    intro h p h1 h2 hs
    by_cases hp : p = 0
    · exact hnull h h1 (hs.2 hp)
    · obtain ⟨h3, h4, _, h5, _⟩ := hs.1 hp
      exact hptr h p h2 h3 h5 h4
  by_cases h0 : r.2 = 0
  · exact ⟨_, _, hm.trans (if_pos h0), hany _ _ rfl rfl⟩
  · refine ⟨_, _, hm.trans (if_neg h0), hany _ _ ?_ ?_⟩
    · split <;> rfl
    · split <;> rfl

end SizesAux

open SizesAux

/-- A request is sound exactly when `META_SIZE + size` is a positive signed number or `sbrk` refuses what it became: in every
heap reached by such requests, of any number of bytes, by a program that frees live pointers and stores inside live allocations,
with a break that others raise. Sound is that a pointer returned has its whole block below the break, which has not moved down,
and shares no byte with a live allocation, and that with `NULL` the heap is unchanged. And every request returns. -/
theorem my_malloc_sound (mem : Mem) (b : Break) (tr : List Event) (s : Prog)
    (hr : Run (SizedStep Heap.Admits) ⟨Heap.empty mem b, []⟩ tr s) (size : Nat) (hlt : size < 2 ^ 64) (grant : Bool) :
    ((∀ fuel h p, myMalloc fuel s.heap size grant = some (h, p) → s.Sound size h p) ↔ s.heap.Admits size grant) ∧
    ∃ n, ∀ fuel, n ≤ fuel → ∃ r, myMalloc fuel s.heap size grant = some r := by
  obtain ⟨bs, hi, hb⟩ := sizedRun_inv hr
  refine ⟨⟨?_, ?_⟩, bs.length + 1, ?_⟩
  · intro hall
    by_contra hok
    obtain ⟨h, p, hm, hs⟩ := unsound_of_not_admits hi hb hlt hok (Nat.lt_succ_self bs.length)
    exact hs (hall _ h p hm)
  · intro hok fuel h p hm
    rcases admitted_cases hi.tiled hb hok hm with ⟨hpos, hsize⟩ | ⟨rfl, rfl⟩
    · exact sound_of_modest hi hpos hsize hm
    · exact ⟨fun h0 => absurd rfl h0, fun _ => rfl⟩
  · intro fuel hf
    by_cases hok : s.heap.Admits size grant
    · exact admitted_returns hi.tiled hb hok hf
    · obtain ⟨h, p, hm, _⟩ := unsound_of_not_admits hi hb hlt hok hf
      exact ⟨_, hm⟩

/-- After a request of 8 bytes, one of the largest size is refused: `NULL`, with the heap unchanged. -/
theorem my_malloc_sound_refused :
    ∃ s, Run (SizedStep Heap.Admits) ⟨Heap.empty (fun _ => 0) break4096, []⟩ [.malloc 8 4120] s ∧
      s.heap.Admits (2 ^ 64 - 1) false ∧ myMalloc 2 s.heap (2 ^ 64 - 1) false = some (s.heap, 0) ∧
      s.Sound (2 ^ 64 - 1) s.heap 0 ∧ s.heap.Admits 16 true ∧ (∃ h, myMalloc 2 s.heap 16 true = some (h, 4152) ∧
      s.Sound 16 h 4152) := by
  have h1 : Step ⟨Heap.empty (fun _ => 0) break4096, []⟩ (.malloc 8 4120) _ :=
    Step.malloc 1 8 true (by decide) (by decide) rfl
  have hr := Run.single (show SizedStep Heap.Admits _ _ _ from SizedStep.lawful h1)
  exact ⟨_, hr, Or.inr rfl, rfl, (my_malloc_sound _ _ _ _ hr (2 ^ 64 - 1) (by decide) false).1.2 (Or.inr rfl) 2 _ _ rfl,
    Or.inl (by decide), _, rfl, (my_malloc_sound _ _ _ _ hr 16 (by decide) true).1.2 (Or.inl (by decide)) 2 _ _ rfl⟩

/-- The two ways in which the sum goes wrong. For the largest size it wraps to 23: the first request of a program gets a pointer,
and the break ends before it. For a size of `2 ^ 64 - 48` it is read as -24: after a request of 8 bytes the break moves down over
the 8 bytes, and the pointer returned lies above it. -/
theorem my_malloc_unsound :
    (∃ h, myMalloc 1 (Heap.empty (fun _ => 0) break4096) (2 ^ 64 - 1) true = some (h, 4120) ∧ h.brk = 4119 ∧
      ¬Prog.Sound ⟨Heap.empty (fun _ => 0) break4096, []⟩ (2 ^ 64 - 1) h 4120) ∧
    ∃ s h, Run (SizedStep Heap.Admits) ⟨Heap.empty (fun _ => 0) break4096, []⟩ [.malloc 8 4120] s ∧
      s.live = [(4120, 8)] ∧ s.heap.brk = 4128 ∧ myMalloc 2 s.heap (2 ^ 64 - 48) true = some (h, 4152) ∧ h.brk = 4104 ∧
      ¬s.Sound (2 ^ 64 - 48) h 4152 := by
  refine ⟨⟨_, rfl, rfl, ?_⟩, ?_⟩
  · intro hs
    have hin := (hs.1 (by decide)).2.1
    exact absurd hin (by decide)
  · have h1 : Step ⟨Heap.empty (fun _ => 0) break4096, []⟩ (.malloc 8 4120) _ :=
      Step.malloc 1 8 true (by decide) (by decide) rfl
    refine ⟨_, _, Run.single (SizedStep.lawful h1), by decide, rfl, rfl, rfl, ?_⟩
    intro hs
    have hdown := (hs.1 (by decide)).2.2.2.1
    exact absurd hdown (by decide)

namespace SizesAux

/-! ## Multiples of 8 -/

variable {size p : Nat} {bs bs' : List Block}

/-- The break and the addresses of all blocks are multiples of 8. -/
def WordAligned (h : Heap) : Prop := 8 ∣ h.brk ∧ ∀ a, InList h a → 8 ∣ a

/-- A request for a multiple of 8 bytes keeps the alignment. -/
theorem wordAligned_of_dvd {h h' : Heap} (ht : Tiled h bs) (ht' : Tiled h' bs') (hf : FirstFit h.brk size bs bs' p)
    (ha : Answered h h' size p) (hsize : 8 ∣ size) (hal : WordAligned h) : WordAligned h' := by
  obtain ⟨hbrk, haddr⟩ := hal
  have hmeta : metaSize = 24 := rfl
  refine ⟨?_, ?_⟩
  · rcases ha with ⟨_, rfl⟩ | ⟨_, h1⟩ | ⟨_, _, h1⟩ <;> omega
  · intro a hl
    obtain ⟨b, hb, rfl⟩ := (inList_iff ht' a).1 hl
    rcases firstFit_origin hf b hb with ⟨c, hc, hcb, _⟩ | ⟨c, hc, hcb, _⟩ | ⟨hb, _⟩
    · rw [hcb]
      exact haddr _ ((inList_iff ht _).2 ⟨c, hc, rfl⟩)
    · have := haddr _ ((inList_iff ht _).2 ⟨c, hc, rfl⟩)
      unfold Block.payload at hcb
      omega
    · rw [hb]
      exact hbrk

/-- A block can serve a request, read off its header and off the list. -/
theorem canServe_iff {h : Heap} (ht : Tiled h bs) (a : Nat) : h.CanServe size a ↔ ∃ b ∈ bs, b.addr = a ∧ b.Fits size := by
  constructor
  · rintro ⟨hl, hfree, hsz⟩
    obtain ⟨b, hb, rfl⟩ := (inList_iff ht a).1 hl
    exact ⟨b, hb, rfl, (fits_iff (Seg.holds_of_mem ht.chain b hb)).1 ⟨hfree, hsz⟩⟩
  · rintro ⟨b, hb, rfl, hfit⟩
    exact ⟨(inList_iff ht _).2 ⟨b, hb, rfl⟩, (fits_iff (Seg.holds_of_mem ht.chain b hb)).2 hfit⟩

/-- A request that puts no block in the list leaves the break and the addresses: it is refused, or takes a block as it is. -/
theorem wordAligned_of_addsNoBlock {h h' : Heap} {fuel : Nat} {grant : Bool} (ht : Tiled h bs) (hpos : 0 < size)
    (hsize : size + metaSize < 2 ^ 63) (hno : h.AddsNoBlock size grant) (hm : myMalloc fuel h size grant = some (h', p))
    (hal : WordAligned h) : WordAligned h' := by
  rcases hno with ⟨block, hserve, hlow, hsz⟩ | ⟨hnone, hr⟩
  · obtain ⟨b, hb, rfl, hfit⟩ := (canServe_iff ht _).1 hserve
    have hwhole : b.size ≤ size + metaSize := by
      rwa [Heap.size, (Seg.holds_of_mem ht.chain b hb).1] at hsz
    obtain ⟨pre, post, rfl, hpre⟩ :=
      lowest_first ht hb fun c hc hcf => hlow c.addr ((canServe_iff ht _).2 ⟨c, hc, rfl, hcf⟩)
    obtain ⟨h₁, hm₁, ht₁, -, hbrk, -⟩ := myMalloc_reuse_spec ht hpos hsize hpre hfit
    have heq := (myMalloc_mono hm (Nat.le_max_left fuel (pre.length + 1))).symm.trans
      (hm₁ (max fuel (pre.length + 1)) grant (by omega))
    simp only [Option.some.injEq, Prod.mk.injEq] at heq
    obtain ⟨rfl, -⟩ := heq
    refine ⟨hbrk ▸ hal.1, fun a hl => ?_⟩
    -- the block stays at its address, and so do all others
    obtain ⟨c, hc, rfl⟩ := (inList_iff ht₁ a).1 hl
    rw [Block.taken, if_pos hwhole] at hc
    refine hal.2 _ ((inList_iff ht _).2 ?_)
    simp only [List.mem_append, List.mem_singleton, or_assoc] at hc
    rcases hc with hc | rfl | hc
    · exact ⟨c, List.mem_append_left _ hc, rfl⟩
    · exact ⟨b, hb, rfl⟩
    · exact ⟨c, List.mem_append_right _ (List.mem_cons_of_mem _ hc), rfl⟩
  · have hbs : ∀ c ∈ bs, ¬c.Fits size := fun c hc hfit => hnone c.addr ((canServe_iff ht _).2 ⟨c, hc, rfl, hfit⟩)
    obtain ⟨rfl, -⟩ := myMalloc_null ht hpos hbs hr hm
    exact hal

/-- Freeing puts no block at a new address. -/
theorem freeAt_addr_old (q : Nat) : ∀ b ∈ freeAt q bs, ∃ c ∈ bs, c.addr = b.addr := by
  intro b hb
  obtain ⟨c, hc, rfl⟩ := List.mem_map.1 hb
  refine ⟨c, hc, ?_⟩
  split <;> rfl

theorem setFree_brk (h : Heap) (block v : Nat) : (h.setFree block v).brk = h.brk := rfl

/-- Freeing leaves the break. -/
theorem myFree_brk (h : Heap) (q : Nat) : (myFree h q).brk = h.brk := by
  unfold myFree
  split
  · rfl
  · exact setFree_brk _ _ _

/-- Freeing a block of the list keeps the alignment. -/
theorem wordAligned_myFree {h : Heap} {b : Block} (ht : Tiled h bs) (hb : b ∈ bs) (hal : WordAligned h) :
    WordAligned (myFree h b.payload) := by
  refine ⟨by rw [myFree_brk]; exact hal.1, ?_⟩
  intro a hl
  obtain ⟨c, hc, rfl⟩ := (inList_iff (myFree_freeAt ht hb).1 a).1 hl
  obtain ⟨d, hd, hdc⟩ := freeAt_addr_old b.payload c hc
  rw [← hdc]
  exact hal.2 _ ((inList_iff ht _).2 ⟨d, hd, rfl⟩)

/-- A step with these conditions is a step. -/
theorem looseStep_of_wordStep {s s' : Loose} {e : Event} (hs : WordStep s e s') : LooseStep s e s' := by
  cases hs with
  | malloc fuel size grant hpos hsize _ hm => exact LooseStep.malloc fuel size grant hpos hsize hm
  | free hq => exact LooseStep.free hq

/-- One step keeps the alignment. -/
theorem wordStep_aligned {s s' : Loose} {e : Event} (hs : WordStep s e s') (hi : LooseInv s) (hal : WordAligned s.heap) :
    WordAligned s'.heap := by
  obtain ⟨bs, ht, hret⟩ := hi
  cases hs with
  | malloc fuel size grant hpos hsize hok hm =>
    rcases hok with h8 | hno
    · obtain ⟨bs', hf, ht', _, ha⟩ := myMalloc_cases ht hpos hsize hm
      exact wordAligned_of_dvd ht ht' hf ha h8 hal
    · exact wordAligned_of_addsNoBlock ht hpos hsize hno hm hal
  | @free q hq =>
    by_cases h0 : q = 0
    · subst h0
      exact hal
    · obtain ⟨b, hb, rfl⟩ := hret q (hq.resolve_left h0)
      exact wordAligned_myFree ht hb hal

/-- In a list of two blocks with increasing addresses the first is the lowest. -/
theorem inList_two {h : Heap} {a c : Nat} (hbase : h.globalBase = a) (hlt : a < h.next a) (hend : h.next (h.next a) = 0)
    (hc : InList h c) : a ≤ c := by
  have hor : c = a ∨ c = h.next a := by
    induction hc with
    | base => exact Or.inl hbase
    | next _ hne ih =>
      rcases ih with rfl | rfl
      · exact Or.inr rfl
      · exact absurd hend hne
  omega

end SizesAux

/-- Every pointer is a multiple of 8, when the first break is and every size that puts a block in the list is. In every run of
requests and of frees of `NULL` or of pointers ever returned, where nobody else moves the break and a number of bytes that is no
multiple of 8 is asked for only when the first block that can serve it is too small to be cut, or when none can and `sbrk`
refuses. -/
theorem pointers_word_aligned (mem : Mem) (b : Break) (hb : 8 ∣ b.addr) (tr : List Event) (s : Loose)
    (hr : Run WordStep ⟨Heap.empty mem b, []⟩ tr s) : ∀ p ∈ s.returned, 8 ∣ p := by
  have hempty : WordAligned (Heap.empty mem b) :=
    ⟨hb, fun a hl => by obtain ⟨c, hc, _⟩ := (inList_iff (tiled_empty mem b) a).1 hl; cases hc⟩
  have hinv : LooseInv s ∧ WordAligned s.heap := by
    refine Run.invariant (P := fun _ s => LooseInv s ∧ WordAligned s.heap)
      ⟨⟨[], tiled_empty mem b, by simp⟩, hempty⟩ ?_ hr
    intro _ _ _ _ _ ⟨hi, hal⟩ hs
    exact ⟨(looseInv_step (looseStep_of_wordStep hs) hi).1, wordStep_aligned hs hi hal⟩
  obtain ⟨⟨bs, ht, hret⟩, _, haddr⟩ := hinv
  intro p hp
  obtain ⟨c, hc, rfl⟩ := hret p hp
  have := haddr _ ((inList_iff ht _).2 ⟨c, hc, rfl⟩)
  unfold Block.payload metaSize
  omega

/-- Requests of 8 and 16 bytes; the first block is freed, and a request of 4 bytes takes it whole. -/
theorem pointers_word_aligned_small :
    ∃ s, Run WordStep ⟨Heap.empty (fun _ => 0) break4096, []⟩
        [.malloc 8 4120, .malloc 16 4152, .free 4120, .malloc 4 4120] s ∧
      8 ∣ break4096.addr ∧ s.returned = [4120, 4152, 4120] ∧ ∀ p ∈ s.returned, 8 ∣ p := by
  have h1 : WordStep ⟨Heap.empty (fun _ => 0) break4096, []⟩ (.malloc 8 4120) _ :=
    WordStep.malloc 1 8 true (by decide) (by decide) (Or.inl (by decide)) rfl
  have hr := (Run.single h1).snoc (WordStep.malloc (p := 4152) 2 16 true (by decide) (by decide) (Or.inl (by decide)) rfl)
  have hr := hr.snoc (WordStep.free (q := 4120) (Or.inr (by decide)))
  have hr := hr.snoc (WordStep.malloc (p := 4120) 2 4 true (by decide) (by decide) (Or.inr (Or.inl
    ⟨4096, ⟨InList.base (by decide), by decide, by decide⟩, fun c hc => inList_two (a := 4096) rfl (by decide) rfl hc.1,
      by decide⟩)) rfl)
  exact ⟨_, hr, by decide, by decide, pointers_word_aligned _ _ (by decide) _ _ hr⟩

/-- After a request of one byte the next block stands behind it, and so does its pointer. -/
theorem pointer_not_word_aligned :
    ∃ s, Run LooseStep ⟨Heap.empty (fun _ => 0) break4096, []⟩ [.malloc 1 4120, .malloc 8 4145] s ∧ 8 ∣ break4096.addr ∧
      4145 ∈ s.returned ∧ ¬8 ∣ 4145 := by
  have h1 : LooseStep ⟨Heap.empty (fun _ => 0) break4096, []⟩ (.malloc 1 4120) _ :=
    LooseStep.malloc 1 1 true (by decide) (by decide) rfl
  have hr := (Run.single h1).snoc (LooseStep.malloc (p := 4145) 2 8 true (by decide) (by decide) rfl)
  exact ⟨_, hr, by decide, by decide, by decide⟩

end OsLab.Malloc
