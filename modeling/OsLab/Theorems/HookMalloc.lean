import OsLab.Lemmas.HookInv

/-!
# `realloc` and `calloc` among other threads

One call, from the moment a thread makes it until it returns, with any steps of the other threads in between. What the place of the
thread says about the data (`Reallocating`, `Callocing`) is kept by the thread's own steps, and the others cannot make it false.
-/

namespace OsLab.HookMalloc

open OsLab.Malloc OsLab.Malloc.HeapAux HookAux

/-! ## `realloc` -/

namespace ReallocAux

/-- The allocation is live, with the header and the bytes it had. -/
structure Intact (s₀ s : Prog) (p r : Nat) : Prop where
  live : (p, r) ∈ s.live
  bytes : ∀ k, k < r → s.heap.mem (p + k) = s₀.heap.mem (p + k)
  size : blockSize s p = blockSize s₀ p

/-- So many bytes of the new allocation are those of the old one, as far as both reach. -/
structure Copied (s₀ s : Prog) (p r q n count : Nat) : Prop where
  live : (q, n) ∈ s.live
  bytes : ∀ k, k < count → k < r → k < n → s.heap.mem (q + k) = s₀.heap.mem (p + k)

/-- What the place of a thread in `realloc(p, n)` says about the data, for a call made in the program `s₀` with `r` bytes live at
`p`. -/
def Reallocating (s₀ : Prog) (p r n : Nat) (s : Prog) : Pc → Prop
  | .realloc ptr size => ptr = p ∧ size = n ∧ Intact s₀ s p r
  | .reallocMalloc ptr size => ptr = p ∧ size = n ∧ Intact s₀ s p r
  | .reallocCopy ptr newPtr => ptr = p ∧ Intact s₀ s p r ∧ Copied s₀ s p r newPtr n 0
  | .memcpy ptr newPtr _ i => ptr = p ∧ Intact s₀ s p r ∧ Copied s₀ s p r newPtr n i
  | .reallocFree ptr newPtr => ptr = p ∧ Intact s₀ s p r ∧ Copied s₀ s p r newPtr n r
  | .reallocNull ptr => ptr = p ∧ Intact s₀ s p r
  | .ret q => Copied s₀ s p r q n r
  | _ => False

/-- How many steps the thread has left, for a block of so many bytes. -/
def reallocLeft (room : Nat) : Pc → Nat
  | .realloc _ _ => room + 5
  | .reallocMalloc _ _ => room + 4
  | .reallocCopy _ _ => room + 3
  | .memcpy _ _ count i => (count - i) + 2
  | .reallocFree _ _ => 1
  | _ => 0

variable {s₀ s s' : Prog} {bs : List Block} {pc pc' : Pc} {p q r n k count fuel : Nat} {grant : Bool}

/-- Steps of other threads leave the old allocation intact. -/
theorem Intact.keeps (h : Intact s₀ s p r) (hk : Keeps s s' (p, r)) : Intact s₀ s' p r := by
  refine ⟨hk.live, fun k hlt => ?_, hk.size.trans h.size⟩
  rw [hk.bytes (p + k) (inAlloc_add hlt)]
  exact h.bytes k hlt

/-- They leave what has been copied. -/
theorem Copied.keeps (h : Copied s₀ s p r q n count) (hk : Keeps s s' (q, n)) : Copied s₀ s' p r q n count := by
  refine ⟨hk.live, fun k h1 h2 h3 => ?_⟩
  rw [hk.bytes (q + k) (inAlloc_add h3)]
  exact h.bytes k h1 h2 h3

/-- What the place says about the data stays true as long as its pointers are left alone. -/
theorem reallocating_keeps (hs : Sane s bs) (h : Reallocating s₀ p r n s pc) (hk : KeepsAll s s' pc) :
    Reallocating s₀ p r n s' pc := by
  have hold : ∀ {ptr}, ptr = p → ptr ∈ pc.pointers → Intact s₀ s p r → Intact s₀ s' p r := by
    rintro ptr rfl hp hi
    exact hi.keeps (hk _ hi.live ⟨hs.pos hi.live, hp⟩)
  have hnew : ∀ {q count}, q ∈ pc.pointers → Copied s₀ s p r q n count → Copied s₀ s' p r q n count :=
    fun hq hc => hc.keeps (hk _ hc.live ⟨hs.pos hc.live, hq⟩)
  cases pc with
  | realloc ptr size | reallocMalloc ptr size => exact ⟨h.1, h.2.1, hold h.1 (by simp [Pc.pointers]) h.2.2⟩
  | reallocCopy ptr newPtr | memcpy ptr newPtr count i | reallocFree ptr newPtr =>
    exact ⟨h.1, hold h.1 (by simp [Pc.pointers]) h.2.1, hnew (by simp [Pc.pointers]) h.2.2⟩
  | reallocNull ptr => exact ⟨h.1, hold h.1 (by simp [Pc.pointers]) h.2⟩
  | ret q => exact hnew (by simp [Pc.pointers]) h
  | program | malloc size | free ptr | calloc nmemb size | callocMalloc total | memset ptr total i => exact h.elim

/-- What a call that is over has done: all is copied, or nothing has changed. -/
theorem Reallocating.of_result (hs : Sane s bs) (h : Reallocating s₀ p r n s pc) (hq : pc.result = some q) :
    (q ≠ 0 ∧ pc = .ret q ∧ Copied s₀ s p r q n r) ∨ (q = 0 ∧ Intact s₀ s p r) := by
  cases pc with
  | ret p' =>
    -- the result is live, so it is not `NULL`
    obtain rfl := Option.some.inj hq
    exact Or.inl ⟨hs.pos h.live, rfl, h⟩
  | reallocNull ptr => exact Or.inr ⟨(Option.some.inj hq).symm, h.2⟩
  | _ => cases hq

/-- It asks for the new size. -/
theorem Reallocating.of_asks {size : Nat} (h : Reallocating s₀ p r n s pc) (hn : pc.asks = some size) : size = n := by
  cases pc with
  | reallocMalloc ptr m =>
    obtain rfl := Option.some.inj hn
    exact h.2.1
  | malloc m | callocMalloc m => exact h.elim
  | _ => cases hn

/-- One more byte is copied. -/
theorem Copied.step (hs : Sane s bs) (hi : Intact s₀ s p r) (hne : p ≠ q) (hc : Copied s₀ s p r q n k) (hlt : k < n) :
    Intact s₀ { s with heap := s.heap.store (q + k) (s.heap.mem (p + k)) } p r ∧
      Copied s₀ { s with heap := s.heap.store (q + k) (s.heap.mem (p + k)) } p r q n (k + 1) := by
  obtain ⟨_, hkeeps, _⟩ := store_spec (s.heap.mem (p + k)) hs hc.live (inAlloc_add hlt)
  refine ⟨hi.keeps (hkeeps _ hi.live hne), hc.live, fun j h1 h2 h3 => ?_⟩
  by_cases hj : j = k
  · subst hj
    exact (Mem.set_self _ _ _).trans (hi.bytes j h2)
  · refine (Mem.set_of_ne _ _ (by omega)).trans (hc.bytes j (by omega) h2 h3)

/-- The thread's own steps in `realloc`: what its place says, the steps it has left, and that the old allocation is live no more
when it returns another pointer. -/
theorem reallocating_step (hn : 0 < n) (hs : Sane s bs) (hp : Placed s pc) (h : Reallocating s₀ p r n s pc)
    (hok : ∀ size, pc.asks = some size → s.heap.Admits size grant) (hstep : step fuel grant s pc = some (s', pc')) :
    Reallocating s₀ p r n s' pc' ∧ reallocLeft (blockSize s₀ p) pc' < reallocLeft (blockSize s₀ p) pc ∧
      ∀ q, pc' = .ret q → q ≠ p → ¬Alive s' p := by
  cases pc with
  | program | malloc size | free ptr | calloc nmemb size | callocMalloc total | memset ptr total i => exact h.elim
  | ret q => cases hstep
  | reallocNull ptr => cases hstep
  | realloc ptr size =>
    obtain ⟨rfl, rfl, hi⟩ := h
    have he : reallocTest s ptr size = (s', pc') := Option.some.inj hstep
    unfold reallocTest at he
    rw [if_neg (hs.pos hi.live), if_neg (Nat.pos_iff_ne_zero.1 hn)] at he
    by_cases hroom : blockSize s ptr ≥ size
    · rw [if_pos hroom] at he
      cases he
      obtain ⟨_, _, hlive⟩ := resize_spec hs hi.live hroom
      refine ⟨⟨hlive, fun k hk _ _ => hi.bytes k hk⟩, by simp [reallocLeft], ?_⟩
      intro q hq hne
      exact absurd (Pc.ret.inj hq).symm hne
    · rw [if_neg hroom] at he
      cases he
      exact ⟨⟨rfl, rfl, hi⟩, by simp [reallocLeft], by simp⟩
  | reallocMalloc ptr size =>
    obtain ⟨rfl, rfl, hi⟩ := h
    obtain ⟨bs', q, rfl, _, hkeeps, ⟨rfl, rfl⟩ | ⟨hq, hl, _⟩⟩ := lockedMalloc_spec hs (hok size rfl) hstep
    · exact ⟨⟨rfl, hi⟩, by simp [reallocLeft], by simp⟩
    · rw [if_neg hq]
      exact ⟨⟨rfl, hi.keeps (hkeeps _ hi.live), hl, by simp⟩, by simp [reallocLeft], by simp⟩
  | reallocCopy ptr newPtr =>
    obtain ⟨rfl, hi, hc⟩ := h
    cases hstep
    refine ⟨⟨rfl, hi, hc⟩, ?_, by simp⟩
    simp [reallocLeft, hi.size]
  | memcpy ptr newPtr count i =>
    obtain ⟨rfl, hi, hc⟩ := h
    obtain ⟨_, hne, ⟨m, hl, hlt⟩, hcount, hic⟩ := hp
    obtain rfl : m = n := congrArg Prod.snd (hs.eq_of_fst hl hc.live rfl)
    simp only [step] at hstep
    by_cases hi' : i < count
    · rw [if_pos hi'] at hstep
      cases hstep
      obtain ⟨h1, h2⟩ := Copied.step hs hi hne hc (Nat.lt_trans hi' hlt)
      refine ⟨⟨rfl, h1, h2⟩, ?_, by simp⟩
      simp only [reallocLeft]
      omega
    · rw [if_neg hi'] at hstep
      cases hstep
      -- the copy has reached the size of the old block, and so all of the old allocation
      have hr : r ≤ blockSize s ptr := (hs.inUse hi.live).2
      refine ⟨⟨rfl, hi, hc.live, fun k hk h2 h3 => hc.bytes k (by omega) h2 h3⟩, ?_, by simp⟩
      simp only [reallocLeft]
      omega
  | reallocFree ptr newPtr =>
    obtain ⟨rfl, hi, hc⟩ := h
    cases hstep
    obtain ⟨_, hkeeps, hgone⟩ := lockedFree_spec hs hi.live
    refine ⟨hc.keeps (hkeeps _ hc.live (Ne.symm hp.2.1)), by simp [reallocLeft], ?_⟩
    rintro q _ _ ⟨m, hm⟩
    exact hgone _ hm rfl

end ReallocAux

section Processes

open ReallocAux

variable {ι : Type} [DecidableEq ι] {s₁ s' : Process ι} {as : List (ι × Act)} {t : ι} {s₀ : Prog} {p q r n : Nat}

/-- What holds at every moment of a call of `realloc`. -/
theorem reallocating_run (hn : 0 < n) (hi : Inv s₁) (hpc : s₁.pc t = .realloc p n) (hl : (p, r) ∈ s₁.prog.live)
    (hrun : Run HookStep s₁ as s') (hopen : ∀ q, (t, Act.ret q) ∉ as) :
    Inv s' ∧ Reallocating s₁.prog p r n s'.prog (s'.pc t) ∧
      as.count (t, .run) + reallocLeft (blockSize s₁.prog p) (s'.pc t) ≤ blockSize s₁.prog p + 5 := by
  refine run_within (P := fun m s pc => Reallocating s₁.prog p r n s pc ∧
    m + reallocLeft (blockSize s₁.prog p) pc ≤ blockSize s₁.prog p + 5) hi ?_ ?_ ?_ ?_ hrun hopen
  · rw [hpc]
    exact ⟨⟨rfl, rfl, hl, fun _ _ => rfl, rfl⟩, by simp [reallocLeft]⟩
  · rintro _ _ ⟨h, _⟩
    exact h
  · intro m s s' pc bs hs h hk
    exact ⟨reallocating_keeps hs h.1 hk, h.2⟩
  · intro m s s' pc pc' bs fuel grant hs hp h hok hstep
    obtain ⟨h1, h2, _⟩ := reallocating_step hn hs hp h.1 hok hstep
    exact ⟨h1, by omega⟩

/-- A thread that is about to return another pointer has freed the old one: it was not live when the thread came to its return. -/
theorem reallocating_gone (hn : 0 < n) (hi : Inv s₁) (hpc : s₁.pc t = .realloc p n) (hl : (p, r) ∈ s₁.prog.live)
    (hrun : Run HookStep s₁ as s') (hopen : ∀ q, (t, Act.ret q) ∉ as) (hret : s'.pc t = .ret q) (hne : q ≠ p) :
    ∃ as₁ as₂ u, as = as₁ ++ as₂ ∧ Run HookStep s₁ as₁ u ∧ Run HookStep u as₂ s' ∧ u.pc t = .ret q ∧ ¬Alive u.prog p := by
  obtain ⟨as₁, as₂, act, v, u, rfl, h1, hstep, h2, hu⟩ := last_step (t := t) hi hrun (by simp [hret, hpc])
  rw [hret] at hu
  obtain ⟨hiv, hv, _⟩ := reallocating_run hn hi hpc hl h1 fun q hq => hopen q (List.mem_append_left _ hq)
  obtain ⟨bs, hs⟩ := hiv.sane
  have hin : v.pc t ≠ .program := by
    intro h
    rw [h] at hv
    exact hv
  refine ⟨as₁ ++ [(t, act)], as₂, u, by simp, h1.snoc hstep, h2, hu, ?_⟩
  cases hstep with
  | call c hpc _ => exact absurd hpc hin
  | store v hpc => exact absurd hpc hin
  | raise n hpc => exact absurd hpc hin
  | ret _ => exact absurd (List.mem_append_right _ List.mem_cons_self) (hopen _)
  | run fuel grant hok hst =>
    rw [Process.goto_self] at hu
    exact (reallocating_step hn hs (hiv.placed t) hv hok hst).2.2 q hu hne

/-- `realloc` of a live allocation of `r` bytes to `n` bytes, whatever the other threads do meanwhile. With a pointer it returns
the allocation of `n` bytes, whose first bytes are those of the old one, which it has freed if the pointer is another one. With
`NULL` it leaves the old one as it was. It copies inside the two blocks, touches no allocation but these, and returns. -/
theorem realloc_keeps_data (mem : Mem) (b : Break) (tr as : List (ι × Act)) (s s₁ s' : Process ι) (t : ι) (p r n : Nat)
    (hr : Run HookStep (Process.start mem b) tr s) (hl : (p, r) ∈ s.prog.live) (hn : 0 < n) (hsize : n + metaSize < 2 ^ 63)
    (hcall : HookStep s (t, .call (.realloc p n)) s₁) (hrun : Run HookStep s₁ as s') (hopen : ∀ q, (t, Act.ret q) ∉ as) :
    (∀ q, (s'.pc t).result = some q → q ≠ 0 → (q, n) ∈ s'.prog.live ∧ InUse s'.prog.heap q n ∧
      (∀ k, k < min r n → s'.prog.heap.mem (q + k) = s.prog.heap.mem (p + k)) ∧
      (q ≠ p → ∃ as₁ as₂ u, as = as₁ ++ as₂ ∧ Run HookStep s₁ as₁ u ∧ Run HookStep u as₂ s' ∧
        (u.pc t).result = some q ∧ ¬Alive u.prog p)) ∧
    ((s'.pc t).result = some 0 → (p, r) ∈ s'.prog.live ∧
      ∀ k, k < r → s'.prog.heap.mem (p + k) = s.prog.heap.mem (p + k)) ∧
    (∀ ptr newPtr count i, s'.pc t = .memcpy ptr newPtr count i → i < count →
      ptr = p ∧ InUse s'.prog.heap ptr (i + 1) ∧ InUse s'.prog.heap newPtr (i + 1)) ∧
    (∀ u, HookStep s' (t, .run) u → ∀ x ∈ s'.prog.live, ¬(s'.pc t).Holds x.1 → Keeps s'.prog u.prog x) ∧
    ((s'.pc t).result = none → ∀ grant, ∃ fuel res, step fuel grant s'.prog (s'.pc t) = some res) ∧
    as.count (t, .run) ≤ blockSize s.prog p + 5 := by
  have hi₁ : Inv s₁ := (run_inv hr).step hcall
  obtain ⟨hpc₁, hprog⟩ : s₁.pc t = .realloc p n ∧ s₁.prog = s.prog := by
    cases hcall
    exact ⟨Process.goto_self .., rfl⟩
  rw [← hprog] at hl ⊢
  obtain ⟨hi, hre, hcount⟩ := reallocating_run hn hi₁ hpc₁ hl hrun hopen
  have hgone := fun q => reallocating_gone (q := q) hn hi₁ hpc₁ hl hrun hopen
  have hplaced := hi.placed t
  obtain ⟨bs, hs⟩ := hi.sane
  refine ⟨?_, ?_, ?_, ?_, ?_, by omega⟩
  · intro q hq h0
    rcases hre.of_result hs hq with ⟨_, hpc, hc⟩ | ⟨rfl, _⟩
    · obtain ⟨huse, hroom⟩ := hs.inUse hc.live
      refine ⟨hc.live, huse.mono hroom, fun k hk => hc.bytes k (by omega) (by omega) (by omega), fun hne => ?_⟩
      obtain ⟨as₁, as₂, u, h1, h2, h3, h4, h5⟩ := hgone q hpc hne
      exact ⟨as₁, as₂, u, h1, h2, h3, by rw [h4]; rfl, h5⟩
    · exact absurd rfl h0
  · intro h0
    rcases hre.of_result hs h0 with ⟨hne, _⟩ | ⟨_, hold⟩
    · exact absurd rfl hne
    · exact ⟨hold.live, hold.bytes⟩
  · intro ptr newPtr count i hpc hlt
    rw [hpc] at hre hplaced
    obtain ⟨rfl, hold, hnew⟩ := hre
    obtain ⟨_, _, ⟨m, hl', hm⟩, hc, _⟩ := hplaced
    have hroom := (hs.inUse hl').2
    exact ⟨rfl, (hs.inUse hold.live).1.mono (by simp only; omega), (hs.inUse hl').1.mono (by simp only at hroom ⊢; omega)⟩
  · exact fun u hu => hu.keeps hi
  · intro hres grant
    refine ⟨bs.length + 1, step_returns hs ?_ hres ?_⟩
    · intro hpc
      rw [hpc] at hre
      exact hre
    · intro size hsz
      rw [hre.of_asks hsz]
      exact Or.inl hsize

end Processes

/-! Two threads to test with. -/

namespace HookAux

/-- The process after a step of a thread inside a function, when the system grants requests. -/
def after {ι : Type} [DecidableEq ι] (s : Process ι) (t : ι) (fuel : Nat) : Process ι :=
  match step fuel true s.prog (s.pc t) with
  | none => s
  | some (prog, pc) => { s with prog := prog }.goto t pc

/-- The process after a statement of a thread. -/
theorem after_step {ι : Type} [DecidableEq ι] {s : Process ι} (t : ι) (fuel : Nat)
    (hs : (step fuel true s.prog (s.pc t)).isSome) (hsmall : ((s.pc t).asks).getD 0 < 1024) :
    HookStep s (t, .run) (after s t fuel) := by
  unfold after
  split
  · simp_all
  · rename_i prog pc h
    refine HookStep.run fuel true ?_ h
    intro size hsize
    rw [hsize] at hsmall
    exact Or.inl (Nat.lt_trans (Nat.add_lt_add_right hsmall metaSize) (by decide))

/-- Two threads, one of which has stored a byte in an allocation of one byte. -/
def written : Process Bool :=
  let s := (after ((Process.start (fun _ => 0) break4096).goto true (.malloc 1)) true 1).goto true .program
  { s with prog := { s.prog with heap := s.prog.heap.store 4120 7 } }

/-- No thread works on a pointer. -/
theorem written_not_held (p : Nat) : ¬written.Held p := by
  rintro ⟨t, h⟩
  cases t <;> exact absurd h.2 List.not_mem_nil

/-- The process comes there from its start. -/
theorem written_run : ∃ tr, Run HookStep (Process.start (fun _ => 0) break4096) tr written := by
  have h1 : HookStep (Process.start (fun _ => 0) break4096) (true, .call (.malloc 1)) _ :=
    .call _ rfl (show 1 < 2 ^ 64 by decide)
  have hr := (Run.single h1).snoc (after_step true 1 rfl (by decide))
  have hr := hr.snoc (HookStep.ret (t := true) (p := 4120) rfl)
  exact ⟨_, hr.snoc (HookStep.store (t := true) (p := 4120) (n := 1) (a := 4120) 7 rfl (by decide) (written_not_held _) (by decide)
    (by decide))⟩

end HookAux

/-- The 2 bytes asked for do not fit in the block, and the byte is found in the new one. -/
theorem realloc_keeps_data_moved :
    ∃ s₁ s' : Process Bool, ∃ tr as, Run HookStep (Process.start (fun _ => 0) break4096) tr written ∧
      HookStep written (true, .call (.realloc 4120 2)) s₁ ∧ Run HookStep s₁ as s' ∧ (s'.pc true).result = some 4145 ∧
      (4145, 2) ∈ s'.prog.live ∧ s'.prog.heap.mem 4145 = 7 := by
  obtain ⟨tr, hr⟩ := written_run
  have hcall : HookStep written (true, .call (.realloc 4120 2)) (written.goto true (.realloc 4120 2)) :=
    .call _ rfl ⟨Or.inr ⟨⟨1, by decide⟩, written_not_held _⟩, by decide⟩
  have hrun := Run.single (after_step (s := written.goto true (.realloc 4120 2)) true 1 rfl (by decide))
  have hrun := hrun.snoc (after_step true 2 rfl (by decide))
  have hrun := hrun.snoc (HookStep.call (t := false) (Call.malloc 1) rfl (show 1 < 2 ^ 64 by decide))
  have hrun := hrun.snoc (after_step false 3 rfl (by decide))
  have hrun := hrun.snoc (after_step true 1 rfl (by decide))
  have hrun := hrun.snoc (after_step true 1 rfl (by decide))
  have hrun := hrun.snoc (after_step true 1 rfl (by decide))
  have hrun := hrun.snoc (after_step true 1 rfl (by decide))
  obtain ⟨hret, _⟩ := realloc_keeps_data _ _ _ _ _ _ _ true 4120 1 2 hr (by decide) (by decide) (by decide) hcall hrun (by simp)
  obtain ⟨hl, _, hb, _⟩ := hret 4145 rfl (by decide)
  exact ⟨_, _, _, _, hr, hcall, hrun, rfl, hl, hb 0 (by decide)⟩

/-! ## `calloc` -/

namespace CallocAux

/-- The overflow test refuses the pairs whose product does not fit in `size_t`, and no others. -/
theorem callocTest_eq {nmemb size : Nat} :
    callocTest nmemb size = if 2 ^ 64 ≤ nmemb * size then .ret 0 else .callocMalloc (nmemb * size) := by
  have htest : (nmemb ≠ 0 ∧ size > sizeMax / nmemb) ↔ 2 ^ 64 ≤ nmemb * size := by
    by_cases h0 : nmemb = 0
    · simp [h0]
    · rw [gt_iff_lt, Nat.div_lt_iff_lt_mul (Nat.pos_of_ne_zero h0), Nat.mul_comm size, sizeMax]
      simp only [ne_eq, h0, not_false_eq_true, true_and]
      omega
  unfold callocTest
  simp only [htest]
  split
  · rfl
  · rename_i hlt
    rw [Word.mul_of_lt (Nat.lt_of_not_le hlt)]

/-- The allocation is live and its first bytes are 0. -/
structure Cleared (s : Prog) (p n count : Nat) : Prop where
  live : (p, n) ∈ s.live
  bytes : ∀ k, k < count → k < n → s.heap.mem (p + k) = 0

/-- What the place of a thread in `calloc(nmemb, size)` says about the data, for the product of the two. -/
def Callocing (nmemb size : Nat) (s : Prog) : Pc → Prop
  | .calloc n m => n = nmemb ∧ m = size
  | .callocMalloc total => nmemb * size < 2 ^ 64 ∧ total = nmemb * size
  | .memset ptr total i => nmemb * size < 2 ^ 64 ∧ total = nmemb * size ∧ Cleared s ptr (nmemb * size) i
  | .ret p => p ≠ 0 → nmemb * size < 2 ^ 64 ∧ Cleared s p (nmemb * size) (nmemb * size)
  | _ => False

/-- How many steps the thread has left, for so many bytes. -/
def callocLeft (total : Nat) : Pc → Nat
  | .calloc _ _ => total + 3
  | .callocMalloc _ => total + 2
  | .memset _ _ i => (total - i) + 1
  | _ => 0

variable {s s' : Prog} {bs : List Block} {pc pc' : Pc} {p n k nmemb size count fuel : Nat} {grant : Bool}

/-- Steps of other threads leave the bytes that have been cleared. -/
theorem Cleared.keeps (h : Cleared s p n count) (hk : Keeps s s' (p, n)) : Cleared s' p n count := by
  refine ⟨hk.live, fun k h1 h2 => ?_⟩
  rw [hk.bytes (p + k) (inAlloc_add h2)]
  exact h.bytes k h1 h2

/-- What the place says about the data stays true as long as its pointers are left alone. -/
theorem callocing_keeps (hs : Sane s bs) (h : Callocing nmemb size s pc) (hk : KeepsAll s s' pc) :
    Callocing nmemb size s' pc := by
  have hnew : ∀ {p n count}, p ∈ pc.pointers → Cleared s p n count → Cleared s' p n count :=
    fun hp hc => hc.keeps (hk _ hc.live ⟨hs.pos hc.live, hp⟩)
  cases pc with
  | calloc n m | callocMalloc total => exact h
  | memset ptr total i => exact ⟨h.1, h.2.1, hnew (by simp [Pc.pointers]) h.2.2⟩
  | ret p => exact fun hp => ⟨(h hp).1, hnew (by simp [Pc.pointers]) (h hp).2⟩
  | _ => exact h.elim

/-- What a call that is over has done: the product did not wrap and all bytes are cleared. -/
theorem Callocing.of_result {q : Nat} (h : Callocing nmemb size s pc) (hq : pc.result = some q) (h0 : q ≠ 0) :
    nmemb * size < 2 ^ 64 ∧ Cleared s q (nmemb * size) (nmemb * size) := by
  cases pc with
  | ret p =>
    obtain rfl := Option.some.inj hq
    exact h h0
  | reallocNull ptr => exact h.elim
  | _ => cases hq

/-- It asks for the product, which did not wrap. -/
theorem Callocing.of_asks (h : Callocing nmemb size s pc) (hn : pc.asks = some n) :
    nmemb * size < 2 ^ 64 ∧ n = nmemb * size := by
  cases pc with
  | callocMalloc total =>
    obtain rfl := Option.some.inj hn
    exact h
  | malloc m | reallocMalloc ptr m => exact h.elim
  | _ => cases hn

/-- When the product does not fit, the thread is at the test or at its return. -/
theorem Callocing.eq_of_overflow (h : Callocing nmemb size s pc) (hbig : 2 ^ 64 ≤ nmemb * size) (hres : pc.result = none) :
    pc = .calloc nmemb size := by
  cases pc with
  | calloc n m =>
    obtain ⟨rfl, rfl⟩ := h
    rfl
  | callocMalloc total | memset ptr total i => exact absurd h.1 (Nat.not_lt.2 hbig)
  | ret p => cases hres
  | _ => exact h.elim

/-- One more byte is cleared. -/
theorem Cleared.step (h : Cleared s p n k) : Cleared { s with heap := s.heap.store (p + k) 0 } p n (k + 1) := by
  refine ⟨h.live, fun j h1 h2 => ?_⟩
  by_cases hj : j = k
  · subst hj
    exact Mem.set_self _ _ _
  · exact (Mem.set_of_ne _ _ (by omega)).trans (h.bytes j (by omega) h2)

/-- The thread's own steps in `calloc`. -/
theorem callocing_step (hs : Sane s bs) (h : Callocing nmemb size s pc)
    (hok : ∀ size, pc.asks = some size → s.heap.Admits size grant) (hstep : step fuel grant s pc = some (s', pc')) :
    Callocing nmemb size s' pc' ∧ callocLeft (nmemb * size) pc' < callocLeft (nmemb * size) pc := by
  cases pc with
  | calloc n m =>
    obtain ⟨rfl, rfl⟩ := h
    cases hstep
    rw [callocTest_eq]
    split
    · exact ⟨fun h0 => absurd rfl h0, by simp [callocLeft]⟩
    · rename_i hlt
      exact ⟨⟨Nat.lt_of_not_le hlt, rfl⟩, by simp [callocLeft]⟩
  | callocMalloc total =>
    obtain ⟨hlt, rfl⟩ := h
    obtain ⟨bs', p, rfl, _, _, ⟨rfl, rfl⟩ | ⟨hp, hl, _⟩⟩ := lockedMalloc_spec hs (hok _ rfl) hstep
    · exact ⟨fun h0 => absurd rfl h0, by simp [callocLeft]⟩
    · rw [if_pos hp]
      exact ⟨⟨hlt, rfl, hl, nofun⟩, by simp [callocLeft]⟩
  | memset ptr total i =>
    obtain ⟨hlt, rfl, hc⟩ := h
    simp only [step] at hstep
    by_cases hi : i < nmemb * size
    · rw [if_pos hi] at hstep
      cases hstep
      refine ⟨⟨hlt, rfl, hc.step⟩, ?_⟩
      simp only [callocLeft]
      omega
    · rw [if_neg hi] at hstep
      cases hstep
      exact ⟨fun _ => ⟨hlt, hc.live, fun k h1 h2 => hc.bytes k (by omega) h2⟩, by simp [callocLeft]⟩
  | ret p => cases hstep
  | _ => exact h.elim

end CallocAux

section Processes

open CallocAux

variable {ι : Type} [DecidableEq ι] {s₁ s' : Process ι} {as : List (ι × Act)} {t : ι} {nmemb size : Nat}

/-- What holds at every moment of a call of `calloc`. -/
theorem callocing_run (hi : Inv s₁) (hpc : s₁.pc t = .calloc nmemb size) (hrun : Run HookStep s₁ as s')
    (hopen : ∀ q, (t, Act.ret q) ∉ as) :
    Inv s' ∧ Callocing nmemb size s'.prog (s'.pc t) ∧
      as.count (t, .run) + callocLeft (nmemb * size) (s'.pc t) ≤ nmemb * size + 3 := by
  refine run_within (P := fun m s pc => Callocing nmemb size s pc ∧ m + callocLeft (nmemb * size) pc ≤ nmemb * size + 3)
    hi ?_ ?_ ?_ ?_ hrun hopen
  · rw [hpc]
    exact ⟨⟨rfl, rfl⟩, by simp [callocLeft]⟩
  · rintro _ _ ⟨h, _⟩
    exact h
  · intro m s s' pc bs hs h hk
    exact ⟨callocing_keeps hs h.1 hk, h.2⟩
  · intro m s s' pc pc' bs fuel grant hs _ h hok hstep
    obtain ⟨h1, h2⟩ := callocing_step hs h.1 hok hstep
    exact ⟨h1, by omega⟩

/-- A step that clears a byte changes no header. -/
theorem memset_header {bs : List Block} {ptr total i block a n : Nat} {u : Process ι} (hs : Sane s'.prog bs)
    (hc : Cleared s'.prog ptr total n) (hpc : s'.pc t = .memset ptr total i) (hu : HookStep s' (t, .run) u)
    (hb : InList s'.prog.heap block) (h1 : block ≤ a) (h2 : a < block + metaSize) :
    u.prog.heap.mem a = s'.prog.heap.mem a := by
  cases hu with
  | run fuel grant hok hst =>
    rw [hpc] at hst
    simp only [step] at hst
    split at hst
    · rename_i hlt
      obtain ⟨rfl, rfl⟩ := Prod.mk.inj (Option.some.inj hst)
      obtain ⟨_, _, _, hhead⟩ := store_spec 0 hs hc.live (inAlloc_add hlt)
      refine Mem.set_of_ne _ _ ?_
      rintro rfl
      exact hhead block hb ⟨h1, h2⟩
    · obtain ⟨rfl, rfl⟩ := Prod.mk.inj (Option.some.inj hst)
      rfl

/-- `calloc` of any two numbers of type `size_t`, whatever the other threads do meanwhile. If the product does not fit, it returns
`NULL` and has left the heap. Otherwise it asks for the product, and a pointer it returns is that of a block in use with so many
bytes, all 0; clearing them changes no byte of another live allocation or of a header. It returns. -/
theorem calloc_exact (mem : Mem) (b : Break) (tr as : List (ι × Act)) (s s₁ s' : Process ι) (t : ι) (nmemb size : Nat)
    (hr : Run HookStep (Process.start mem b) tr s) (hcall : HookStep s (t, .call (.calloc nmemb size)) s₁)
    (hrun : Run HookStep s₁ as s') (hopen : ∀ q, (t, Act.ret q) ∉ as) :
    (2 ^ 64 ≤ nmemb * size → (∀ q, (s'.pc t).result = some q → q = 0) ∧
      ∀ u, HookStep s' (t, .run) u → u.prog = s'.prog ∧ (u.pc t).result = some 0) ∧
    (nmemb * size < 2 ^ 64 → s'.pc t = .calloc nmemb size →
      ∀ u, HookStep s' (t, .run) u → u.prog = s'.prog ∧ (u.pc t).asks = some (nmemb * size)) ∧
    (∀ n, (s'.pc t).asks = some n → n = nmemb * size) ∧
    (∀ q, (s'.pc t).result = some q → q ≠ 0 → (q, nmemb * size) ∈ s'.prog.live ∧ InUse s'.prog.heap q (nmemb * size) ∧
      ∀ k, k < nmemb * size → s'.prog.heap.mem (q + k) = 0) ∧
    (∀ ptr total i, s'.pc t = .memset ptr total i → ∀ u, HookStep s' (t, .run) u →
      (∀ x ∈ s'.prog.live, x.1 ≠ ptr → Keeps s'.prog u.prog x) ∧
      ∀ block, InList s'.prog.heap block → ∀ a, block ≤ a → a < block + metaSize →
        u.prog.heap.mem a = s'.prog.heap.mem a) ∧
    ((s'.pc t).result = none → nmemb * size + metaSize < 2 ^ 63 ∨ 2 ^ 64 ≤ nmemb * size →
      ∀ grant, ∃ fuel res, step fuel grant s'.prog (s'.pc t) = some res) ∧
    as.count (t, .run) ≤ nmemb * size + 3 := by
  have hi₁ : Inv s₁ := (run_inv hr).step hcall
  have hpc₁ : s₁.pc t = .calloc nmemb size := by
    cases hcall
    exact Process.goto_self ..
  obtain ⟨hi, hca, hcount⟩ := callocing_run hi₁ hpc₁ hrun hopen
  obtain ⟨bs, hs⟩ := hi.sane
  refine ⟨?_, ?_, ?_, ?_, ?_, ?_, by omega⟩
  · intro hbig
    refine ⟨fun q hq => ?_, fun u hu => ?_⟩
    · by_contra h0
      have hlt := (hca.of_result hq h0).1
      omega
    · have hpc : s'.pc t = .calloc nmemb size := hca.eq_of_overflow hbig hu.result_eq_none
      cases hu with
      | run fuel grant hok hst =>
        rw [hpc] at hst
        obtain ⟨rfl, rfl⟩ := Prod.mk.inj (Option.some.inj hst)
        rw [Process.goto_self, callocTest_eq, if_pos hbig]
        exact ⟨rfl, rfl⟩
  · intro hlt hpc u hu
    cases hu with
    | run fuel grant hok hst =>
      rw [hpc] at hst
      obtain ⟨rfl, rfl⟩ := Prod.mk.inj (Option.some.inj hst)
      rw [Process.goto_self, callocTest_eq, if_neg (Nat.not_le.2 hlt)]
      exact ⟨rfl, rfl⟩
  · intro n hn
    exact (hca.of_asks hn).2
  · intro q hq h0
    obtain ⟨_, hc⟩ := hca.of_result hq h0
    obtain ⟨huse, hroom⟩ := hs.inUse hc.live
    exact ⟨hc.live, huse.mono hroom, fun k hk => hc.bytes k hk hk⟩
  · intro ptr total i hpc u hu
    rw [hpc] at hca
    refine ⟨fun x hx hne => hu.keeps hi x hx ?_, fun block hb a h1 h2 => ?_⟩
    · rw [hpc]
      rintro ⟨_, hx⟩
      exact hne (by simpa [Pc.pointers] using hx)
    · obtain ⟨_, rfl, hc⟩ := hca
      exact memset_header hs hc hpc hu hb h1 h2
  · intro hres hsize grant
    refine ⟨bs.length + 1, step_returns hs ?_ hres fun n hn => ?_⟩
    · intro hpc
      rw [hpc] at hca
      exact hca
    · obtain ⟨hlt, rfl⟩ := hca.of_asks hn
      exact Or.inl (by omega)

end Processes

/-- The thread has freed its byte. -/
def HookAux.freed : Process Bool := (after (written.goto true (.free 4120)) true 1).goto true .program

/-- The byte left in a recycled block is cleared. -/
theorem calloc_exact_recycled :
    ∃ s₁ s' : Process Bool, ∃ tr as, Run HookStep (Process.start (fun _ => 0) break4096) tr freed ∧
      freed.prog.heap.mem 4120 = 7 ∧ HookStep freed (true, .call (.calloc 1 1)) s₁ ∧ Run HookStep s₁ as s' ∧
      (s'.pc true).result = some 4120 ∧ InUse s'.prog.heap 4120 1 ∧ s'.prog.heap.mem 4120 = 0 := by
  obtain ⟨tr, hr⟩ := written_run
  have hr := hr.snoc (HookStep.call (t := true) (.free 4120) rfl (Or.inr ⟨⟨1, by decide⟩, written_not_held _⟩))
  have hr := hr.snoc (after_step true 1 rfl (by decide))
  have hr : Run HookStep _ _ freed := hr.snoc (HookStep.ret (t := true) (p := 0) rfl)
  have hcall : HookStep freed (true, .call (.calloc 1 1)) (freed.goto true (.calloc 1 1)) :=
    .call _ rfl ⟨by decide, by decide⟩
  have hrun := Run.single (after_step (s := freed.goto true (.calloc 1 1)) true 1 rfl (by decide))
  have hrun := hrun.snoc (after_step true 2 rfl (by decide))
  have hrun := hrun.snoc (after_step true 1 rfl (by decide))
  have hrun := hrun.snoc (after_step true 1 rfl (by decide))
  obtain ⟨_, _, _, hret, _⟩ := calloc_exact _ _ _ _ _ _ _ true 1 1 hr hcall hrun (by simp)
  obtain ⟨_, huse, hb⟩ := hret 4120 rfl (by decide)
  exact ⟨_, _, _, _, hr, rfl, hcall, hrun, rfl, huse, hb 0 (by decide)⟩

end OsLab.HookMalloc
