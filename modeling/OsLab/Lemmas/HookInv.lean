import OsLab.Lemmas.HookProg

/-!
# Threads in the interposed functions

The invariant of a process: the program is sane, the pointers a thread works on are live (`Placed`), and no two threads work on
one pointer. A step of a thread keeps every live allocation it does not work on (`step_spec`), so what another thread knows of its
own pointers stays true (`HookStep.frame`).
-/

namespace OsLab.HookMalloc

open OsLab.Malloc OsLab.Malloc.HeapAux OsLab.Malloc.SizesAux HookAux

/-- The pointer is live. -/
def Alive (s : Prog) (p : Nat) : Prop := ∃ n, (p, n) ∈ s.live

/-- What the place of a thread says about the program. -/
def Placed (s : Prog) : Pc → Prop
  | .free ptr => ptr = 0 ∨ Alive s ptr
  | .memset ptr total i => (ptr, total) ∈ s.live ∧ i ≤ total
  | .realloc ptr _ => ptr = 0 ∨ Alive s ptr
  | .reallocMalloc ptr size => Alive s ptr ∧ blockSize s ptr < size
  | .reallocCopy ptr newPtr => Alive s ptr ∧ ptr ≠ newPtr ∧ ∃ n, (newPtr, n) ∈ s.live ∧ blockSize s ptr < n
  | .memcpy ptr newPtr count i =>
    Alive s ptr ∧ ptr ≠ newPtr ∧ (∃ n, (newPtr, n) ∈ s.live ∧ count < n) ∧ count = blockSize s ptr ∧ i ≤ count
  | .reallocFree ptr newPtr => Alive s ptr ∧ ptr ≠ newPtr ∧ Alive s newPtr
  | .reallocNull ptr => Alive s ptr
  | .ret p => p = 0 ∨ Alive s p
  | _ => True

/-- The invariant of a process. -/
structure Inv {ι : Type} (s : Process ι) : Prop where
  sane : ∃ bs, Sane s.prog bs
  placed : ∀ t, Placed s.prog (s.pc t)
  apart : ∀ t u, t ≠ u → ∀ p, (s.pc t).Holds p → ¬(s.pc u).Holds p

namespace HookAux

variable {s s' : Prog} {bs : List Block} {pc pc' : Pc} {x : Nat × Nat} {p q n i count size fuel : Nat} {grant : Bool}

/-! ## What a thread knows of its pointers -/

/-- The allocations of the pointers of a place are as they were. -/
def KeepsAll (s s' : Prog) (pc : Pc) : Prop := ∀ x ∈ s.live, pc.Holds x.1 → Keeps s s' x

/-- What a thread works on stays allocated, with its size. -/
theorem Alive.keeps (hs : Sane s bs) (h : Alive s p) (hk : KeepsAll s s' pc) (hp : p ∈ pc.pointers) :
    Alive s' p ∧ blockSize s' p = blockSize s p := by
  obtain ⟨n, hl⟩ := h
  have hkeep := hk _ hl ⟨hs.pos hl, hp⟩
  exact ⟨⟨n, hkeep.live⟩, hkeep.size⟩

/-- What the place of a thread says stays true as long as its pointers are left alone. -/
theorem placed_keeps (hs : Sane s bs) (h : Placed s pc) (hk : KeepsAll s s' pc) : Placed s' pc := by
  have halive : ∀ {p}, Alive s p → p ∈ pc.pointers → Alive s' p ∧ blockSize s' p = blockSize s p :=
    fun ha hp => Alive.keeps hs ha hk hp
  have hlive : ∀ {x}, x ∈ s.live → x.1 ∈ pc.pointers → x ∈ s'.live := fun hx hp => (hk _ hx ⟨hs.pos hx, hp⟩).live
  cases pc with
  | free ptr => exact h.imp id fun ha => (halive ha (by simp [Pc.pointers])).1
  | realloc ptr size => exact h.imp id fun ha => (halive ha (by simp [Pc.pointers])).1
  | ret p => exact h.imp id fun ha => (halive ha (by simp [Pc.pointers])).1
  | reallocNull ptr => exact (halive h (by simp [Pc.pointers])).1
  | memset ptr total i => exact ⟨hlive h.1 (by simp [Pc.pointers]), h.2⟩
  | reallocMalloc ptr size =>
    obtain ⟨ha, hb⟩ := halive h.1 (by simp [Pc.pointers])
    exact ⟨ha, Nat.lt_of_le_of_lt (Nat.le_of_eq hb) h.2⟩
  | reallocCopy ptr newPtr =>
    obtain ⟨h1, hne, n, hl, hlt⟩ := h
    obtain ⟨ha, hb⟩ := halive h1 (by simp [Pc.pointers])
    exact ⟨ha, hne, n, hlive hl (by simp [Pc.pointers]), Nat.lt_of_le_of_lt (Nat.le_of_eq hb) hlt⟩
  | memcpy ptr newPtr count i =>
    obtain ⟨h1, hne, ⟨n, hl, hlt⟩, hc, hi⟩ := h
    obtain ⟨ha, hb⟩ := halive h1 (by simp [Pc.pointers])
    exact ⟨ha, hne, ⟨n, hlive hl (by simp [Pc.pointers]), hlt⟩, hc.trans hb.symm, hi⟩
  | reallocFree ptr newPtr =>
    exact ⟨(halive h.1 (by simp [Pc.pointers])).1, h.2.1, (halive h.2.2 (by simp [Pc.pointers])).1⟩
  | program | malloc size | calloc nmemb size | callocMalloc total => trivial

/-- The pointers a thread works on are live. -/
theorem alive_of_holds (h : Placed s pc) (hp : pc.Holds p) : Alive s p := by
  obtain ⟨h0, hp⟩ := hp
  cases pc with
  | program | malloc size | calloc nmemb size | callocMalloc total => cases hp
  | free ptr | realloc ptr size | ret q =>
    obtain rfl : p = _ := by simpa [Pc.pointers] using hp
    exact h.resolve_left h0
  | reallocNull ptr =>
    obtain rfl : p = _ := by simpa [Pc.pointers] using hp
    exact h
  | memset ptr total i =>
    obtain rfl : p = _ := by simpa [Pc.pointers] using hp
    exact ⟨_, h.1⟩
  | reallocMalloc ptr size =>
    obtain rfl : p = _ := by simpa [Pc.pointers] using hp
    exact h.1
  | reallocCopy ptr newPtr =>
    obtain ⟨ha, _, n, hl, _⟩ := h
    simp only [Pc.pointers, List.mem_cons, List.not_mem_nil, or_false] at hp
    rcases hp with rfl | rfl
    · exact ha
    · exact ⟨n, hl⟩
  | memcpy ptr newPtr count i =>
    obtain ⟨ha, _, ⟨n, hl, _⟩, _⟩ := h
    simp only [Pc.pointers, List.mem_cons, List.not_mem_nil, or_false] at hp
    rcases hp with rfl | rfl
    · exact ha
    · exact ⟨n, hl⟩
  | reallocFree ptr newPtr =>
    obtain ⟨ha, _, hq⟩ := h
    simp only [Pc.pointers, List.mem_cons, List.not_mem_nil, or_false] at hp
    rcases hp with rfl | rfl
    · exact ha
    · exact hq

/-! ## One step of a thread -/

/-- What a step of a thread comes to: the program is sane, the place it goes to says true things, the allocations it does not work
on are kept, and the pointers it works on then are old ones of its own or new. -/
structure Stepped (s s' : Prog) (pc pc' : Pc) : Prop where
  sane : ∃ bs, Sane s' bs
  placed : Placed s' pc'
  keeps : ∀ x ∈ s.live, ¬pc.Holds x.1 → Keeps s s' x
  holds : ∀ p, pc'.Holds p → pc.Holds p ∨ ∀ x ∈ s.live, x.1 ≠ p

/-- A step that changes no more than the place. -/
theorem stepped_same (hs : Sane s bs) (hp : Placed s pc') (hh : ∀ p, pc'.Holds p → pc.Holds p) : Stepped s s pc pc' :=
  ⟨⟨bs, hs⟩, hp, fun _ hx _ => Keeps.refl hx, fun p h => Or.inl (hh p h)⟩

/-- A byte stored in an allocation the thread works on. -/
theorem stepped_store {a : Nat} (v : UInt8) (hs : Sane s bs) (hl : (p, n) ∈ s.live) (ha : InAlloc (p, n) a)
    (hp : p ∈ pc.pointers) (hh : pc'.pointers = pc.pointers)
    (hplaced : ∀ s', (∀ x ∈ s.live, x ∈ s'.live) → (∀ x ∈ s.live, blockSize s' x.1 = blockSize s x.1) → Placed s' pc') :
    Stepped s { s with heap := s.heap.store a v } pc pc' := by
  obtain ⟨hsane, hkeeps, hsize, _⟩ := store_spec v hs hl ha
  refine ⟨⟨bs, hsane⟩, hplaced _ (fun x hx => hx) hsize, ?_, ?_⟩
  · intro x hx hnot
    refine hkeeps x hx ?_
    rintro rfl
    exact hnot ⟨hs.pos hx, hp⟩
  · intro q hq
    unfold Pc.Holds at hq ⊢
    rw [hh] at hq
    exact Or.inl hq

/-- The section of `my_malloc`, for a place `k ptr` that holds the new pointer and what the thread held before. -/
theorem stepped_malloc {k : Nat → Pc} (hs : Sane s bs) (hplaced : Placed s pc) (hok : s.heap.Admits size grant)
    (hm : lockedMalloc fuel grant s size k = some (s', pc'))
    (hk : ∀ p q, (k p).Holds q → q = p ∨ pc.Holds q)
    (hnull : ∀ bs, Sane s bs → Placed s pc → Placed s (k 0))
    (hnew : ∀ p, p ≠ 0 → Placed s' pc → (p, size) ∈ s'.live → (∀ x ∈ s.live, x.1 ≠ p) → Placed s' (k p)) :
    Stepped s s' pc pc' := by
  obtain ⟨bs', p, rfl, hs', hkeeps, ⟨rfl, rfl⟩ | ⟨hp, hl, hfresh⟩⟩ := lockedMalloc_spec hs hok hm
  · refine stepped_same hs (hnull bs hs hplaced) ?_
    intro q hq
    exact (hk 0 q hq).resolve_left (fun h => hq.1 h)
  · refine ⟨⟨bs', hs'⟩, hnew p hp (placed_keeps hs hplaced fun x hx _ => hkeeps x hx) hl hfresh, fun x hx _ => hkeeps x hx, ?_⟩
    intro q hq
    rcases hk p q hq with rfl | h
    · exact Or.inr hfresh
    · exact Or.inl h

/-- `my_free` of a pointer the thread works on. -/
theorem stepped_free (hs : Sane s bs) (hl : Alive s p) (hp : p ∈ pc.pointers) (hh : ∀ q, pc'.Holds q → pc.Holds q)
    (hplaced : (∀ x ∈ s.live, x.1 ≠ p → Keeps s (lockedFree s p) x) → Placed (lockedFree s p) pc') :
    Stepped s (lockedFree s p) pc pc' := by
  obtain ⟨n, hl⟩ := hl
  obtain ⟨hsane, hkeeps, _⟩ := lockedFree_spec hs hl
  refine ⟨hsane, hplaced hkeeps, ?_, fun q hq => Or.inl (hh q hq)⟩
  intro x hx hnot
  refine hkeeps x hx ?_
  rintro rfl
  exact hnot ⟨hs.pos hx, hp⟩

/-- The tests of `realloc`. -/
theorem stepped_realloc (hs : Sane s bs) (hp : Placed s (.realloc p n)) :
    Stepped s (reallocTest s p n).1 (.realloc p n) (reallocTest s p n).2 := by
  unfold reallocTest
  by_cases h0 : p = 0
  · rw [if_pos h0]
    exact stepped_same hs trivial (by simp [Pc.Holds, Pc.pointers])
  · have ha : Alive s p := hp.resolve_left h0
    obtain ⟨r, hl⟩ := ha
    rw [if_neg h0]
    by_cases hn : n = 0
    · rw [if_pos hn]
      exact stepped_same hs hp (by simp [Pc.Holds, Pc.pointers])
    · rw [if_neg hn]
      by_cases hroom : blockSize s p ≥ n
      · rw [if_pos hroom]
        obtain ⟨hsane, hkeeps, hlive⟩ := resize_spec hs hl hroom
        refine ⟨⟨bs, hsane⟩, Or.inr ⟨n, hlive⟩, ?_, fun q hq => Or.inl hq⟩
        intro x hx hnot
        refine hkeeps x hx ?_
        rintro rfl
        exact hnot ⟨h0, by simp [Pc.pointers]⟩
      · rw [if_neg hroom]
        exact stepped_same hs ⟨⟨r, hl⟩, Nat.lt_of_not_le hroom⟩ (fun q hq => hq)

/-- One step of a thread, at any place. -/
theorem step_spec (hs : Sane s bs) (hp : Placed s pc) (hok : ∀ size, pc.asks = some size → s.heap.Admits size grant)
    (hstep : step fuel grant s pc = some (s', pc')) : Stepped s s' pc pc' := by
  cases pc with
  | program => cases hstep
  | ret p => cases hstep
  | reallocNull ptr => cases hstep
  | malloc size =>
    refine stepped_malloc hs hp (hok size rfl) hstep ?_ (fun _ _ _ => Or.inl rfl) (fun p _ _ hl _ => Or.inr ⟨size, hl⟩)
    simp [Pc.Holds, Pc.pointers]
  | free ptr =>
    simp only [step] at hstep
    by_cases h0 : ptr = 0
    · rw [if_pos h0] at hstep
      cases hstep
      exact stepped_same hs (Or.inl rfl) (by simp [Pc.Holds, Pc.pointers])
    · rw [if_neg h0] at hstep
      cases hstep
      exact stepped_free hs (hp.resolve_left h0) (by simp [Pc.pointers]) (by simp [Pc.Holds, Pc.pointers])
        (fun _ => Or.inl rfl)
  | calloc nmemb size =>
    cases hstep
    unfold callocTest
    split
    · exact stepped_same hs (Or.inl rfl) (by simp [Pc.Holds, Pc.pointers])
    · exact stepped_same hs trivial (by simp [Pc.Holds, Pc.pointers])
  | callocMalloc total =>
    refine stepped_malloc hs hp (hok total rfl) hstep ?_ (fun _ _ _ => Or.inl rfl) ?_
    · intro p q hq
      split at hq
      · exact Or.inl (by simpa [Pc.pointers] using hq.2)
      · exact Or.inl (by simpa [Pc.pointers] using hq.2)
    · intro p h0 _ hl _
      rw [if_pos h0]
      exact ⟨hl, Nat.zero_le _⟩
  | memset ptr total i =>
    obtain ⟨hl, hi⟩ := hp
    simp only [step] at hstep
    by_cases hlt : i < total
    · rw [if_pos hlt] at hstep
      cases hstep
      refine stepped_store 0 hs hl (inAlloc_add hlt) (by simp [Pc.pointers]) rfl ?_
      intro s' hold _
      exact ⟨hold _ hl, hlt⟩
    · rw [if_neg hlt] at hstep
      cases hstep
      exact stepped_same hs (Or.inr ⟨total, hl⟩) (fun q hq => hq)
  | realloc ptr size =>
    have he : reallocTest s ptr size = (s', pc') := Option.some.inj hstep
    have h := stepped_realloc hs hp
    rw [he] at h
    exact h
  | reallocMalloc ptr size =>
    refine stepped_malloc hs hp (hok size rfl) hstep ?_ (fun _ _ h => h.1) ?_
    · intro p q hq
      split at hq
      · exact Or.inr hq
      · obtain ⟨h0, hq⟩ := hq
        simp only [Pc.pointers, List.mem_cons, List.not_mem_nil, or_false] at hq
        exact hq.symm.imp id fun he => ⟨h0, by simp [Pc.pointers, he]⟩
    · intro p h0 hp' hl hfresh
      rw [if_neg h0]
      obtain ⟨⟨r, hr⟩, _⟩ := hp
      exact ⟨hp'.1, hfresh _ hr, size, hl, hp'.2⟩
  | reallocCopy ptr newPtr =>
    cases hstep
    obtain ⟨ha, hne, n, hl, hlt⟩ := hp
    exact stepped_same hs ⟨ha, hne, ⟨n, hl, hlt⟩, rfl, Nat.zero_le _⟩ (fun q hq => hq)
  | memcpy ptr newPtr count i =>
    obtain ⟨⟨r, hr⟩, hne, ⟨n, hl, hlt⟩, hc, hi⟩ := hp
    simp only [step] at hstep
    by_cases hic : i < count
    · rw [if_pos hic] at hstep
      cases hstep
      refine stepped_store _ hs hl (inAlloc_add (Nat.lt_trans hic hlt)) (by simp [Pc.pointers]) rfl ?_
      intro s' hold hsize
      exact ⟨⟨r, hold _ hr⟩, hne, ⟨n, hold _ hl, hlt⟩, hc.trans (hsize _ hr).symm, hic⟩
    · rw [if_neg hic] at hstep
      cases hstep
      exact stepped_same hs ⟨⟨r, hr⟩, hne, n, hl⟩ (fun q hq => hq)
  | reallocFree ptr newPtr =>
    cases hstep
    obtain ⟨ha, hne, n, hl⟩ := hp
    refine stepped_free hs ha (by simp [Pc.pointers]) ?_ ?_
    · intro q hq
      exact ⟨hq.1, List.mem_cons_of_mem _ hq.2⟩
    · intro hkeeps
      exact Or.inr ⟨n, (hkeeps _ hl (Ne.symm hne)).live⟩

/-- A thread inside a function that is not at its return can take a step, whatever the system answers to a request that is safe to
make. -/
theorem step_returns (hs : Sane s bs) (hpc : pc ≠ .program) (hres : pc.result = none)
    (hok : ∀ size, pc.asks = some size → s.heap.Admits size grant) : ∃ r, step (bs.length + 1) grant s pc = some r := by
  have hlocked : ∀ size k, s.heap.Admits size grant → ∃ r, lockedMalloc (bs.length + 1) grant s size k = some r := by
    intro size k hadm
    obtain ⟨s', pc', hr⟩ := lockedMalloc_returns hs hadm k
    exact ⟨_, hr⟩
  cases pc with
  | program => exact absurd rfl hpc
  | ret p => cases hres
  | reallocNull ptr => cases hres
  | malloc size | callocMalloc total | reallocMalloc ptr size => exact hlocked _ _ (hok _ rfl)
  | calloc nmemb size | realloc ptr size | reallocCopy ptr newPtr | reallocFree ptr newPtr => exact ⟨_, rfl⟩
  | free ptr | memset ptr total i | memcpy ptr newPtr count i =>
    simp only [step]
    split <;> exact ⟨_, rfl⟩

end HookAux

/-! ## Processes -/

section Processes

variable {ι : Type} [DecidableEq ι] {s s' : Process ι} {t u : ι} {act : Act}

theorem Process.goto_self (s : Process ι) (t : ι) (pc : Pc) : (s.goto t pc).pc t = pc := Function.update_self ..

theorem Process.goto_of_ne (s : Process ι) (pc : Pc) (h : u ≠ t) : (s.goto t pc).pc u = s.pc u := Function.update_of_ne h ..

/-- A step of one thread leaves the place of another, and the allocations of the pointers the other works on. -/
theorem HookStep.frame (hi : Inv s) (h : HookStep s (u, act) s') (hne : t ≠ u) :
    s'.pc t = s.pc t ∧ HookAux.KeepsAll s.prog s'.prog (s.pc t) := by
  obtain ⟨bs, hs⟩ := hi.sane
  cases h with
  | call c hpc hok => exact ⟨s.goto_of_ne _ hne, fun x hx _ => Keeps.refl hx⟩
  | ret hpc => exact ⟨s.goto_of_ne _ hne, fun x hx _ => Keeps.refl hx⟩
  | run fuel grant hok hstep =>
    have hst := step_spec hs (hi.placed u) hok hstep
    exact ⟨Process.goto_of_ne _ _ hne, fun x hx hh => hst.keeps x hx (hi.apart t u hne x.1 hh)⟩
  | store v hpc hl hheld h1 h2 =>
    refine ⟨rfl, fun x hx hh => (store_spec v hs hl ⟨h1, h2⟩).2.1 x hx ?_⟩
    rintro rfl
    exact hheld ⟨t, hh⟩
  | raise n hpc hn => exact ⟨rfl, fun x hx _ => (raise_spec hs hn).2 x hx⟩

/-- A thread that has a result takes no step of a call. -/
theorem HookStep.result_eq_none (h : HookStep s (t, .run) s') : (s.pc t).result = none := by
  cases h with
  | run fuel grant hok hstep =>
    cases hpc : s.pc t with
    | ret p | reallocNull ptr =>
      rw [hpc] at hstep
      cases hstep
    | _ => rfl

/-- A step inside a function keeps the allocations the thread does not work on. -/
theorem HookStep.keeps (h : HookStep s (t, .run) s') (hi : Inv s) :
    ∀ x ∈ s.prog.live, ¬(s.pc t).Holds x.1 → Keeps s.prog s'.prog x := by
  obtain ⟨bs, hs⟩ := hi.sane
  cases h with
  | run fuel grant hok hstep => exact (step_spec hs (hi.placed t) hok hstep).keeps

/-- A step keeps the invariant if it does so for the thread that takes it, and leaves it no pointer another one works on. -/
theorem HookStep.inv_of (hi : Inv s) (h : HookStep s (u, act) s') (hsane : ∃ bs, Sane s'.prog bs)
    (hplaced : Placed s'.prog (s'.pc u)) (hnew : ∀ p, (s'.pc u).Holds p → ∀ t, t ≠ u → ¬(s.pc t).Holds p) : Inv s' := by
  obtain ⟨bs, hs⟩ := hi.sane
  refine ⟨hsane, fun t => ?_, fun t v htv p hp hv => ?_⟩
  · by_cases ht : t = u
    · rw [ht]
      exact hplaced
    · obtain ⟨hpc, hk⟩ := h.frame hi ht
      rw [hpc]
      exact placed_keeps hs (hi.placed t) hk
  · by_cases ht : t = u
    · subst ht
      rw [(h.frame hi (Ne.symm htv)).1] at hv
      exact hnew p hp v (Ne.symm htv) hv
    · rw [(h.frame hi ht).1] at hp
      by_cases hvu : v = u
      · subst hvu
        exact hnew p hv t ht hp
      · rw [(h.frame hi hvu).1] at hv
        exact hi.apart t v htv p hp hv

omit [DecidableEq ι] in
/-- A call starts with what the program may pass. -/
theorem placed_call {c : Call} (h : s.MayCall c) : Placed s.prog c.pc := by
  cases c with
  | malloc size | calloc nmemb size => trivial
  | free ptr => exact h.imp id And.left
  | realloc ptr size => exact h.1.imp id And.left

omit [DecidableEq ι] in
/-- A call starts with no pointer another thread works on. -/
theorem not_holds_of_call {c : Call} {p : Nat} (h : s.MayCall c) (hp : c.pc.Holds p) : ¬(s.pc t).Holds p := by
  intro hq
  have hpass : ∀ {ptr}, s.MayPass ptr → p = ptr → False := by
    rintro ptr (rfl | ⟨_, hheld⟩) rfl
    · exact hp.1 rfl
    · exact hheld ⟨t, hq⟩
  cases c with
  | malloc size | calloc nmemb size => simp [Pc.Holds, Pc.pointers, Call.pc] at hp
  | free ptr => exact hpass h (by simpa [Pc.pointers, Call.pc] using hp.2)
  | realloc ptr size => exact hpass h.1 (by simpa [Pc.pointers, Call.pc] using hp.2)

/-- Every step keeps the invariant. -/
theorem Inv.step (hi : Inv s) (h : HookStep s (u, act) s') : Inv s' := by
  obtain ⟨bs, hs⟩ := hi.sane
  have hold := h.inv_of hi
  cases h with
  | call c hpc hok =>
    have hplaced : Placed s.prog c.pc := placed_call hok
    rw [Process.goto_self] at hold
    exact hold ⟨bs, hs⟩ hplaced fun p hp t _ => not_holds_of_call hok hp
  | ret hpc =>
    rw [Process.goto_self] at hold
    exact hold ⟨bs, hs⟩ trivial (by simp [Pc.Holds, Pc.pointers])
  | run fuel grant hok hstep =>
    have hst := step_spec hs (hi.placed u) hok hstep
    rw [Process.goto_self] at hold
    refine hold hst.sane hst.placed ?_
    intro p hp t ht hq
    rcases hst.holds p hp with h1 | h1
    · exact hi.apart t u ht p hq h1
    · -- a new pointer was not live, so nobody works on it
      obtain ⟨n, hl⟩ := alive_of_holds (hi.placed t) hq
      exact h1 _ hl rfl
  | store v hpc hl hheld h1 h2 =>
    exact hold ⟨bs, (store_spec v hs hl ⟨h1, h2⟩).1⟩ (by rw [hpc]; trivial) fun p hp t ht hq => hi.apart t u ht p hq hp
  | raise n hpc hn =>
    exact hold ⟨bs, (raise_spec hs hn).1⟩ (by rw [hpc]; trivial) fun p hp t ht hq => hi.apart t u ht p hq hp

omit [DecidableEq ι] in
/-- The invariant holds before anything is called. -/
theorem inv_start (mem : Mem) (b : Break) : Inv (Process.start mem b : Process ι) :=
  ⟨⟨[], sane_start mem b⟩, fun _ => trivial, by simp [Process.start, Pc.Holds, Pc.pointers]⟩

/-- It holds after every run. -/
theorem run_inv {mem : Mem} {b : Break} {tr : List (ι × Act)} (h : Run HookStep (Process.start mem b) tr s) : Inv s :=
  Run.invariant (P := fun _ s => Inv s) (inv_start mem b) (fun _ _ _ _ _ hi hl => hi.step hl) h

/-! ## Within one call -/

/-- The rule for what holds of a thread while a call has not returned. What its place says of the program, and of the number of
steps it has taken, holds at every moment of the call if it holds at the start, stays true as long as its pointers are left alone,
and is kept by its own steps. -/
theorem run_within {P : Nat → Prog → Pc → Prop} {s₁ : Process ι} {as : List (ι × Act)} (hi : Inv s₁)
    (h0 : P 0 s₁.prog (s₁.pc t)) (hout : ∀ n prog, ¬P n prog .program)
    (hkeep : ∀ n prog prog' pc bs, Sane prog bs → P n prog pc → HookAux.KeepsAll prog prog' pc → P n prog' pc)
    (hstep : ∀ n prog prog' pc pc' bs fuel grant, Sane prog bs → Placed prog pc → P n prog pc →
      (∀ size, pc.asks = some size → prog.heap.Admits size grant) → step fuel grant prog pc = some (prog', pc') →
      P (n + 1) prog' pc')
    (hrun : Run HookStep s₁ as s') (hopen : ∀ q, (t, Act.ret q) ∉ as) : Inv s' ∧ P (as.count (t, .run)) s'.prog (s'.pc t) := by
  revert hopen
  refine Run.invariant (P := fun as s' => (∀ q, (t, Act.ret q) ∉ as) → Inv s' ∧ P (as.count (t, .run)) s'.prog (s'.pc t))
    (fun _ => ⟨hi, h0⟩) ?_ hrun
  rintro as v ⟨u, act⟩ w _ ih hs hopen
  obtain ⟨hiv, hP⟩ := ih fun q hq => hopen q (List.mem_append_left _ hq)
  obtain ⟨bs, hsane⟩ := hiv.sane
  refine ⟨hiv.step hs, ?_⟩
  rw [List.count_append]
  by_cases hu : t = u
  · subst hu
    cases hs with
    | call c hpc _ => exact absurd (hpc ▸ hP) (hout _ _)
    | store v hpc => exact absurd (hpc ▸ hP) (hout _ _)
    | raise n hpc => exact absurd (hpc ▸ hP) (hout _ _)
    | ret hpc => exact absurd (List.mem_append_right _ (List.mem_singleton_self _)) (hopen _)
    | run fuel grant hok hst =>
      rw [Process.goto_self, List.count_singleton_self]
      exact hstep _ _ _ _ _ bs fuel grant hsane (hiv.placed t) hP hok hst
  · obtain ⟨hpc, hk⟩ := hs.frame hiv hu
    have hcount : [(u, act)].count (t, .run) = 0 := List.count_eq_zero_of_not_mem (by simp [hu])
    rw [hpc, hcount]
    exact hkeep _ _ _ _ bs hsane hP hk

/-- A thread that is elsewhere than it was has taken a last step, after which only other threads have taken steps. -/
theorem last_step {s₁ : Process ι} {as : List (ι × Act)} (hi : Inv s₁) (hrun : Run HookStep s₁ as s')
    (hne : s'.pc t ≠ s₁.pc t) :
    ∃ as₁ as₂ act v u, as = as₁ ++ (t, act) :: as₂ ∧ Run HookStep s₁ as₁ v ∧ HookStep v (t, act) u ∧ Run HookStep u as₂ s' ∧
      u.pc t = s'.pc t := by
  have h : Inv s' ∧ (s'.pc t ≠ s₁.pc t → ∃ as₁ as₂ act v u, as = as₁ ++ (t, act) :: as₂ ∧ Run HookStep s₁ as₁ v ∧
      HookStep v (t, act) u ∧ Run HookStep u as₂ s' ∧ u.pc t = s'.pc t) := by
    refine Run.invariant (P := fun as s' => Inv s' ∧ (s'.pc t ≠ s₁.pc t → ∃ as₁ as₂ act v u,
      as = as₁ ++ (t, act) :: as₂ ∧ Run HookStep s₁ as₁ v ∧ HookStep v (t, act) u ∧ Run HookStep u as₂ s' ∧
      u.pc t = s'.pc t)) ⟨hi, fun h => absurd rfl h⟩ ?_ hrun
    rintro as v ⟨u, act⟩ w hv ⟨hiv, ih⟩ hs
    refine ⟨hiv.step hs, fun hw => ?_⟩
    by_cases hu : t = u
    · subst hu
      exact ⟨as, [], act, v, w, rfl, hv, hs, Run.nil w, rfl⟩
    · have hpc := (hs.frame hiv hu).1
      rw [hpc] at hw
      obtain ⟨as₁, as₂, act', v', u', rfl, h1, h2, h3, h4⟩ := ih hw
      exact ⟨as₁, as₂ ++ [(u, act)], act', v', u', by simp, h1, h2, h3.snoc hs, h4.trans hpc.symm⟩
  exact h.2 hne

end Processes

end OsLab.HookMalloc
