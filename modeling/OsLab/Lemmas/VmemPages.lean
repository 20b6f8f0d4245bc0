import OsLab.VmemSpec

/-!
# The pages of a pager

A page is its entry, its protection, the bytes in its frame and the bytes in its slot of the swap file. Frames and slots do not
overlap, so every function of the pagers changes one page (`pages_evictPage` and the like) and the counters. What a page holds
(`Page.contents`) is in its frame, in its slot, or zero, by its state.
-/

namespace OsLab.Vmem

/-- One page. -/
structure Page (n : Nat) where
  entry : PageEntry
  prot : Prot
  frame : Fin n → UInt8
  slot : Fin n → UInt8

/-- What a page holds. -/
def Page.contents {n : Nat} (g : Page n) : Fin n → UInt8 :=
  match g.entry.state with
  | .empty => fun _ => 0
  | .resident => g.frame
  | .swapped => g.slot

/-- The pages of a state. -/
def Vm.pages (L : Layout) (s : Vm) (p : Fin numVpages) : Page L.pageSize where
  entry := s.pageTable p
  prot := s.prot p
  frame := fun o => s.mem (pageStart L p + o)
  slot := fun o => s.swap (p * L.pageSize + o)

namespace PagesAux

variable {L : Layout} {s : Vm} {p q : Fin numVpages}

/-! ## Addresses -/

/-- A page number and an offset are read off the position. -/
theorem offset_inj {n a b o o' : Nat} (ho : o < n) (ho' : o' < n) (h : a * n + o = b * n + o') : a = b ∧ o = o' := by
  have hn : 0 < n := Nat.zero_lt_of_lt ho
  have hd := congrArg (· / n) h
  simp only [Nat.mul_comm _ n, Nat.mul_add_div hn, Nat.div_eq_of_lt ho, Nat.div_eq_of_lt ho', Nat.add_zero] at hd
  subst hd
  exact ⟨rfl, Nat.add_left_cancel h⟩

/-- An address of the region is a page and an offset. -/
theorem exists_page {addr : Nat} (h : L.Contains addr) :
    ∃ (p : Fin numVpages) (o : Fin L.pageSize), addr = pageStart L p + o ∧ entryIndex (pageOfAddr L addr) = .ok p := by
  obtain ⟨h1, h2⟩ := h
  have hlt : (addr - L.vmBase) / L.pageSize < numVpages := Nat.div_lt_of_lt_mul (by rw [Nat.mul_comm]; omega)
  have hsplit := Nat.div_add_mod' (addr - L.vmBase) L.pageSize
  refine ⟨⟨_, hlt⟩, ⟨_, Nat.mod_lt (addr - L.vmBase) L.pageSize_pos⟩, ?_, ?_⟩
  · simp only [pageStart]
    omega
  · unfold pageOfAddr entryIndex
    rw [if_neg (by omega)]
    rw [dif_pos ⟨Int.natCast_nonneg _, Int.ofNat_lt.2 hlt⟩]
    rfl

/-- The address of a page and an offset is in the region. -/
theorem contains_pageStart (p : Fin numVpages) (o : Fin L.pageSize) : L.Contains (pageStart L p + o) := by
  have hp : (p.val + 1) * L.pageSize ≤ numVpages * L.pageSize := Nat.mul_le_mul_right _ p.isLt
  rw [Nat.succ_mul] at hp
  unfold Layout.Contains pageStart
  omega

/-- Different pages have different addresses. -/
theorem pageStart_inj {o o' : Fin L.pageSize} (h : pageStart L p + o = pageStart L q + o') : p = q ∧ o = o' := by
  unfold pageStart at h
  have := offset_inj o.isLt o'.isLt (show p.val * L.pageSize + o.val = q.val * L.pageSize + o'.val by omega)
  exact ⟨Fin.ext this.1, Fin.ext this.2⟩

/-- A byte of one page is not among the bytes at the start of another. -/
theorem not_within {n a b o : Nat} (ho : o < n) (h : a ≠ b) : ¬ (b * n ≤ a * n + o ∧ a * n + o < b * n + n) := by
  rintro ⟨h1, h2⟩
  obtain ⟨o', ho'⟩ := Nat.exists_eq_add_of_le h1
  exact h (offset_inj ho (by omega) ho').1

/-- Frames of two pages do not overlap. -/
theorem not_within_frame (o : Fin L.pageSize) (h : q ≠ p) :
    ¬ (pageStart L p ≤ pageStart L q + o ∧ pageStart L q + o < pageStart L p + L.pageSize) := by
  have := not_within o.isLt (fun he => h (Fin.ext he))
  unfold pageStart
  omega

/-! ## One page changed -/

/-- Two families of pages agree when they agree at `p` and elsewhere. -/
theorem pages_eq_update {f g : Fin numVpages → Page L.pageSize} {x : Page L.pageSize} (hp : f p = x)
    (hne : ∀ q, q ≠ p → f q = g q) : f = Function.update g p x := by
  funext q
  by_cases hq : q = p
  · subst hq
    rw [Function.update_self, hp]
  · rw [Function.update_of_ne hq, hne q hq]

theorem pages_mprotect (prot : Prot) :
    (s.mprotect p prot).pages L = Function.update (s.pages L) p { s.pages L p with prot := prot } := by
  apply pages_eq_update
  · simp only [Vm.pages, Vm.mprotect, Function.update_self]
  · intro q hq
    simp only [Vm.pages, Vm.mprotect, Function.update_of_ne hq]

theorem pages_setEntry (entry : PageEntry) :
    (s.setEntry p entry).pages L = Function.update (s.pages L) p { s.pages L p with entry := entry } := by
  apply pages_eq_update
  · simp only [Vm.pages, Vm.setEntry, Function.update_self]
  · intro q hq
    simp only [Vm.pages, Vm.setEntry, Function.update_of_ne hq]

/-- What is written to the swap file is the frame of the page. -/
theorem pages_swapOut :
    (s.swapOut L p).pages L = Function.update (s.pages L) p { s.pages L p with slot := (s.pages L p).frame } := by
  apply pages_eq_update
  · simp only [Vm.pages, Vm.swapOut, Page.mk.injEq, true_and]
    funext o
    exact Mem.copy_inside _ _ _ _ o.isLt
  · intro q hq
    simp only [Vm.pages, Vm.swapOut, Page.mk.injEq, true_and]
    funext o
    exact Mem.copy_outside _ _ (not_within o.isLt (fun he => hq (Fin.ext he)))

/-- What is read from the swap file comes into the frame of the page. -/
theorem pages_swapIn :
    (s.swapIn L p).pages L = Function.update (s.pages L) p { s.pages L p with frame := (s.pages L p).slot } := by
  apply pages_eq_update
  · simp only [Vm.pages, Vm.swapIn, Page.mk.injEq, true_and, and_true]
    funext o
    exact Mem.copy_inside _ _ _ _ o.isLt
  · intro q hq
    simp only [Vm.pages, Vm.swapIn, Page.mk.injEq, true_and, and_true]
    funext o
    exact Mem.copy_outside _ _ (not_within_frame o hq)

theorem pages_zeroPage :
    (s.zeroPage L p).pages L = Function.update (s.pages L) p { s.pages L p with frame := fun _ => 0 } := by
  apply pages_eq_update
  · simp only [Vm.pages, Vm.zeroPage, Page.mk.injEq, true_and, and_true]
    funext o
    exact Mem.fill_inside _ _ _ o.isLt
  · intro q hq
    simp only [Vm.pages, Vm.zeroPage, Page.mk.injEq, true_and, and_true]
    funext o
    exact Mem.fill_outside _ _ (not_within_frame o hq)

/-- A byte is stored in a page. -/
theorem pages_store (o : Fin L.pageSize) (value : UInt8) (log : List Event) :
    ({ s with mem := s.mem.set (pageStart L p + o) value, log := log } : Vm).pages L =
      Function.update (s.pages L) p { s.pages L p with frame := Function.update (s.pages L p).frame o value } := by
  apply pages_eq_update
  · simp only [Vm.pages, Page.mk.injEq, true_and, and_true]
    funext o'
    by_cases ho : o' = o
    · subst ho
      rw [Mem.set_self, Function.update_self]
    · rw [Function.update_of_ne ho, Mem.set_of_ne]
      exact fun he => ho (pageStart_inj he).2
  · intro q hq
    simp only [Vm.pages, Page.mk.injEq, true_and, and_true]
    funext o'
    exact Mem.set_of_ne _ _ (fun he => hq (pageStart_inj he).1)

end PagesAux

end OsLab.Vmem
