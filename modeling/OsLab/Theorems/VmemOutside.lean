import OsLab.VmemFault
import OsLab.Theorems.Vmem

/-!
# Accesses outside the region

The error branch of `segv_handler` does not end it. On an address outside the region the first two programs call `load_page(-1)`,
which evicts a page first when four are resident; the third reads the entry of page -1.
-/

namespace OsLab.Vmem

variable {L : Layout} {s : Vm} {addr : Nat} {mapped : Bool}

namespace OutsideAux

/-- The number `page_of_addr` gives an address outside. -/
theorem pageOfAddr_outside (h : ¬L.Contains addr) : pageOfAddr L addr = -1 := by
  unfold Layout.Contains at h
  unfold pageOfAddr
  rw [if_pos (by omega)]

/-- Page -1 is outside the table. -/
theorem entryIndex_outside : entryIndex (-1) = .error (.tableIndex (-1)) := rfl

/-- `load_page` is called with the number of the page. -/
theorem loadPage_mem_watch (P : Pager) (pageNo : Int) : .loadPage pageNo ∈ (watchLoadPage P mapped L s pageNo).deeds := by
  unfold watchLoadPage
  repeat' split
  all_goals exact List.mem_cons_self

/-- Watching `load_page` changes nothing, where the page is mapped. -/
theorem result_watchLoadPage (P : Pager) (pageNo : Int) :
    (watchLoadPage P true L s pageNo).result = (loadPage P L s pageNo).mapError .fault := by
  unfold watchLoadPage loadPage
  cases makeRoom P L s with
  | error e => rfl
  | ok s' =>
    cases h : entryIndex pageNo with
    | error e => rfl
    | ok page => rfl

end OutsideAux

open OutsideAux

/-- Watching the handler changes nothing, where the page in front of the region is mapped. -/
theorem Program.result_watch (P : Program) (L : Layout) (s : Vm) (addr : Nat) :
    (P.watch true L s addr).result = (P.segvHandler L s addr).mapError .fault := by
  cases P with
  | fifo => exact result_watchLoadPage _ _
  | secondChance fuel => exact result_watchLoadPage _ _
  | dirtyTracking =>
    simp only [Program.watch, Program.segvHandler, DirtyTracking.segvHandler]
    cases entryIndex (pageOfAddr L addr) with
    | error e => rfl
    | ok page =>
      simp only
      split
      · rfl
      · exact result_watchLoadPage _ _

/-- In no state of the three programs does an access outside the region spare the pager, mapped or not what lies in front of the
region: `load_page` is called with -1, or the page table is used at -1. -/
theorem outside_access_never_spared (P : Program) (mapped : Bool) (L : Layout) (s : Vm) (addr : Nat) (h : ¬L.Contains addr) :
    ¬Spared s (P.watch mapped L s addr) := by
  intro hs
  cases P with
  | fifo => exact hs.loads _ (loadPage_mem_watch _ _)
  | secondChance fuel => exact hs.loads _ (loadPage_mem_watch _ _)
  | dirtyTracking =>
    have hi := hs.indexes (-1)
    simp only [Program.watch, pageOfAddr_outside h, entryIndex_outside] at hi
    exact absurd (hi List.mem_cons_self).1 (by decide)

/-- The first byte of each of four pages is written. -/
def fourPages : List Access := [⟨4096, some 65⟩, ⟨4100, some 66⟩, ⟨4104, some 67⟩, ⟨4108, some 68⟩]

/-- With four pages resident, an access right behind the region makes the handler evict page 0 for page -1. -/
theorem outside_access_evicts :
    ∃ s outs, Exec.run (Fifo.access smallLayout 2) initVmem fourPages = .ok (s, outs) ∧ ¬smallLayout.Contains 4128 ∧
      s.residentCount = 4 ∧ (Program.fifo.watch false smallLayout s 4128).vm.residentCount = 3 ∧
      (s.pageTable ⟨0, by decide⟩).state = .resident ∧
      ((Program.fifo.watch false smallLayout s 4128).vm.pageTable ⟨0, by decide⟩).state = .swapped ∧
      (Program.fifo.watch false smallLayout s 4128).deeds = [.loadPage (-1)] ∧
      ¬Spared s (Program.fifo.watch false smallLayout s 4128) := by
  refine ⟨_, _, rfl, by unfold Layout.Contains; decide, rfl, rfl, rfl, rfl, rfl, fun hs => ?_⟩
  exact absurd hs.residentCount (by decide)

/-- The third program uses the entry in front of its table, from its first state on. -/
theorem outside_access_never_spared_start :
    ¬smallLayout.Contains 0 ∧ ¬Spared initVmem (Program.dirtyTracking.watch true smallLayout initVmem 0) := by
  have h : ¬smallLayout.Contains 0 := by
    unfold Layout.Contains
    decide
  exact ⟨h, outside_access_never_spared .dirtyTracking true smallLayout initVmem 0 h⟩

end OsLab.Vmem
