import OsLab.VmemSpec

/-!
# The handler, watched

What `segv_handler` of each program does on any fault address: the calls of `load_page`, the indexes of `page_table` that come from
the address, and how it ends. In its branch for an address outside the region `raise(SIGSEGV)` returns, since the signal is blocked
while the handler runs, and the handler goes on with page -1.

`mprotect` of the page in front of the region works if something is mapped there (`mapped`), and otherwise the program exits. The
indexes of the functions that choose and evict a victim are pages of the table and are left out.
-/

namespace OsLab.Vmem

/-- A call of `load_page`, or an index of `page_table`. -/
inductive Deed where
  | loadPage (pageNo : Int)
  | index (i : Int)
  deriving DecidableEq

/-- How a handler ends that does not return: the program exits because `mprotect` failed, or it goes wrong. -/
inductive Stop where
  | exit
  | fault (f : Fault)

/-- What a handler does: the state when it ends, its deeds, and why it does not return. -/
structure Handling where
  vm : Vm
  deeds : List Deed
  stop : Option Stop

/-- The state it returns with, if it returns. -/
def Handling.result (h : Handling) : Except Stop Vm :=
  match h.stop with
  | none => .ok h.vm
  | some e => .error e

/-- `load_page`, watched. A page outside the table is the one in front of the region. -/
def watchLoadPage (P : Pager) (mapped : Bool) (L : Layout) (s : Vm) (pageNo : Int) : Handling :=
  match makeRoom P L s with
  | .error e => { vm := s, deeds := [.loadPage pageNo], stop := some (.fault e) }
  | .ok s =>
    match entryIndex pageNo with
    | .error e =>
      if mapped then { vm := s, deeds := [.loadPage pageNo, .index pageNo], stop := some (.fault e) }
      else { vm := s, deeds := [.loadPage pageNo], stop := some .exit }
    | .ok page => { vm := P.mapPage L s page, deeds := [.loadPage pageNo, .index pageNo], stop := none }

/-- The three programs. -/
inductive Program where
  | fifo
  | secondChance (fuel : Nat)
  | dirtyTracking

namespace Program

/-- `segv_handler`. -/
def segvHandler (L : Layout) (s : Vm) (addr : Nat) : Program → Except Fault Vm
  | .fifo => Fifo.segvHandler L s addr
  | .secondChance fuel => SecondChance.segvHandler fuel L s addr
  | .dirtyTracking => DirtyTracking.segvHandler L s addr

/-- `segv_handler`, watched. -/
def watch (mapped : Bool) (L : Layout) (s : Vm) (addr : Nat) : Program → Handling
  | .fifo => watchLoadPage Fifo.pager mapped L s (pageOfAddr L addr)
  | .secondChance fuel => watchLoadPage (SecondChance.pager fuel) mapped L s (pageOfAddr L addr)
  | .dirtyTracking =>
    match entryIndex (pageOfAddr L addr) with
    | .error e => { vm := s, deeds := [.index (pageOfAddr L addr)], stop := some (.fault e) }
    | .ok page =>
      if (s.pageTable page).state = .resident ∧ (s.pageTable page).dirty = false then
        { vm := DirtyTracking.markDirty s page, deeds := [.index (pageOfAddr L addr)], stop := none }
      else
        let h := watchLoadPage DirtyTracking.pager mapped L s (pageOfAddr L addr)
        { h with deeds := .index (pageOfAddr L addr) :: h.deeds }

end Program

/-- The pager is not damaged: page table, count, clock, protections, frames and swap are as they were, `load_page` was not called,
and the table was only used inside its bounds. -/
structure Spared (s : Vm) (h : Handling) : Prop where
  pageTable : h.vm.pageTable = s.pageTable
  residentCount : h.vm.residentCount = s.residentCount
  clockTick : h.vm.clockTick = s.clockTick
  clockCircle : h.vm.clockCircle = s.clockCircle
  prot : h.vm.prot = s.prot
  mem : h.vm.mem = s.mem
  swap : h.vm.swap = s.swap
  loads : ∀ pageNo : Int, .loadPage pageNo ∉ h.deeds
  indexes : ∀ i : Int, .index i ∈ h.deeds → 0 ≤ i ∧ i < numVpages

end OsLab.Vmem
