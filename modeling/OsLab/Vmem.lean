import OsLab.Lib.Bytes
import OsLab.Lib.Exec
import OsLab.Lib.Word
import Mathlib.Data.List.FinRange
import Mathlib.Logic.Function.Basic

/-!
# The pagers of `os_lab5/exp5`

Three programs keep a region of 8 virtual pages of which at most 4 are resident: `mini_vmem_fifo.c`,
`mini_vmem_second_chance.c` and `mini_vmem_dirty_tracking.c`. They share the functions before the section of each program; where
they differ each has its own. An access to a page whose protection forbids it raises `SIGSEGV`; the handler changes the
protection, after loading the page if need be, and the access is tried again.

`mmap`, `mprotect`, `lseek` and the transfers to and from the swap file succeed, and a transfer is whole; `OsLab.SwapFile` has
the loops over partial ones. The exits of the programs for their failures are left out, as are the messages; `log` records what
the pager does instead, and the accesses that go through. What the C code does with an index outside `page_table` is undefined and
a `Fault` here.
-/

namespace OsLab.Vmem

/-- `NUM_VPAGES`. -/
def numVpages : Nat := 8

/-- There is a page. -/
theorem numVpages_pos : 0 < numVpages := by decide

/-- `MAX_RESIDENT`. -/
def maxResident : Nat := 4

/-- `ULONG_MAX`. -/
def ulongMax : Nat := 2 ^ 64 - 1

/-- `page_state_t`. -/
inductive PageState where
  | empty | resident | swapped
  deriving DecidableEq

/-- `page_entry_t`. Only the second-chance program has `referenced`, and only the dirty-tracking program has `in_swap`; in the
others they stay as they are. -/
structure PageEntry where
  state : PageState
  dirty : Bool
  referenced : Bool
  inSwap : Bool
  loadTime : Nat

/-- The protection of a page: `PROT_NONE`, `PROT_READ`, `PROT_READ | PROT_WRITE`. -/
inductive Prot where
  | none | read | readWrite
  deriving DecidableEq

/-- What happens to a page: it is loaded, from swap or as zeros; evicted, with or without a write to swap; marked dirty at its
first write; passed over by the clock hand; read; written. -/
inductive Event where
  | load (page : Fin numVpages) (fromSwap : Bool)
  | evict (page : Fin numVpages) (wrote : Bool)
  | dirty (page : Fin numVpages)
  | secondChance (page : Fin numVpages)
  | read (page : Fin numVpages)
  | write (page : Fin numVpages)
  deriving DecidableEq

/-- The event is a load. -/
def Event.isLoad : Event → Bool
  | .load _ _ => true
  | _ => false

/-- How a program can go wrong: an index outside the page table, no page to evict, a scan that does not end within its fuel, an
access still forbidden after the handler calls it was given. -/
inductive Fault where
  | tableIndex (i : Int)
  | noVictim
  | scanning
  | forbidden

/-- Where the region is, and its page size. -/
structure Layout where
  vmBase : Nat
  pageSize : Nat
  pageSize_pos : 0 < pageSize

/-- The variables of a program, the protections of its pages, the bytes of the region and of the swap file. -/
structure Vm where
  pageTable : Fin numVpages → PageEntry
  residentCount : Int
  clockTick : Nat
  clockCircle : Fin numVpages
  prot : Fin numVpages → Prot
  mem : Mem
  swap : Mem
  log : List Event

/-- The state `init_vmem` leaves. -/
def initVmem : Vm where
  pageTable := fun _ => { state := .empty, dirty := false, referenced := false, inSwap := false, loadTime := 0 }
  residentCount := 0
  clockTick := 0
  clockCircle := ⟨0, by decide⟩
  prot := fun _ => .none
  mem := fun _ => 0
  swap := fun _ => 0
  log := []

/-! ## Shared functions -/

/-- `page_start`. -/
def pageStart (L : Layout) (page : Fin numVpages) : Nat := L.vmBase + page * L.pageSize

/-- `page_of_addr`. -/
def pageOfAddr (L : Layout) (addr : Nat) : Int :=
  if addr < L.vmBase ∨ addr ≥ L.vmBase + numVpages * L.pageSize then -1 else ((addr - L.vmBase) / L.pageSize : Nat)

/-- An `int` used as an index of `page_table`. -/
def entryIndex (i : Int) : Except Fault (Fin numVpages) :=
  if h : 0 ≤ i ∧ i < numVpages then .ok ⟨i.toNat, by omega⟩ else .error (.tableIndex i)

namespace Vm

/-- `mprotect` of one page. -/
def mprotect (s : Vm) (page : Fin numVpages) (prot : Prot) : Vm := { s with prot := Function.update s.prot page prot }

/-- An entry of the page table is written. -/
def setEntry (s : Vm) (page : Fin numVpages) (entry : PageEntry) : Vm :=
  { s with pageTable := Function.update s.pageTable page entry }

/-- `lseek` to the page's offset and `full_write` of the page. -/
def swapOut (L : Layout) (s : Vm) (page : Fin numVpages) : Vm :=
  { s with swap := s.swap.copy (page * L.pageSize) s.mem (pageStart L page) L.pageSize }

/-- `lseek` to the page's offset and `full_read` into the page. -/
def swapIn (L : Layout) (s : Vm) (page : Fin numVpages) : Vm :=
  { s with mem := s.mem.copy (pageStart L page) s.swap (page * L.pageSize) L.pageSize }

/-- `memset(addr, 0, page_size)`. -/
def zeroPage (L : Layout) (s : Vm) (page : Fin numVpages) : Vm :=
  { s with mem := s.mem.fill (pageStart L page) L.pageSize 0 }

/-- The page is written to swap if it is dirty. -/
def saveIf (L : Layout) (s : Vm) (page : Fin numVpages) (dirty : Bool) : Vm := if dirty then s.swapOut L page else s

/-- The page is read from swap, or cleared. -/
def fetch (L : Layout) (s : Vm) (page : Fin numVpages) (fromSwap : Bool) : Vm :=
  if fromSwap then s.swapIn L page else s.zeroPage L page

/-- The pages loaded so far. -/
def loads (s : Vm) : Nat := s.log.countP Event.isLoad

end Vm

/-- The parts of `load_page` in which the programs differ: how a victim is chosen, how it is evicted, and how the page is mapped
once there is room. -/
structure Pager where
  chooseVictim : Vm → Except Fault (Vm × Fin numVpages)
  evictPage : Layout → Vm → Fin numVpages → Vm
  mapPage : Layout → Vm → Fin numVpages → Vm

/-- The first part of `load_page`: a page is evicted when `MAX_RESIDENT` pages are resident. -/
def makeRoom (P : Pager) (L : Layout) (s : Vm) : Except Fault Vm :=
  if s.residentCount ≥ maxResident then
    match P.chooseVictim s with
    | .error e => .error e
    | .ok (s, victim) => .ok (P.evictPage L s victim)
  else .ok s

/-- `load_page`. -/
def loadPage (P : Pager) (L : Layout) (s : Vm) (pageNo : Int) : Except Fault Vm :=
  match makeRoom P L s with
  | .error e => .error e
  | .ok s =>
    match entryIndex pageNo with
    | .error e => .error e
    | .ok page => .ok (P.mapPage L s page)

/-- `choose_victim_fifo`: the resident page with the smallest load time, `none` for `-1`. -/
def chooseVictimFifo {n : Nat} (pageTable : Fin n → PageEntry) : Option (Fin n) :=
  ((List.finRange n).foldl (fun (acc : Option (Fin n) × Nat) i =>
    if (pageTable i).state = .resident ∧ (pageTable i).loadTime < acc.2 then (some i, (pageTable i).loadTime) else acc)
    (none, ulongMax)).1

/-! ## Accesses -/

/-- An access to a byte: a read, or a write of the value to store. -/
structure Access where
  addr : Nat
  store : Option UInt8

/-- The protection allows the access. -/
def Prot.allows : Prot → Option UInt8 → Bool
  | .none, _ => false
  | .read, store => store.isNone
  | .readWrite, _ => true

/-- The access goes through: the state after it, and the byte read. -/
def perform (s : Vm) (a : Access) (page : Fin numVpages) : Vm × Option UInt8 :=
  match a.store with
  | none => ({ s with log := s.log ++ [.read page] }, some (s.mem a.addr))
  | some value => ({ s with mem := s.mem.set a.addr value, log := s.log ++ [.write page] }, none)

/-- The access is tried. -/
def attempt (L : Layout) (s : Vm) (a : Access) : Option (Vm × Option UInt8) :=
  match entryIndex (pageOfAddr L a.addr) with
  | .error _ => none
  | .ok page => if (s.prot page).allows a.store then some (perform s a page) else none

/-- The access is tried and, while it is forbidden, the handler is run and it is tried again, with at most so many runs of the
handler. -/
def accessWithin (handler : Vm → Nat → Except Fault Vm) (L : Layout) : Nat → Vm → Access → Except Fault (Vm × Option UInt8)
  | 0, s, a =>
    match attempt L s a with
    | some r => .ok r
    | none => .error .forbidden
  | limit + 1, s, a =>
    match attempt L s a with
    | some r => .ok r
    | none =>
      match handler s a.addr with
      | .error e => .error e
      | .ok s => accessWithin handler L limit s a

/-! ## `mini_vmem_fifo.c` -/

namespace Fifo

/-- `choose_victim_fifo`, and the exit of `load_page` when it finds none. -/
def chooseVictim (s : Vm) : Except Fault (Vm × Fin numVpages) :=
  match chooseVictimFifo s.pageTable with
  | none => .error .noVictim
  | some victim => .ok (s, victim)

/-- `evict_page`. -/
def evictPage (L : Layout) (s : Vm) (victim : Fin numVpages) : Vm :=
  let dirty := (s.pageTable victim).dirty
  let s := s.saveIf L victim dirty
  let s := s.mprotect victim .none
  let s := s.setEntry victim { s.pageTable victim with state := .swapped, dirty := false, loadTime := 0 }
  { s with residentCount := s.residentCount - 1, log := s.log ++ [.evict victim dirty] }

/-- The second part of `load_page`. -/
def mapPage (L : Layout) (s : Vm) (page : Fin numVpages) : Vm :=
  let fromSwap := decide ((s.pageTable page).state = .swapped)
  let s := s.mprotect page .readWrite
  let s := s.fetch L page fromSwap
  let tick := Word.add s.clockTick 1
  let s := s.setEntry page { s.pageTable page with state := .resident, dirty := true, loadTime := tick }
  { s with clockTick := tick, residentCount := s.residentCount + 1, log := s.log ++ [.load page fromSwap] }

def pager : Pager := { chooseVictim := chooseVictim, evictPage := evictPage, mapPage := mapPage }

/-- `segv_handler`. On an address outside the region `raise` returns, since the signal is blocked, and `load_page(-1)` follows. -/
def segvHandler (L : Layout) (s : Vm) (addr : Nat) : Except Fault Vm := loadPage pager L s (pageOfAddr L addr)

/-- An access of the program. -/
def access (L : Layout) (limit : Nat) (s : Vm) (a : Access) : Except Fault (Vm × Option UInt8) :=
  accessWithin (segvHandler L) L limit s a

end Fifo

/-! ## `mini_vmem_second_chance.c` -/

namespace SecondChance

/-- Where a scan ends: the victim, the page table with the bits it cleared, the hand, and the pages it cleared, in order. -/
structure Scan (n : Nat) where
  victim : Fin n
  pageTable : Fin n → PageEntry
  hand : Fin n
  skipped : List (Fin n)

/-- `(clock_circle + 1) % NUM_VPAGES`. -/
def nextHand {n : Nat} (hand : Fin n) : Fin n := ⟨(hand + 1) % n, Nat.mod_lt _ (Nat.zero_lt_of_lt hand.isLt)⟩

/-- The loop of `choose_victim_second_chance`, for at most `fuel` iterations. -/
def scan {n : Nat} : Nat → (Fin n → PageEntry) → Fin n → Option (Scan n)
  | 0, _, _ => none
  | fuel + 1, pageTable, hand =>
    if (pageTable hand).state = .resident then
      if (pageTable hand).referenced then
        (scan fuel (Function.update pageTable hand { pageTable hand with referenced := false }) (nextHand hand)).map
          (fun r => { r with skipped := hand :: r.skipped })
      else some { victim := hand, pageTable := pageTable, hand := nextHand hand, skipped := [] }
    else scan fuel pageTable (nextHand hand)

/-- `choose_victim_second_chance`. -/
def chooseVictim (fuel : Nat) (s : Vm) : Except Fault (Vm × Fin numVpages) :=
  match scan fuel s.pageTable s.clockCircle with
  | none => .error .scanning
  | some r =>
    .ok ({ s with pageTable := r.pageTable, clockCircle := r.hand, log := s.log ++ r.skipped.map .secondChance }, r.victim)

/-- `evict_page`. -/
def evictPage (L : Layout) (s : Vm) (victim : Fin numVpages) : Vm :=
  let dirty := (s.pageTable victim).dirty
  let s := s.saveIf L victim dirty
  let s := s.mprotect victim .none
  let s := s.setEntry victim { s.pageTable victim with state := .swapped, dirty := false, referenced := false, loadTime := 0 }
  { s with residentCount := s.residentCount - 1, log := s.log ++ [.evict victim dirty] }

/-- The second part of `load_page`. -/
def mapPage (L : Layout) (s : Vm) (page : Fin numVpages) : Vm :=
  let fromSwap := decide ((s.pageTable page).state = .swapped)
  let s := s.mprotect page .readWrite
  let s := s.fetch L page fromSwap
  let tick := Word.add s.clockTick 1
  let s := s.setEntry page
    { s.pageTable page with state := .resident, dirty := true, referenced := false, loadTime := tick }
  { s with clockTick := tick, residentCount := s.residentCount + 1, log := s.log ++ [.load page fromSwap] }

def pager (fuel : Nat) : Pager := { chooseVictim := chooseVictim fuel, evictPage := evictPage, mapPage := mapPage }

/-- `segv_handler`. -/
def segvHandler (fuel : Nat) (L : Layout) (s : Vm) (addr : Nat) : Except Fault Vm :=
  loadPage (pager fuel) L s (pageOfAddr L addr)

/-- An access by page and offset: a read, or a write of the value to store. -/
structure PageAccess where
  page : Nat
  offset : Nat
  store : Option UInt8

/-- The access to the byte. -/
def PageAccess.byte (L : Layout) (a : PageAccess) : Access :=
  { addr := L.vmBase + (a.page * L.pageSize + a.offset), store := a.store }

/-- `vmem_read` and `vmem_write`: the access to the byte, and then the bits of the page's entry. -/
def access (fuel : Nat) (L : Layout) (limit : Nat) (s : Vm) (a : PageAccess) : Except Fault (Vm × Option UInt8) :=
  match accessWithin (segvHandler fuel L) L limit s (a.byte L) with
  | .error e => .error e
  | .ok (s, value) =>
    match entryIndex a.page with
    | .error e => .error e
    | .ok page =>
      match a.store with
      | none => .ok (s.setEntry page { s.pageTable page with referenced := true }, value)
      | some _ => .ok (s.setEntry page { s.pageTable page with referenced := true, dirty := true }, value)

end SecondChance

/-! ## `mini_vmem_dirty_tracking.c` -/

namespace DirtyTracking

/-- `evict_page`: a clean page is dropped without a write. -/
def evictPage (L : Layout) (s : Vm) (victim : Fin numVpages) : Vm :=
  let dirty := (s.pageTable victim).dirty
  let s := s.saveIf L victim dirty
  let inSwap := if dirty then true else (s.pageTable victim).inSwap
  let s := s.mprotect victim .none
  let state := if inSwap then PageState.swapped else PageState.empty
  let s := s.setEntry victim { s.pageTable victim with inSwap := inSwap, state := state, dirty := false, loadTime := 0 }
  { s with residentCount := s.residentCount - 1, log := s.log ++ [.evict victim dirty] }

/-- The second part of `load_page`: the page is mapped read-only. -/
def mapPage (L : Layout) (s : Vm) (page : Fin numVpages) : Vm :=
  let fromSwap := decide ((s.pageTable page).state = .swapped) && (s.pageTable page).inSwap
  let s := s.mprotect page .readWrite
  let s := s.fetch L page fromSwap
  let tick := Word.add s.clockTick 1
  let s := s.setEntry page { s.pageTable page with state := .resident, dirty := false, loadTime := tick }
  let s : Vm := { s with clockTick := tick, residentCount := s.residentCount + 1, log := s.log ++ [.load page fromSwap] }
  s.mprotect page .read

def pager : Pager := { chooseVictim := Fifo.chooseVictim, evictPage := evictPage, mapPage := mapPage }

/-- The branch of `segv_handler` for the first write to a clean page. -/
def markDirty (s : Vm) (page : Fin numVpages) : Vm :=
  let s := s.mprotect page .readWrite
  let s := s.setEntry page { s.pageTable page with dirty := true }
  { s with log := s.log ++ [.dirty page] }

/-- `segv_handler`. -/
def segvHandler (L : Layout) (s : Vm) (addr : Nat) : Except Fault Vm :=
  match entryIndex (pageOfAddr L addr) with
  | .error e => .error e
  | .ok page =>
    if (s.pageTable page).state = .resident ∧ (s.pageTable page).dirty = false then .ok (markDirty s page)
    else loadPage pager L s (pageOfAddr L addr)

/-- An access of the program. -/
def access (L : Layout) (limit : Nat) (s : Vm) (a : Access) : Except Fault (Vm × Option UInt8) :=
  accessWithin (segvHandler L) L limit s a

end DirtyTracking

end OsLab.Vmem
