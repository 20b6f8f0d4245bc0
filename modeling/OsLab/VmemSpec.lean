import OsLab.Lib.FifoQueue
import OsLab.Vmem
import Mathlib.Data.Fintype.Card

/-!
# What the pagers are for

To the program the region is plain memory: a read gives the byte last written to its address, and zero before the first write
(`flatRun`). What a pager does on the way is its log: the loads and evictions (`moves`), the writes to swap (`swapWrites`), and
whether a page was written since it was last loaded (`writtenSinceLoad`).
-/

namespace OsLab.Vmem

/-! ## Plain memory -/

/-- An access to plain memory: the memory after it, and the byte read. -/
def flatAccess (m : Mem) (a : Access) : Mem × Option UInt8 :=
  match a.store with
  | none => (m, some (m a.addr))
  | some value => (m.set a.addr value, none)

/-- Accesses to plain memory that is zero at first: the memory after them, and the bytes read. -/
def flatRun (as : List Access) : Mem × List (Option UInt8) :=
  as.foldl (fun r a => ((flatAccess r.1 a).1, r.2 ++ [(flatAccess r.1 a).2])) (fun _ => 0, [])

/-- One access more. -/
theorem flatRun_snoc (as : List Access) (a : Access) :
    flatRun (as ++ [a]) = ((flatAccess (flatRun as).1 a).1, (flatRun as).2 ++ [(flatAccess (flatRun as).1 a).2]) := by
  unfold flatRun
  rw [List.foldl_append]
  rfl

/-- An address of the region. -/
def Layout.Contains (L : Layout) (addr : Nat) : Prop := L.vmBase ≤ addr ∧ addr < L.vmBase + numVpages * L.pageSize

/-- Fewer than `2 ^ 64 - 1` pages have been loaded, so that every load time is below `ULONG_MAX`. -/
def FewLoads (s : Vm) : Prop := s.loads < ulongMax

/-! ## The log -/

/-- The event as a move of a page. -/
def Event.move : Event → Option (FifoQueue.Move (Fin numVpages))
  | .load page _ => some (.load page)
  | .evict page _ => some (.evict page)
  | _ => none

/-- The loads and evictions, in order. -/
def moves (log : List Event) : List (FifoQueue.Move (Fin numVpages)) := log.filterMap Event.move

/-- The page an event writes to swap. -/
def Event.swapWrite : Event → Option (Fin numVpages)
  | .evict page true => some page
  | _ => none

/-- The pages written to swap, in order. -/
def swapWrites (log : List Event) : List (Fin numVpages) := log.filterMap Event.swapWrite

/-- What an event says about writes to a page since its last load. -/
def writtenStep (page : Fin numVpages) (b : Bool) : Event → Bool
  | .load p _ => if p = page then false else b
  | .write p => if p = page then true else b
  | _ => b

/-- A write hit the page since its most recent load. -/
def writtenSinceLoad (page : Fin numVpages) (log : List Event) : Bool := log.foldl (writtenStep page) false

/-- Each eviction writes to swap exactly when the page was written since its most recent load. -/
def WritesExact (log : List Event) : Prop :=
  ∀ pre page wrote post, log = pre ++ .evict page wrote :: post → wrote = writtenSinceLoad page pre

/-- The bookkeeping is right: `resident_count` counts the resident pages and there is room for them, the resident pages are those
loaded and not evicted since, and a page was loaded only when it was not resident, and never evicted to make room for itself. -/
structure Booked (s : Vm) : Prop where
  count : s.residentCount = (Finset.univ.filter (fun p => (s.pageTable p).state = .resident)).card
  count_le : s.residentCount ≤ maxResident
  kept_iff : ∀ p, p ∈ FifoQueue.kept (moves s.log) ↔ (s.pageTable p).state = .resident
  absent : FifoQueue.LoadsAbsent (moves s.log)

/-- The event is an access to the page. -/
def Event.accesses (page : Fin numVpages) : Event → Prop
  | .read p => p = page
  | .write p => p = page
  | _ => False

/-- The page was accessed, and since its last access the clock hand has passed over it and cleared its bit. -/
def Chanced (page : Fin numVpages) (log : List Event) : Prop :=
  ∃ pre e mid post, log = pre ++ e :: mid ++ .secondChance page :: post ∧ e.accesses page ∧
    ∀ x ∈ mid ++ post, ¬ x.accesses page

end OsLab.Vmem
