import OsLab.Lib.Word
import OsLab.TaskGroup

/-!
# The quotas of task groups, `core.c`

`hierarchical_quota` of a group says whether a limit of the group, or of one above it, bounds its tasks, and what the limit is.
`tg_set_bandwidth` computes it again for all groups, by a walk that hands it down from the root with what is asked for in the place
of what the group has, and on the first hierarchy of control groups (`dfl` is false) refuses a group more than the limit above it.
The walk and what follows are under `cfs_constraints_mutex`, so a call is one act. A new group takes the value of its parent when
it is allocated, and comes into the tree later, in another act and without the mutex: `pending` has the groups between the two.
`stale` remembers that a value may be wrong: a walk has missed a pending group, or has refused halfway and leaves what it has
written.

Times of the groups are in nanoseconds, and all numbers but `hierarchical_quota` are `u64`; `RUNTIME_INF` is -1 as an `s64`.
-/

namespace OsLab.CfsQuota

open TaskGroup

/-- The groups with the `cfs_bandwidth` of each. -/
structure State (G : Type) where
  groups : Groups G
  period : G → Nat
  quota : G → Nat
  burst : G → Nat
  hierarchicalQuota : G → Int
  pending : List (G × G)
  stale : Bool

/-- `struct cfs_schedulable_data`. -/
structure CfsSchedulableData (G : Type) where
  tg : G
  period : Nat
  quota : Nat

variable {G : Type} [DecidableEq G]

/-- `tg_get_cfs_period`. -/
def tgGetCfsPeriod (s : State G) (tg : G) : Nat := s.period tg / 1000

/-- `tg_get_cfs_quota`. -/
def tgGetCfsQuota (s : State G) (tg : G) : Nat := if s.quota tg = runtimeInf then runtimeInf else s.quota tg / 1000

/-- `normalize_cfs_quota`. -/
def normalizeCfsQuota (s : State G) (d : CfsSchedulableData G) (tg : G) : Nat :=
  let period := if tg = d.tg then d.period else tgGetCfsPeriod s tg
  let quota := if tg = d.tg then d.quota else tgGetCfsQuota s tg
  if quota = runtimeInf then runtimeInf else toRatio period quota

/-- `tg_cfs_schedulable_down`. -/
def tgCfsSchedulableDown (dfl : Bool) (s : State G) (d : CfsSchedulableData G) (tg : G) (hierarchicalQuota : G → Int) :
    (G → Int) × Int :=
  match s.groups.parent tg with
  | none => (Function.update hierarchicalQuota tg (-1), 0)
  | some parent =>
    let quota := Word.toInt (normalizeCfsQuota s d tg)
    let parentQuota := hierarchicalQuota parent
    if dfl then
      -- always take the non-RUNTIME_INF min
      if quota = -1 then (Function.update hierarchicalQuota tg parentQuota, 0)
      else if parentQuota ≠ -1 then (Function.update hierarchicalQuota tg (min quota parentQuota), 0)
      else (Function.update hierarchicalQuota tg quota, 0)
    else
      -- only inherit when no limit is set
      if quota = -1 then (Function.update hierarchicalQuota tg parentQuota, 0)
      else if parentQuota ≠ -1 ∧ parentQuota < quota then (hierarchicalQuota, -22)
      else (Function.update hierarchicalQuota tg quota, 0)

/-- `__cfs_schedulable`, with what it leaves in `hierarchical_quota`. -/
def cfsSchedulable (dfl : Bool) (root : G) (fuel : Nat) (s : State G) (tg : G) (period quota : Nat) : Option ((G → Int) × Int) :=
  let d : CfsSchedulableData G := if quota ≠ runtimeInf then ⟨tg, period / 1000, quota / 1000⟩ else ⟨tg, period, quota⟩
  walkTgTreeFrom s.groups fuel root (tgCfsSchedulableDown dfl s d) tgNop s.hierarchicalQuota

/-- `tg_set_cfs_bandwidth`, up to what it does to the runtime of the group. -/
def tgSetCfsBandwidth (dfl : Bool) (root : G) (fuel : Nat) (s : State G) (tg : G) (periodUs quotaUs burstUs : Nat) :
    Option (State G × Int) :=
  let period := periodUs * 1000 % 2 ^ 64
  let quota := if quotaUs = runtimeInf then runtimeInf else quotaUs * 1000 % 2 ^ 64
  let burst := burstUs * 1000 % 2 ^ 64
  (cfsSchedulable dfl root fuel s tg period quota).map fun (hierarchicalQuota, ret) =>
    if ret ≠ 0 then ({ s with hierarchicalQuota := hierarchicalQuota, stale := true }, ret)
    else
      ({ s with
          period := Function.update s.period tg period
          quota := Function.update s.quota tg quota
          burst := Function.update s.burst tg burst
          hierarchicalQuota := hierarchicalQuota
          stale := decide (s.pending ≠ []) }, 0)

/-- `max_bw_runtime_us`. -/
def maxBwRuntimeUs : Nat := 2 ^ 44 - 1

/-- `tg_set_bandwidth`. -/
def tgSetBandwidth (dfl : Bool) (root : G) (fuel : Nat) (s : State G) (tg : G) (periodUs quotaUs burstUs : Nat) :
    Option (State G × Int) :=
  let maxUsec := (2 ^ 64 - 1) / 1000
  if tg = root then some (s, -22)
  -- values should survive translation to nsec
  else if maxUsec < periodUs ∨ (quotaUs ≠ runtimeInf ∧ maxUsec < quotaUs) ∨ maxUsec < burstUs then some (s, -22)
  -- ensure we have some amount of bandwidth every period
  else if quotaUs < 1000 ∨ periodUs < 1000 then some (s, -22)
  -- likewise, bound things on the other side by preventing insane quota periods
  else if 1000000 < periodUs then some (s, -22)
  -- bound quota to defend quota against overflow during bandwidth shift
  else if quotaUs ≠ runtimeInf ∧ maxBwRuntimeUs < quotaUs then some (s, -22)
  else if quotaUs ≠ runtimeInf ∧ (quotaUs < burstUs ∨ maxBwRuntimeUs < burstUs + quotaUs) then some (s, -22)
  else tgSetCfsBandwidth dfl root fuel s tg periodUs quotaUs burstUs

/-- A group is allocated below another, as `init_cfs_bandwidth` leaves it, with a period of 100 ms. -/
def alloc (s : State G) (tg parent : G) : State G :=
  { s with
    period := Function.update s.period tg 100000000
    quota := Function.update s.quota tg runtimeInf
    burst := Function.update s.burst tg 0
    hierarchicalQuota := Function.update s.hierarchicalQuota tg (s.hierarchicalQuota parent)
    pending := (tg, parent) :: s.pending }

/-- What can happen. -/
inductive Act (G : Type) where
  | set (tg : G) (periodUs quotaUs burstUs : Nat)
  | alloc (tg parent : G)
  | online (tg parent : G)
  | release (tg : G)

/-- The state after an act that can happen. A group is released when nothing is below it. -/
def next (dfl : Bool) (root : G) (fuel : Nat) (s : State G) : Act G → Option (State G)
  | .set tg periodUs quotaUs burstUs =>
    if tg ∈ s.groups.taskGroups then (tgSetBandwidth dfl root fuel s tg periodUs quotaUs burstUs).map (·.1) else none
  | .alloc tg parent =>
    if tg ∉ s.groups.taskGroups ∧ (∀ p ∈ s.pending, p.1 ≠ tg) ∧ parent ∈ s.groups.taskGroups then some (alloc s tg parent) else none
  | .online tg parent =>
    if (tg, parent) ∈ s.pending then
      some { s with groups := schedOnlineGroup s.groups tg parent, pending := s.pending.erase (tg, parent) }
    else none
  | .release tg =>
    if tg ∈ s.groups.taskGroups ∧ tg ≠ root ∧ s.groups.children tg = [] ∧ ∀ p ∈ s.pending, p.2 ≠ tg then
      some { s with groups := schedReleaseGroup s.groups tg }
    else none

/-- One act after another. -/
def run (dfl : Bool) (root : G) (fuel : Nat) (s : State G) : List (Act G) → Option (State G)
  | [] => some s
  | a :: as => (next dfl root fuel s a).bind fun s => run dfl root fuel s as

/-- The root alone, without a limit. -/
def start (root : G) : State G where
  groups := rootOnly root
  period _ := 100000000
  quota _ := runtimeInf
  burst _ := 0
  hierarchicalQuota _ := -1
  pending := []
  stale := false

end OsLab.CfsQuota
