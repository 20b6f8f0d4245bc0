import OsLab.TaskGroup

/-!
# The bandwidth of real-time groups, `rt.c`

Every task group has a runtime in a period, and `sched_rt_runtime_us` in `sched_rt_period_us` bound them all. `tg_set_rt_bandwidth`
goes over the tree with what it is asked for in the place of what the group has, and takes it if no group refuses; it holds
`rt_constraints_mutex` all the while, so it is one act. `sched_rt_handler` writes the global values first and asks later: the
write, the look at the groups under `rt_constraints_mutex`, and the look at the deadline tasks are three acts, and the last two go
back to the old values if they fail. What the deadline tasks say is left open. A task comes into a group in two acts,
`cpu_cgroup_can_attach` and `cpu_cgroup_attach`, and neither holds `rt_constraints_mutex`. A task also becomes real-time in a
group, or comes to it as a real-time one, without anybody looking at the runtime: `rt_mutex_setprio` boosts it, or it was not
real-time yet in `cpu_cgroup_can_attach`. That may be while `tg_set_rt_bandwidth` is at work, and counts as after it then. `raced`
remembers whether a group has been given another bandwidth between the acts of the handler, `crossed` whether a group has lost its
runtime between the two of an attachment, `unasked` whether a group without runtime has got a real-time task in the other way,
`everDisabled` whether the global runtime has been -1.

Times of the groups are in nanoseconds and are `u64`, those of the global values in microseconds and are `int`. With
`CONFIG_RT_GROUP_SCHED` and `rt_group_sched_enabled()`; `MAX_BW` and the functions for the global values are those of `sched.h`.
-/

namespace OsLab.RtAdmission

open TaskGroup

/-- `max_rt_runtime`. -/
def maxRtRuntime : Nat := 2 ^ 44 - 1

/-- How far `sched_rt_handler` is with a write, and the values it goes back to. -/
inductive Handler where
  | idle
  | written (oldPeriod : Nat) (oldRuntime : Int)
  | validated (oldPeriod : Nat) (oldRuntime : Int)

/-- The groups with the `rt_bandwidth` of each, whether `tg_has_rt_tasks`, whether a real-time task may be attached any time, and
the global values. -/
structure State (G : Type) where
  groups : Groups G
  rtPeriod : G → Nat
  rtRuntime : G → Nat
  rtTasks : G → Bool
  attaching : G → Bool
  sysctlPeriod : Nat
  sysctlRuntime : Int
  handler : Handler
  raced : Bool
  crossed : Bool
  unasked : Bool
  everDisabled : Bool

/-- `struct rt_schedulable_data`. -/
structure RtSchedulableData (G : Type) where
  tg : Option G
  rtPeriod : Nat
  rtRuntime : Nat

variable {G : Type} [DecidableEq G]

/-- `global_rt_period`. -/
def globalRtPeriod (sysctlPeriod : Nat) : Nat := sysctlPeriod * 1000

/-- `global_rt_runtime`. -/
def globalRtRuntime (sysctlRuntime : Int) : Nat := if sysctlRuntime < 0 then runtimeInf else sysctlRuntime.toNat * 1000

/-- The share that the global values allow. -/
def globalRatio (sysctlPeriod : Nat) (sysctlRuntime : Int) : Nat :=
  toRatio (globalRtPeriod sysctlPeriod) (globalRtRuntime sysctlRuntime)

/-- The period of a group, or the one asked for. -/
def State.period (s : State G) (d : RtSchedulableData G) (tg : G) : Nat := if d.tg = some tg then d.rtPeriod else s.rtPeriod tg

/-- The runtime of a group, or the one asked for. -/
def State.runtime (s : State G) (d : RtSchedulableData G) (tg : G) : Nat := if d.tg = some tg then d.rtRuntime else s.rtRuntime tg

/-- What `tg_rt_schedulable` returns. -/
def tgRtSchedulable (s : State G) (d : RtSchedulableData G) (tg : G) : Int :=
  let period := s.period d tg
  let runtime := s.runtime d tg
  -- cannot have more runtime than the period
  if period < runtime ∧ runtime ≠ runtimeInf then -22
  -- ensure we don't starve existing RT tasks if runtime turns zero
  else if 0 ≤ s.sysctlRuntime ∧ runtime = 0 ∧ s.rtRuntime tg ≠ 0 ∧ s.rtTasks tg then -16
  else
    let total := toRatio period runtime
    -- nobody can have more than the global setting allows
    if globalRatio s.sysctlPeriod s.sysctlRuntime < total then -22
    -- the sum of our children's runtime should not exceed our own
    else if total < (s.groups.children tg).foldl
          (fun sum child => (sum + toRatio (s.period d child) (s.runtime d child)) % 2 ^ 64) 0 then
      -22
    else 0

/-- `__rt_schedulable`. -/
def rtSchedulable (root : G) (fuel : Nat) (s : State G) (d : RtSchedulableData G) : Option Int :=
  (walkTgTreeFrom s.groups fuel root (fun tg data => (data, tgRtSchedulable s d tg)) tgNop ()).map (·.2)

/-- The bandwidth of a group replaced, as `tg_set_rt_bandwidth` does it. -/
def State.grant (s : State G) (tg : G) (rtPeriod rtRuntime : Nat) : State G :=
  { s with
    rtPeriod := Function.update s.rtPeriod tg rtPeriod
    rtRuntime := Function.update s.rtRuntime tg rtRuntime
    raced := s.raced || match s.handler with | .idle => false | _ => true
    crossed := s.crossed || s.attaching tg && decide (rtRuntime = 0) }

/-- `tg_set_rt_bandwidth`. -/
def tgSetRtBandwidth (root : G) (fuel : Nat) (s : State G) (tg : G) (rtPeriod rtRuntime : Nat) : Option (State G × Int) :=
  -- disallowing the root group RT runtime is BAD
  if tg = root ∧ rtRuntime = 0 then some (s, -22)
  -- no period doesn't make any sense
  else if rtPeriod = 0 then some (s, -22)
  -- bound quota to defend quota against overflow during bandwidth shift
  else if rtRuntime ≠ runtimeInf ∧ maxRtRuntime < rtRuntime then some (s, -22)
  else
    (rtSchedulable root fuel s ⟨some tg, rtPeriod, rtRuntime⟩).map fun err =>
      if err ≠ 0 then (s, err) else (s.grant tg rtPeriod rtRuntime, 0)

/-- `sched_group_set_rt_runtime`. The period is what `tg` had when this was called, before the mutex is taken. -/
def schedGroupSetRtRuntime (root : G) (fuel : Nat) (s : State G) (tg : G) (rtPeriod : Nat) (rtRuntimeUs : Int) :
    Option (State G × Int) :=
  if rtRuntimeUs < 0 then tgSetRtBandwidth root fuel s tg rtPeriod runtimeInf
  else if (2 ^ 64 - 1) / 1000 < rtRuntimeUs.toNat then some (s, -22)
  else tgSetRtBandwidth root fuel s tg rtPeriod (rtRuntimeUs.toNat * 1000)

/-- `sched_group_set_rt_period`. The runtime is what `tg` had when this was called, before the mutex is taken. -/
def schedGroupSetRtPeriod (root : G) (fuel : Nat) (s : State G) (tg : G) (rtRuntime rtPeriodUs : Nat) : Option (State G × Int) :=
  if (2 ^ 64 - 1) / 1000 < rtPeriodUs then some (s, -22) else tgSetRtBandwidth root fuel s tg (rtPeriodUs * 1000) rtRuntime

/-- `sched_rt_can_attach` for a real-time task. -/
def schedRtCanAttach (s : State G) (tg : G) : Bool := decide (s.rtRuntime tg ≠ 0)

/-- `proc_dointvec_minmax` for `sched_rt_period_us`. -/
def writePeriod (s : State G) (v : Int) : State G :=
  if v < 1 ∨ 2 ^ 31 - 1 < v then s
  else { s with sysctlPeriod := v.toNat, handler := .written s.sysctlPeriod s.sysctlRuntime }

/-- `proc_dointvec_minmax` for `sched_rt_runtime_us`. -/
def writeRuntime (s : State G) (v : Int) : State G :=
  if v < -1 ∨ (s.sysctlPeriod : Int) < v then s
  else
    { s with
      sysctlRuntime := v, handler := .written s.sysctlPeriod s.sysctlRuntime, everDisabled := s.everDisabled || decide (v < 0) }

/-- `sched_rt_global_validate`. -/
def schedRtGlobalValidate (root : G) (fuel : Nat) (s : State G) : Option Int :=
  if s.sysctlRuntime ≠ -1 ∧ ((s.sysctlPeriod : Int) < s.sysctlRuntime ∨ maxRtRuntime < s.sysctlRuntime.toNat * 1000) then some (-22)
  else rtSchedulable root fuel s ⟨none, 0, 0⟩

/-- The label `undo` of `sched_rt_handler`. -/
def undo (s : State G) (oldPeriod : Nat) (oldRuntime : Int) : State G :=
  { s with sysctlPeriod := oldPeriod, sysctlRuntime := oldRuntime, handler := .idle }

/-- A group is created below another, as `alloc_rt_sched_group` leaves its `rt_bandwidth`, and is shown. -/
def create (s : State G) (tg parent : G) : State G :=
  { s with
    groups := schedOnlineGroup s.groups tg parent
    rtPeriod := Function.update s.rtPeriod tg (globalRtPeriod s.sysctlPeriod)
    rtRuntime := Function.update s.rtRuntime tg 0
    rtTasks := Function.update s.rtTasks tg false
    attaching := Function.update s.attaching tg false }

/-- `cpu_cgroup_can_attach` for a real-time task. -/
def canAttach (s : State G) (tg : G) : State G :=
  if schedRtCanAttach s tg then { s with attaching := Function.update s.attaching tg true } else s

/-- `cpu_cgroup_attach` for a real-time task; without it the attempt is given up. -/
def attach (s : State G) (tg : G) (done : Bool) : State G :=
  { s with attaching := Function.update s.attaching tg false, rtTasks := Function.update s.rtTasks tg (s.rtTasks tg || done) }

/-- A task of the group has a real-time priority that nobody has asked the group for: from `rt_mutex_setprio`, or since after
`cpu_cgroup_can_attach`. -/
def turnRt (s : State G) (tg : G) : State G :=
  { s with rtTasks := Function.update s.rtTasks tg true, unasked := s.unasked || decide (s.rtRuntime tg = 0) }

/-- What can happen. -/
inductive Act (G : Type) where
  | setRuntime (tg : G) (rtPeriod : Nat) (rtRuntimeUs : Int)
  | setPeriod (tg : G) (rtRuntime rtPeriodUs : Nat)
  | writePeriod (v : Int)
  | writeRuntime (v : Int)
  | validate
  | dlValidate (ok : Bool)
  | canAttach (tg : G)
  | attach (tg : G) (done : Bool)
  | turnRt (tg : G)
  | detach (tg : G)
  | create (tg parent : G)
  | release (tg : G)

/-- The state after an act that can happen. `detach` is of the last real-time task of a group: it leaves, or is not real-time any
more. A group is released when nothing is below it. -/
def next (root : G) (fuel : Nat) (s : State G) : Act G → Option (State G)
  | .setRuntime tg rtPeriod rtRuntimeUs =>
    if tg ∈ s.groups.taskGroups then (schedGroupSetRtRuntime root fuel s tg rtPeriod rtRuntimeUs).map (·.1) else none
  | .setPeriod tg rtRuntime rtPeriodUs =>
    if tg ∈ s.groups.taskGroups then (schedGroupSetRtPeriod root fuel s tg rtRuntime rtPeriodUs).map (·.1) else none
  | .writePeriod v =>
    match s.handler with
    | .idle => some (writePeriod s v)
    | _ => none
  | .writeRuntime v =>
    match s.handler with
    | .idle => some (writeRuntime s v)
    | _ => none
  | .validate =>
    match s.handler with
    | .written oldPeriod oldRuntime =>
      (schedRtGlobalValidate root fuel s).map fun ret =>
        if ret ≠ 0 then undo s oldPeriod oldRuntime else { s with handler := .validated oldPeriod oldRuntime }
    | _ => none
  | .dlValidate ok =>
    match s.handler with
    | .validated oldPeriod oldRuntime => some (if ok then { s with handler := .idle } else undo s oldPeriod oldRuntime)
    | _ => none
  | .canAttach tg => if tg ∈ s.groups.taskGroups then some (canAttach s tg) else none
  | .attach tg done => if s.attaching tg then some (attach s tg done) else none
  | .turnRt tg => if tg ∈ s.groups.taskGroups then some (turnRt s tg) else none
  | .detach tg => some { s with rtTasks := Function.update s.rtTasks tg false }
  | .create tg parent => if tg ∉ s.groups.taskGroups ∧ parent ∈ s.groups.taskGroups then some (create s tg parent) else none
  | .release tg =>
    if tg ∈ s.groups.taskGroups ∧ tg ≠ root ∧ s.groups.children tg = [] then
      some { s with groups := schedReleaseGroup s.groups tg }
    else none

/-- One act after another. -/
def run (root : G) (fuel : Nat) (s : State G) : List (Act G) → Option (State G)
  | [] => some s
  | a :: as => (next root fuel s a).bind fun s => run root fuel s as

/-- As `sched_init` leaves it: the root has the global values. -/
def start (root : G) : State G where
  groups := rootOnly root
  rtPeriod _ := globalRtPeriod 1000000
  rtRuntime _ := globalRtRuntime 950000
  rtTasks _ := false
  attaching _ := false
  sysctlPeriod := 1000000
  sysctlRuntime := 950000
  handler := .idle
  raced := false
  crossed := false
  unasked := false
  everDisabled := false

end OsLab.RtAdmission
