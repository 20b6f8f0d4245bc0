import Mathlib.Algebra.Group.Nat.Defs
import Mathlib.Data.Fintype.Basic
import Mathlib.Data.List.Basic
import Mathlib.Logic.Function.Basic

/-!
# Bandwidth control of `fair.c`

One task group: its `cfs_bandwidth`, a pool that is refilled every period, and its `cfs_rq` on every CPU, which draws on the pool
and is throttled when there is nothing left. A function holds the lock of a run queue from its beginning to its end, and that of
the pool for a part of it; an act is one such section. `distribute_cfs_runtime` takes the lock of one run queue after the other, so
each round of its loops is an act of its own, and other CPUs may act in between.

Times are nanoseconds, without overflow: where the code takes a difference as unsigned, it has seen to it that it is positive.
`warned` remembers whether a `WARN_ON_ONCE` has fired. `cfs_bandwidth_used` is true, as it is without jump labels. Left out are the
statistics, all clocks but `throttled_clock`, the request to reschedule, and the walks over the groups below a throttled one
(`tg_throttle_down`, `tg_unthrottle_up`) with the three `WARN_ON_ONCE` they make.
-/

namespace OsLab.Bandwidth

/-- `RUNTIME_INF`. -/
def runtimeInf : Nat := 2 ^ 64 - 1

/-- `min_cfs_rq_runtime`. -/
def minCfsRqRuntime : Int := 1000000

/-- Where the `throttled_csd_list` node of a `cfs_rq` is: nowhere, on the list of its run queue, or on the list of a distribution
that runs on its CPU. -/
inductive Csd where
  | none
  | queued
  | onStack
deriving DecidableEq, Repr

/-- `struct cfs_bandwidth`. -/
structure CfsBandwidth (n : Nat) where
  quota : Nat
  burst : Nat
  runtime : Nat
  idle : Bool
  periodActive : Bool
  slackStarted : Bool
  throttledCfsRq : List (Fin n)

/-- The part of `struct cfs_rq` bandwidth control is about. -/
structure CfsRq where
  runtimeEnabled : Bool
  runtimeRemaining : Int
  throttled : Bool
  throttledClock : Nat
  csd : Csd

/-- The group; `localUnthrottle` are the local lists of the distributions, by the CPU they run on. -/
structure TaskGroup (n : Nat) where
  b : CfsBandwidth n
  rq : Fin n → CfsRq
  localUnthrottle : Fin n → List (Fin n)
  warned : Bool

variable {n : Nat}

namespace TaskGroup

/-- The `cfs_rq` of a CPU changed. -/
def set (s : TaskGroup n) (cpu : Fin n) (f : CfsRq → CfsRq) : TaskGroup n :=
  { s with rq := Function.update s.rq cpu (f (s.rq cpu)) }

/-- The pool changed. -/
def setB (s : TaskGroup n) (f : CfsBandwidth n → CfsBandwidth n) : TaskGroup n := { s with b := f s.b }

/-- `WARN_ON_ONCE`. -/
def warn (s : TaskGroup n) (condition : Bool) : TaskGroup n := { s with warned := s.warned || condition }

end TaskGroup

/-- `__refill_cfs_bandwidth_runtime`. -/
def refill (b : CfsBandwidth n) : CfsBandwidth n :=
  if b.quota = runtimeInf then b else { b with runtime := min (b.runtime + b.quota) (b.quota + b.burst) }

/-- `start_cfs_bandwidth`. -/
def startCfsBandwidth (b : CfsBandwidth n) : CfsBandwidth n := { b with periodActive := true }

/-- What `__assign_cfs_rq_runtime` takes from the pool, for a `cfs_rq` without runtime. -/
def assignAmount (b : CfsBandwidth n) (rq : CfsRq) (target : Nat) : Nat :=
  if b.quota = runtimeInf then (target - rq.runtimeRemaining).toNat else min b.runtime (target - rq.runtimeRemaining).toNat

/-- How it takes the amount. -/
def takeFromPool (amount : Nat) (b : CfsBandwidth n) : CfsBandwidth n :=
  if b.quota = runtimeInf then b
  else
    let b := startCfsBandwidth b
    if 0 < b.runtime then { b with runtime := b.runtime - amount, idle := false } else b

/-- `__assign_cfs_rq_runtime`. -/
def assignCfsRqRuntime (s : TaskGroup n) (cpu : Fin n) (target : Nat) : TaskGroup n × Bool :=
  let amount := assignAmount s.b (s.rq cpu) target
  let s := s.setB (takeFromPool amount)
  let s := s.set cpu fun rq => { rq with runtimeRemaining := rq.runtimeRemaining + amount }
  (s, 0 < (s.rq cpu).runtimeRemaining)

/-- `account_cfs_rq_runtime`; `slice` is `sched_cfs_bandwidth_slice`. -/
def accountCfsRqRuntime (slice : Nat) (s : TaskGroup n) (cpu : Fin n) (deltaExec : Nat) : TaskGroup n :=
  if ¬(s.rq cpu).runtimeEnabled then s
  else
    let s := s.set cpu fun rq => { rq with runtimeRemaining := rq.runtimeRemaining - deltaExec }
    if 0 < (s.rq cpu).runtimeRemaining ∨ (s.rq cpu).throttled then s else (assignCfsRqRuntime s cpu slice).1

/-- `record_throttle_clock`, as far as it is about `throttled_clock`; `clock` is `rq_clock`. -/
def recordThrottleClock (s : TaskGroup n) (cpu : Fin n) (clock : Nat) : TaskGroup n :=
  if (s.rq cpu).throttled ∧ (s.rq cpu).throttledClock = 0 then s.set cpu fun rq => { rq with throttledClock := clock } else s

/-- `throttle_cfs_rq`. It asks for one nanosecond first. -/
def throttleCfsRq (s : TaskGroup n) (cpu : Fin n) : TaskGroup n × Bool :=
  let (s, ok) := assignCfsRqRuntime s cpu 1
  if ok then (s, false)
  else
    let s := s.setB fun b => { b with throttledCfsRq := b.throttledCfsRq ++ [cpu] }
    let s := s.set cpu fun rq => { rq with throttled := true }
    (s.warn (decide ((s.rq cpu).throttledClock ≠ 0)), true)

/-- `unthrottle_cfs_rq`. -/
def unthrottleCfsRq (s : TaskGroup n) (cpu : Fin n) : TaskGroup n :=
  if (s.rq cpu).runtimeEnabled ∧ (s.rq cpu).runtimeRemaining ≤ 0 then s
  else
    let s := s.set cpu fun rq => { rq with throttled := false, throttledClock := 0 }
    s.setB fun b => { b with throttledCfsRq := b.throttledCfsRq.erase cpu }

/-- A `cfs_rq` is taken off the list its `throttled_csd_list` is on, and unthrottled if it is still throttled. -/
def takeOff (s : TaskGroup n) (cpu : Fin n) : TaskGroup n :=
  let s := s.set cpu fun rq => { rq with csd := .none }
  if (s.rq cpu).throttled then unthrottleCfsRq s cpu else s

/-- `__cfsb_csd_unthrottle`, on one CPU. -/
def csdUnthrottle (s : TaskGroup n) (cpu : Fin n) : TaskGroup n := if (s.rq cpu).csd = .queued then takeOff s cpu else s

/-- `unthrottle_cfs_rq_async`, with `__unthrottle_cfs_rq_async`, called on `thisCpu`. -/
def unthrottleCfsRqAsync (thisCpu : Fin n) (s : TaskGroup n) (cpu : Fin n) : TaskGroup n :=
  let wrong := !(s.rq cpu).throttled || decide ((s.rq cpu).runtimeRemaining ≤ 0)
  let s := s.warn wrong
  if wrong then s
  else if cpu = thisCpu then unthrottleCfsRq s cpu
  else
    let queued := decide ((s.rq cpu).csd ≠ .none)
    let s := s.warn queued
    if queued then s else s.set cpu fun rq => { rq with csd := .queued }

/-- A round of the loop of `distribute_cfs_runtime` on `thisCpu`, with what it leaves in `remaining` and `throttled`. -/
def distributeOne (thisCpu cpu : Fin n) (s : TaskGroup n) (remaining : Nat) (throttled : Bool) : TaskGroup n × Nat × Bool :=
  if ¬(s.rq cpu).throttled ∨ (s.rq cpu).csd ≠ .none then (s, remaining, throttled)
  else
    let s := s.warn (decide (0 < (s.rq cpu).runtimeRemaining))
    let runtime := min (1 - (s.rq cpu).runtimeRemaining).toNat s.b.runtime
    let s := s.setB fun b => { b with runtime := b.runtime - runtime }
    let remaining := s.b.runtime
    let s := s.set cpu fun rq => { rq with runtimeRemaining := rq.runtimeRemaining + runtime }
    if 0 < (s.rq cpu).runtimeRemaining then
      if cpu ≠ thisCpu then (unthrottleCfsRqAsync thisCpu s cpu, remaining, throttled)
      else
        let s := s.warn (!(s.localUnthrottle thisCpu).isEmpty)
        let s := s.set cpu fun rq => { rq with csd := .onStack }
        ({ s with localUnthrottle := Function.update s.localUnthrottle thisCpu (s.localUnthrottle thisCpu ++ [cpu]) },
          remaining, throttled)
    else (s, remaining, true)

/-- A round of its second loop, over the local list. The `WARN_ON_ONCE` after the loop is about this list when it has run empty. -/
def unthrottleLocal (thisCpu : Fin n) (s : TaskGroup n) : TaskGroup n :=
  match s.localUnthrottle thisCpu with
  | [] => s.warn (!(s.localUnthrottle thisCpu).isEmpty)
  | cpu :: rest => takeOff { s with localUnthrottle := Function.update s.localUnthrottle thisCpu rest } cpu

/-- The first loop, over the rest of the list. -/
def distributeLoop (thisCpu : Fin n) : List (Fin n) → TaskGroup n → Nat → Bool → TaskGroup n × Bool
  | [], s, _, throttled => (s, throttled)
  | cpu :: l, s, remaining, throttled =>
    if remaining = 0 then (s, true)
    else
      let (s, remaining, throttled) := distributeOne thisCpu cpu s remaining throttled
      distributeLoop thisCpu l s remaining throttled

/-- `distribute_cfs_runtime`, when nobody else acts meanwhile. -/
def distributeCfsRuntime (thisCpu : Fin n) (s : TaskGroup n) : TaskGroup n × Bool :=
  let (s, throttled) := distributeLoop thisCpu s.b.throttledCfsRq s 1 false
  ((s.localUnthrottle thisCpu).foldl (fun s _ => unthrottleLocal thisCpu s) s, throttled)

/-- `do_sched_cfs_period_timer` up to its loop, with whether the timer is to stop and whether something is throttled. -/
def periodTimer (b : CfsBandwidth n) : CfsBandwidth n × Bool × Bool :=
  if b.quota = runtimeInf then (b, true, false)
  else
    let throttled := !b.throttledCfsRq.isEmpty
    let b := refill b
    if b.idle ∧ ¬throttled then (b, true, false)
    else if ¬throttled then ({ b with idle := true }, false, false)
    else (b, false, true)

/-- `sched_cfs_period_timer` doubles a period that is too short, and the quota with it. -/
def scaleUp (b : CfsBandwidth n) : CfsBandwidth n := { b with quota := b.quota * 2 % 2 ^ 64, burst := b.burst * 2 % 2 ^ 64 }

/-- A round of the loop of `sched_cfs_period_timer`, up to the distribution if there is one; the timer may stop after the last
round. A timer that is not active does not fire. -/
def periodRound (scaled last : Bool) (b : CfsBandwidth n) : CfsBandwidth n :=
  if ¬b.periodActive then b
  else
    let (b, stop, _) := periodTimer b
    let b := if scaled then scaleUp b else b
    if last ∧ stop then { b with periodActive := false } else b

/-- The rest of the round after a distribution. -/
def periodRoundEnd (scaled : Bool) (b : CfsBandwidth n) : CfsBandwidth n :=
  if ¬b.periodActive then b
  else
    let b := { b with idle := false }
    if scaled then scaleUp b else b

/-- How `return_cfs_rq_runtime` gives its slack to the pool; `soon` is `runtime_refresh_within`. -/
def giveToPool (slice slack : Nat) (soon : Bool) (b : CfsBandwidth n) : CfsBandwidth n :=
  if b.quota = runtimeInf then b
  else
    let b := { b with runtime := b.runtime + slack }
    if slice < b.runtime ∧ ¬b.throttledCfsRq.isEmpty ∧ ¬soon then { b with slackStarted := true } else b

/-- `return_cfs_rq_runtime`, for a `cfs_rq` with nothing queued. -/
def returnCfsRqRuntime (slice : Nat) (s : TaskGroup n) (cpu : Fin n) (soon : Bool) : TaskGroup n :=
  let slack := (s.rq cpu).runtimeRemaining - minCfsRqRuntime
  if ¬(s.rq cpu).runtimeEnabled ∨ slack ≤ 0 then s
  else
    let s := s.setB (giveToPool slice slack.toNat soon)
    s.set cpu fun rq => { rq with runtimeRemaining := rq.runtimeRemaining - slack }

/-- `check_enqueue_throttle`, for a `cfs_rq` without `curr`. -/
def checkEnqueueThrottle (slice : Nat) (s : TaskGroup n) (cpu : Fin n) : TaskGroup n :=
  if ¬(s.rq cpu).runtimeEnabled ∨ (s.rq cpu).throttled then s
  else
    let s := accountCfsRqRuntime slice s cpu 0
    if (s.rq cpu).runtimeRemaining ≤ 0 then (throttleCfsRq s cpu).1 else s

/-- `check_cfs_rq_runtime`. -/
def checkCfsRqRuntime (s : TaskGroup n) (cpu : Fin n) : TaskGroup n :=
  if ¬(s.rq cpu).runtimeEnabled ∨ 0 < (s.rq cpu).runtimeRemaining ∨ (s.rq cpu).throttled then s
  else (throttleCfsRq s cpu).1

/-- The section of `tg_set_cfs_bandwidth` that sets the pool. -/
def setCfsBandwidth (b : CfsBandwidth n) (quota burst : Nat) : CfsBandwidth n :=
  let b := refill { b with quota := quota, burst := burst }
  if quota ≠ runtimeInf then startCfsBandwidth b else b

/-- Its section for one CPU. -/
def setCfsRqBandwidth (s : TaskGroup n) (cpu : Fin n) (enabled : Bool) : TaskGroup n :=
  let s := s.set cpu fun rq => { rq with runtimeEnabled := enabled, runtimeRemaining := 1 }
  if (s.rq cpu).throttled then unthrottleCfsRq s cpu else s

/-- `unthrottle_offline_cfs_rqs`, on a CPU that is not active. -/
def unthrottleOffline (s : TaskGroup n) (cpu : Fin n) : TaskGroup n :=
  if ¬(s.rq cpu).runtimeEnabled then s
  else
    let s := s.set cpu fun rq => { rq with runtimeEnabled := false }
    if ¬(s.rq cpu).throttled then s
    else unthrottleCfsRq (s.set cpu fun rq => { rq with runtimeRemaining := 1 }) cpu

/-- `update_runtime_enabled`. -/
def updateRuntimeEnabled (s : TaskGroup n) (cpu : Fin n) : TaskGroup n :=
  s.set cpu fun rq => { rq with runtimeEnabled := decide (s.b.quota ≠ runtimeInf) }

/-! ## Runs -/

/-- A section under a lock. -/
inductive Act (n : Nat) where
  | account (cpu : Fin n) (deltaExec : Nat)
  | checkEnqueue (cpu : Fin n)
  | checkRuntime (cpu : Fin n)
  | record (cpu : Fin n) (clock : Nat)
  | giveBack (cpu : Fin n) (soon : Bool)
  | visit (thisCpu cpu : Fin n)
  | finishLocal (thisCpu : Fin n)
  | csd (cpu : Fin n)
  | period (scaled last : Bool)
  | periodEnd (scaled : Bool)
  | slack
  | configure (quota burst : Nat)
  | configureRq (cpu : Fin n) (enabled : Bool)
  | offline (cpu : Fin n)
  | online (cpu : Fin n)

/-- What an act leaves. -/
def next (slice : Nat) (s : TaskGroup n) : Act n → TaskGroup n
  | .account cpu deltaExec => accountCfsRqRuntime slice s cpu deltaExec
  | .checkEnqueue cpu => checkEnqueueThrottle slice s cpu
  | .checkRuntime cpu => checkCfsRqRuntime s cpu
  | .record cpu clock => recordThrottleClock s cpu clock
  | .giveBack cpu soon => returnCfsRqRuntime slice s cpu soon
  | .visit thisCpu cpu => (distributeOne thisCpu cpu s 1 false).1
  | .finishLocal thisCpu => unthrottleLocal thisCpu s
  | .csd cpu => csdUnthrottle s cpu
  | .period scaled last => s.setB (periodRound scaled last)
  | .periodEnd scaled => s.setB (periodRoundEnd scaled)
  | .slack => s.setB fun b => { b with slackStarted := false }
  | .configure quota burst => s.setB fun b => setCfsBandwidth b quota burst
  | .configureRq cpu enabled => setCfsRqBandwidth s cpu enabled
  | .offline cpu => unthrottleOffline s cpu
  | .online cpu => updateRuntimeEnabled s cpu

/-- The group after the acts. -/
def run (slice : Nat) (s : TaskGroup n) (acts : List (Act n)) : TaskGroup n := acts.foldl (next slice) s

/-- `init_cfs_bandwidth` and `init_cfs_rq_runtime`. -/
def initGroup (n : Nat) : TaskGroup n :=
  { b := { quota := runtimeInf, burst := 0, runtime := 0, idle := false, periodActive := false, slackStarted := false,
           throttledCfsRq := [] }
    rq := fun _ => { runtimeEnabled := false, runtimeRemaining := 0, throttled := false, throttledClock := 0, csd := .none }
    localUnthrottle := fun _ => []
    warned := false }

end OsLab.Bandwidth
