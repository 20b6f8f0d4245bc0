import Mathlib.Data.Fintype.Basic
import Mathlib.Data.List.FinRange
import Mathlib.Logic.Function.Basic

/-!
# The runtime of real-time groups, `rt.c`

One task group and its `rt_rq` on every CPU of a root domain, with `CONFIG_RT_GROUP_SCHED` and `RT_RUNTIME_SHARE`. Each `rt_rq` has
the runtime of the group to begin with; one that has run out borrows from the others (`do_balance_runtime`), and a CPU that goes
down takes back what it has lent (`__disable_runtime`). Both hold the lock of the group's `rt_bandwidth` all the time and go over
the CPUs of the domain, taking the lock of one `rt_rq` after the other. An act is one section under the lock of an `rt_rq`; who
holds the lock of the `rt_bandwidth`, and how far its loop has come, is `holder`.

Times are nanoseconds, without overflow. `warned` remembers whether a `WARN_ON_ONCE` has fired. Which sections follow each other in
a caller is left open, so the runs here include all of theirs.
-/

namespace OsLab.RtRuntime

/-- `RUNTIME_INF`. -/
def runtimeInf : Int := 18446744073709551615

/-- The part of `struct rt_rq` this is about, and `online` of its `rq`. -/
structure RtRq where
  rtRuntime : Int
  rtTime : Nat
  rtThrottled : Bool
  online : Bool

/-- Who holds `rt_runtime_lock` of the `rt_bandwidth`: `do_balance_runtime` or `__disable_runtime` of a CPU, which still has to go
over `rest`. -/
inductive Holder (n : Nat) where
  | free
  | balance (cpu : Fin n) (rest : List (Fin n))
  | reclaim (cpu : Fin n) (rest : List (Fin n)) (want : Int)

/-- The group; `rtPeriod` and `rtRuntime` are those of its `rt_bandwidth`. -/
structure RtGroup (n : Nat) where
  rtPeriod : Int
  rtRuntime : Int
  rq : Fin n → RtRq
  holder : Holder n
  warned : Bool

variable {n : Nat}

/-- The `rt_rq` of a CPU changed. -/
def RtGroup.set (s : RtGroup n) (cpu : Fin n) (f : RtRq → RtRq) : RtGroup n :=
  { s with rq := Function.update s.rq cpu (f (s.rq cpu)) }

/-- The runtime of a CPU changed. -/
def RtGroup.add (s : RtGroup n) (cpu : Fin n) (d : Int) : RtGroup n := s.set cpu fun rq => { rq with rtRuntime := rq.rtRuntime + d }

/-- What `do_balance_runtime` takes from `iter`, which has time to spare, for `rq`. -/
def loan (rtPeriod : Int) (weight : Nat) (rq iter : RtRq) : Int :=
  let diff := (iter.rtRuntime - iter.rtTime) / weight
  if rtPeriod < rq.rtRuntime + diff then rtPeriod - rq.rtRuntime else diff

/-- A round of the loop of `do_balance_runtime`; with the period full the loop is left. -/
def balanceOne (s : RtGroup n) (cpu i : Fin n) (rest : List (Fin n)) : RtGroup n :=
  if i = cpu ∨ (s.rq i).rtRuntime = runtimeInf ∨ (s.rq i).rtRuntime - (s.rq i).rtTime ≤ 0 then
    { s with holder := .balance cpu rest }
  else
    let diff := loan s.rtPeriod n (s.rq cpu) (s.rq i)
    let s := (s.add i (-diff)).add cpu diff
    { s with holder := .balance cpu (if (s.rq cpu).rtRuntime = s.rtPeriod then [] else rest) }

/-- A round of the loop of `__disable_runtime`. -/
def reclaimOne (s : RtGroup n) (cpu i : Fin n) (rest : List (Fin n)) (want : Int) : RtGroup n :=
  if i = cpu ∨ (s.rq i).rtRuntime = runtimeInf then { s with holder := .reclaim cpu rest want }
  else
    let diff := if 0 < want then min (s.rq i).rtRuntime want else want
    { s.add i (-diff) with holder := .reclaim cpu (if want - diff = 0 then [] else rest) (want - diff) }

/-- The end of `__disable_runtime`, at its label `balanced`, and of `set_rq_offline`. -/
def balanced (s : RtGroup n) (cpu : Fin n) : RtGroup n :=
  { s.set cpu fun rq => { rq with rtRuntime := runtimeInf, rtThrottled := false, online := false } with holder := .free }

/-- The next section of who holds the lock. -/
def loop (s : RtGroup n) : RtGroup n :=
  match s.holder with
  | .free => s
  | .balance _ [] => { s with holder := .free }
  | .balance cpu (i :: rest) => balanceOne s cpu i rest
  | .reclaim cpu [] want => balanced { s with warned := s.warned || decide (want ≠ 0) } cpu
  | .reclaim cpu (i :: rest) want => reclaimOne s cpu i rest want

/-- The beginning of `__disable_runtime`; `set_rq_offline` calls it for a CPU that is online. -/
def disableRuntime (s : RtGroup n) (cpu : Fin n) : RtGroup n :=
  if ¬(s.rq cpu).online then s
  else if (s.rq cpu).rtRuntime = runtimeInf ∨ (s.rq cpu).rtRuntime = s.rtRuntime then balanced s cpu
  else { s with holder := .reclaim cpu (List.finRange n) (s.rtRuntime - (s.rq cpu).rtRuntime) }

/-- `__enable_runtime`; `set_rq_online` calls it for a CPU that is not online. -/
def enableRuntime (s : RtGroup n) (cpu : Fin n) : RtGroup n :=
  if (s.rq cpu).online then s
  else s.set cpu fun _ => { rtRuntime := s.rtRuntime, rtTime := 0, rtThrottled := false, online := true }

/-- `do_balance_runtime` takes the lock. Its callers hold the lock of the `rq`, and have seen that its runtime is not unlimited. -/
def beginBalance (s : RtGroup n) (cpu : Fin n) : RtGroup n :=
  if (s.rq cpu).rtRuntime = runtimeInf then s else { s with holder := .balance cpu (List.finRange n) }

/-- `update_curr_rt` accounts for the time. -/
def charge (rq : RtRq) (deltaExec : Nat) : RtRq :=
  if rq.rtRuntime = runtimeInf then rq else { rq with rtTime := rq.rtTime + deltaExec }

/-- `sched_rt_runtime_exceeded`, after it has tried to borrow; `rtRuntime` is that of the group. -/
def exceeded (rtRuntime : Int) (rq : RtRq) : RtRq :=
  if rq.rtThrottled ∨ rq.rtRuntime = runtimeInf ∨ rq.rtTime ≤ rq.rtRuntime then rq
  else if rtRuntime ≠ 0 then { rq with rtThrottled := true } else { rq with rtTime := 0 }

/-- `do_sched_rt_period_timer` for one `rt_rq`, after it has tried to borrow. -/
def replenish (overrun : Nat) (rq : RtRq) : RtRq :=
  let rtTime := rq.rtTime - min rq.rtTime (overrun * rq.rtRuntime).toNat
  { rq with rtTime := rtTime, rtThrottled := rq.rtThrottled && decide (rq.rtRuntime ≤ rtTime) }

/-- `tg_set_rt_bandwidth`, once it has passed its checks. -/
def tgSetRtBandwidth (s : RtGroup n) (rtPeriod rtRuntime : Int) : RtGroup n :=
  { s with rtPeriod := rtPeriod, rtRuntime := rtRuntime, rq := fun cpu => { s.rq cpu with rtRuntime := rtRuntime } }

/-! ## Runs -/

/-- A section. -/
inductive Act (n : Nat) where
  | charge (cpu : Fin n) (deltaExec : Nat)
  | exceeded (cpu : Fin n)
  | replenish (cpu : Fin n) (overrun : Nat)
  | beginBalance (cpu : Fin n)
  | disable (cpu : Fin n)
  | enable (cpu : Fin n)
  | loop

/-- What needs the lock of the `rt_bandwidth` waits until it is free. -/
def whenFree (s t : RtGroup n) : RtGroup n :=
  match s.holder with
  | .free => t
  | _ => s

/-- What an act leaves. -/
def next (s : RtGroup n) : Act n → RtGroup n
  | .charge cpu deltaExec => s.set cpu fun rq => charge rq deltaExec
  | .exceeded cpu => s.set cpu (exceeded s.rtRuntime)
  | .replenish cpu overrun => s.set cpu (replenish overrun)
  | .beginBalance cpu => whenFree s (beginBalance s cpu)
  | .disable cpu => whenFree s (disableRuntime s cpu)
  | .enable cpu => whenFree s (enableRuntime s cpu)
  | .loop => loop s

/-- The group after the acts. -/
def run (s : RtGroup n) (acts : List (Act n)) : RtGroup n := acts.foldl next s

end OsLab.RtRuntime
