import Mathlib.Data.Fintype.Basic
import Mathlib.Logic.Function.Basic

/-!
# The real-time run queue of a CPU, `rt.c`

With `CONFIG_RT_GROUP_SCHED` a task group has an `rt_rq` and an entity on every CPU; the entity stands for the group in the `rt_rq`
of its parent, with the priority of the best that is in the group. A `rt_rq` has a list for every priority and a bitmap of the
lists that are not empty. An operation takes the entities above the one it is about off their lists from the top down, since the
priority of an upper one depends on the lower ones, and puts them back from the bottom up.

All under the lock of the `rq`. `warned` remembers whether a `WARN_ON` or `BUG_ON` has fired. Left out are the statistics,
`cpupri`, the timer of the bandwidth, the tasks to push, and the requests to reschedule; `nr_running` is the part of it that is
real-time.
-/

namespace OsLab.RtQueue

/-- `MAX_RT_PRIO`. -/
def maxRtPrio : Nat := 100

/-- The task groups as one CPU sees them. `E` are the entities, of tasks and of groups: `rtRq` is where one is queued, and `myQ`
the queue of a group. `rtSe` is the entity of a group, none for the root. -/
structure Hierarchy (Q E : Type) where
  root : Q
  rtRq : E → Q
  myQ : E → Option Q
  rtSe : Q → Option E
  depth : Q → Nat
  height : Nat
  rtSe_iff : ∀ q e, rtSe q = some e ↔ myQ e = some q
  rtSe_root : ∀ q, rtSe q = none ↔ q = root
  depth_myQ : ∀ e q, myQ e = some q → depth q = depth (rtRq e) + 1
  depth_le : ∀ q, depth q ≤ height

variable {Q E : Type}

/-- An entity and those above it, `k` levels up. -/
def Hierarchy.stackFrom (H : Hierarchy Q E) : Nat → E → List E
  | 0, e => [e]
  | k + 1, e => e :: match H.rtSe (H.rtRq e) with
    | none => []
    | some p => H.stackFrom k p

/-- What `for_each_sched_rt_entity` goes over. -/
def Hierarchy.stack (H : Hierarchy Q E) (e : E) : List E := H.stackFrom (H.depth (H.rtRq e)) e

/-- `struct rt_rq`. -/
@[ext]
structure RtRq (E : Type) where
  queue : Nat → List E
  bitmap : Nat → Bool
  rtNrRunning : Nat
  rrNrRunning : Nat
  highestPrio : Nat
  rtThrottled : Bool
  rtNrBoosted : Nat
  rtQueued : Bool

/-- `struct sched_rt_entity`, and what is read of the task of one. -/
structure RtSe where
  prio : Nat
  normalPrio : Nat
  isRr : Bool
  onRq : Bool
  onList : Bool

/-- The run queue of the CPU. -/
@[ext]
structure Rq (Q E : Type) where
  rq : Q → RtRq E
  se : E → RtSe
  nrRunning : Nat
  warned : Bool

/-- The flags of an enqueue or a dequeue. -/
structure Flags where
  head : Bool
  save : Bool
  move : Bool

section

variable [DecidableEq Q] [DecidableEq E]

namespace Rq

/-- An `rt_rq` changed. -/
def setRq (s : Rq Q E) (q : Q) (f : RtRq E → RtRq E) : Rq Q E := { s with rq := Function.update s.rq q (f (s.rq q)) }

/-- An entity changed. -/
def setSe (s : Rq Q E) (e : E) (f : RtSe → RtSe) : Rq Q E := { s with se := Function.update s.se e (f (s.se e)) }

/-- `WARN_ON`, `BUG_ON`. -/
def warn (s : Rq Q E) (condition : Bool) : Rq Q E := { s with warned := s.warned || condition }

end Rq

end

/-- `rt_rq_throttled`. -/
def RtRq.throttled (rq : RtRq E) : Bool := rq.rtThrottled && decide (rq.rtNrBoosted = 0)

/-- `sched_find_first_bit`. -/
def findFirstBit (bitmap : Nat → Bool) : Nat := (List.range (maxRtPrio + 1)).findIdx bitmap

/-- What is read of an entity: `rt_se_prio`, `rt_se_nr_running`, `rt_se_rr_nr_running` and `rt_se_boosted`. -/
structure View where
  prio : Nat
  nr : Nat
  rr : Nat
  boosted : Bool

/-- `rt_se_prio` and the others. A group is seen as what is in it. -/
def view (H : Hierarchy Q E) (s : Rq Q E) (e : E) : View :=
  match H.myQ e with
  | some q => ⟨(s.rq q).highestPrio, (s.rq q).rtNrRunning, (s.rq q).rrNrRunning, decide ((s.rq q).rtNrBoosted ≠ 0)⟩
  | none => ⟨(s.se e).prio, 1, if (s.se e).isRr then 1 else 0, decide ((s.se e).prio ≠ (s.se e).normalPrio)⟩

/-- `inc_rt_tasks`, with `inc_rt_prio` and `inc_rt_group`. -/
def RtRq.inc (v : View) (rq : RtRq E) : RtRq E :=
  { rq with
    rtNrRunning := rq.rtNrRunning + v.nr
    rrNrRunning := rq.rrNrRunning + v.rr
    highestPrio := if v.prio < rq.highestPrio then v.prio else rq.highestPrio
    rtNrBoosted := if v.boosted then rq.rtNrBoosted + 1 else rq.rtNrBoosted }

/-- `dec_rt_tasks`, with `dec_rt_prio` and `dec_rt_group`. -/
def RtRq.dec (v : View) (rq : RtRq E) : RtRq E :=
  let rtNrRunning := rq.rtNrRunning - v.nr
  { rq with
    rtNrRunning := rtNrRunning
    rrNrRunning := rq.rrNrRunning - v.rr
    highestPrio :=
      if rtNrRunning ≠ 0 then if v.prio = rq.highestPrio then findFirstBit rq.bitmap else rq.highestPrio
      else maxRtPrio - 1
    rtNrBoosted := if v.boosted then rq.rtNrBoosted - 1 else rq.rtNrBoosted }

/-- What `dec_rt_tasks` warns of, with `rq` before and `rq'` after it. -/
def decWarns (v : View) (rq rq' : RtRq E) : Bool :=
  decide (maxRtPrio ≤ v.prio) || decide (rq.rtNrRunning = 0) ||
    (decide (rq'.rtNrRunning ≠ 0) && decide (v.prio < rq.highestPrio)) ||
    (decide (rq'.rtNrRunning = 0) && decide (rq'.rtNrBoosted ≠ 0))

/-- `move_entity`. -/
def moveEntity (flags : Flags) : Bool := !(flags.save && !flags.move)

section

variable [DecidableEq Q] [DecidableEq E]

/-- The entity off the list it is on, in `__delist_rt_entity`. -/
def RtRq.delist (e : E) (prio : Nat) (rq : RtRq E) : RtRq E :=
  let queue := fun p => (rq.queue p).erase e
  { rq with queue := queue, bitmap := if (queue prio).isEmpty then Function.update rq.bitmap prio false else rq.bitmap }

/-- `__delist_rt_entity`. -/
def delist (H : Hierarchy Q E) (s : Rq Q E) (e : E) : Rq Q E :=
  (s.setRq (H.rtRq e) (RtRq.delist e (view H s e).prio)).setSe e fun se => { se with onList := false }

/-- The entity on a list, in `__enqueue_rt_entity`. -/
def RtRq.list (e : E) (prio : Nat) (head : Bool) (rq : RtRq E) : RtRq E :=
  { rq with
    queue := Function.update rq.queue prio (if head then e :: rq.queue prio else rq.queue prio ++ [e])
    bitmap := Function.update rq.bitmap prio true }

/-- The rest of `__enqueue_rt_entity`, for a task or a group that is to be queued. -/
def putOn (H : Hierarchy Q E) (s : Rq Q E) (e : E) (flags : Flags) : Rq Q E :=
  let v := view H s e
  let s :=
    if moveEntity flags then
      ((s.warn (s.se e).onList).setRq (H.rtRq e) (RtRq.list e v.prio flags.head)).setSe e fun se => { se with onList := true }
    else s
  let s := s.setSe e fun se => { se with onRq := true }
  (s.warn (decide (maxRtPrio ≤ v.prio))).setRq (H.rtRq e) (RtRq.inc v)

/-- `__enqueue_rt_entity`. -/
def enqueueEntity (H : Hierarchy Q E) (s : Rq Q E) (e : E) (flags : Flags) : Rq Q E :=
  match H.myQ e with
  | none => putOn H s e flags
  | some q =>
    if (s.rq q).throttled ∨ (s.rq q).rtNrRunning = 0 then if (s.se e).onList then delist H s e else s
    else putOn H s e flags

/-- `__dequeue_rt_entity`. -/
def dequeueEntity (H : Hierarchy Q E) (s : Rq Q E) (e : E) (flags : Flags) : Rq Q E :=
  let v := view H s e
  let s := if moveEntity flags then delist H (s.warn (!(s.se e).onList)) e else s
  let s := s.setSe e fun se => { se with onRq := false }
  let rq := s.rq (H.rtRq e)
  (s.warn (decWarns v rq (rq.dec v))).setRq (H.rtRq e) (RtRq.dec v)

/-- `dequeue_top_rt_rq`. -/
def dequeueTop (H : Hierarchy Q E) (s : Rq Q E) (count : Nat) : Rq Q E :=
  if ¬(s.rq H.root).rtQueued then s
  else
    { (s.warn (decide (s.nrRunning = 0))).setRq H.root fun rq => { rq with rtQueued := false } with
      nrRunning := s.nrRunning - count }

/-- `enqueue_top_rt_rq`. -/
def enqueueTop (H : Hierarchy Q E) (s : Rq Q E) : Rq Q E :=
  if (s.rq H.root).rtQueued ∨ (s.rq H.root).throttled ∨ (s.rq H.root).rtNrRunning = 0 then s
  else
    { s.setRq H.root fun rq => { rq with rtQueued := true } with nrRunning := s.nrRunning + (s.rq H.root).rtNrRunning }

/-- `dequeue_rt_stack`; the last of the stack is on the root. -/
def dequeueRtStack (H : Hierarchy Q E) (s : Rq Q E) (e : E) (flags : Flags) : Rq Q E :=
  let rtNrRunning := (s.rq H.root).rtNrRunning
  let s := (H.stack e).reverse.foldl (fun s x => if (s.se x).onRq then dequeueEntity H s x flags else s) s
  dequeueTop H s rtNrRunning

/-- `enqueue_rt_entity`. -/
def enqueueRtEntity (H : Hierarchy Q E) (s : Rq Q E) (e : E) (flags : Flags) : Rq Q E :=
  enqueueTop H ((H.stack e).foldl (fun s x => enqueueEntity H s x flags) (dequeueRtStack H s e flags))

/-- A group goes back if there is something in it, in `dequeue_rt_entity`. -/
def putBack (H : Hierarchy Q E) (flags : Flags) (s : Rq Q E) (e : E) : Rq Q E :=
  match H.myQ e with
  | none => s
  | some q => if (s.rq q).rtNrRunning ≠ 0 then enqueueEntity H s e flags else s

/-- `dequeue_rt_entity`. -/
def dequeueRtEntity (H : Hierarchy Q E) (s : Rq Q E) (e : E) (flags : Flags) : Rq Q E :=
  enqueueTop H ((H.stack e).foldl (putBack H flags) (dequeueRtStack H s e flags))

/-- `DEQUEUE_SAVE` without `DEQUEUE_MOVE`. -/
def saveOnly : Flags := ⟨false, true, false⟩

/-- `sched_change` with `DEQUEUE_SAVE` alone, as `do_set_cpus_allowed` and `sched_setnuma` have it: the task is dequeued and, under
the same lock, enqueued again, and stays where it is on its list. What changes in between is not the priority; `rt_mutex_setprio`
clears `DEQUEUE_MOVE` for a priority that stays, but has left by then. -/
def schedChange (H : Hierarchy Q E) (s : Rq Q E) (e : E) : Rq Q E :=
  enqueueRtEntity H (dequeueRtEntity H s e saveOnly) e saveOnly

/-- `sched_rt_rq_enqueue`. -/
def schedRtRqEnqueue (H : Hierarchy Q E) (s : Rq Q E) (q : Q) : Rq Q E :=
  if (s.rq q).rtNrRunning = 0 then s
  else
    match H.rtSe q with
    | none => enqueueTop H s
    | some e => if (s.se e).onRq then s else enqueueRtEntity H s e ⟨false, false, false⟩

/-- `sched_rt_rq_dequeue`. -/
def schedRtRqDequeue (H : Hierarchy Q E) (s : Rq Q E) (q : Q) : Rq Q E :=
  match H.rtSe q with
  | none => dequeueTop H s (s.rq q).rtNrRunning
  | some e => if (s.se e).onRq then dequeueRtEntity H s e ⟨false, false, false⟩ else s

/-- `sched_rt_runtime_exceeded` throttles a queue. -/
def throttle (H : Hierarchy Q E) (s : Rq Q E) (q : Q) : Rq Q E :=
  let s := s.setRq q fun rq => { rq with rtThrottled := true }
  if (s.rq q).throttled then schedRtRqDequeue H s q else s

/-- The period timer, or `__disable_runtime`, makes a queue available again. -/
def unthrottle (H : Hierarchy Q E) (s : Rq Q E) (q : Q) : Rq Q E :=
  schedRtRqEnqueue H (s.setRq q fun rq => { rq with rtThrottled := false }) q

/-- `requeue_rt_entity`. -/
def requeueEntity (H : Hierarchy Q E) (head : Bool) (s : Rq Q E) (e : E) : Rq Q E :=
  if ¬(s.se e).onRq then s
  else
    s.setRq (H.rtRq e) fun rq =>
      let queue := fun p => (rq.queue p).erase e
      let prio := (view H s e).prio
      { rq with queue := Function.update queue prio (if head then e :: queue prio else queue prio ++ [e]) }

/-- `requeue_task_rt`. -/
def requeueTask (H : Hierarchy Q E) (s : Rq Q E) (e : E) (head : Bool) : Rq Q E :=
  (H.stack e).foldl (requeueEntity H head) s

/-! ## The pick -/

/-- `pick_next_rt_entity`. -/
def pickNextRtEntity (rq : RtRq E) : Option E := (rq.queue (findFirstBit rq.bitmap)).head?

/-- `_pick_next_task_rt`, for no more than `k` rounds of its loop. -/
def pickFrom (H : Hierarchy Q E) (s : Rq Q E) : Nat → Q → Option E
  | 0, _ => none
  | k + 1, q =>
    match pickNextRtEntity (s.rq q) with
    | none => none
    | some e =>
      match H.myQ e with
      | none => some e
      | some q => pickFrom H s k q

/-- `pick_task_rt`; the groups are not nested more than `height` deep. -/
def pickTaskRt (H : Hierarchy Q E) (s : Rq Q E) : Option E :=
  if (s.rq H.root).rtQueued then pickFrom H s (H.height + 1) H.root else none

/-! ## Runs -/

/-- An operation on the queue. -/
inductive Act (Q E : Type) where
  | enqueueTask (e : E) (flags : Flags)
  | dequeueTask (e : E) (flags : Flags)
  | schedChange (e : E)
  | requeueTask (e : E) (head : Bool)
  | setPrio (e : E) (prio normalPrio : Nat) (isRr : Bool)
  | throttle (q : Q)
  | unthrottle (q : Q)

/-- What an operation leaves. A task is enqueued when it is not on the queue, and dequeued when it is; its priority changes when it
is not, and is a real-time one. An enqueue or a dequeue with `SAVE` and without `MOVE` is one half of a `schedChange`. -/
def next (H : Hierarchy Q E) (s : Rq Q E) : Act Q E → Rq Q E
  | .enqueueTask e flags =>
    if H.myQ e = none ∧ ¬(s.se e).onRq ∧ moveEntity flags then enqueueRtEntity H s e flags else s
  | .dequeueTask e flags => if H.myQ e = none ∧ (s.se e).onRq ∧ moveEntity flags then dequeueRtEntity H s e flags else s
  | .schedChange e => if H.myQ e = none ∧ (s.se e).onRq then schedChange H s e else s
  | .requeueTask e head => if H.myQ e = none then requeueTask H s e head else s
  | .setPrio e prio normalPrio isRr =>
    if H.myQ e = none ∧ ¬(s.se e).onRq ∧ prio < maxRtPrio then
      s.setSe e fun se => { se with prio := prio, normalPrio := normalPrio, isRr := isRr }
    else s
  | .throttle q => throttle H s q
  | .unthrottle q => unthrottle H s q

/-- The queue after the operations. -/
def run (H : Hierarchy Q E) (s : Rq Q E) (acts : List (Act Q E)) : Rq Q E := acts.foldl (next H) s

/-- None of the groups a task is in is throttled and on its queue all the same, for a boosted task in it. -/
def Steady (H : Hierarchy Q E) (s : Rq Q E) (e : E) : Prop :=
  ∀ x ∈ H.stack e, ∀ q, H.myQ x = some q → (s.rq q).rtThrottled = true → (s.rq q).rtNrBoosted = 0

/-- Every `schedChange` among the operations is of a task whose groups are steady at that time. -/
def SteadyRun (H : Hierarchy Q E) (s : Rq Q E) : List (Act Q E) → Prop
  | [] => True
  | act :: acts => (∀ e, act = .schedChange e → Steady H s e) ∧ SteadyRun H (next H s act) acts

/-- `init_rt_rq`. -/
def initRtRq : RtRq E where
  queue _ := []
  bitmap p := decide (p = maxRtPrio)
  rtNrRunning := 0
  rrNrRunning := 0
  highestPrio := maxRtPrio - 1
  rtThrottled := false
  rtNrBoosted := 0
  rtQueued := false

end

end OsLab.RtQueue
