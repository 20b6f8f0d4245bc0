import Mathlib.Data.List.Count
import Mathlib.Logic.Function.Basic

/-!
# Sleeping and waking up, `core.c`

`__schedule` takes a task that is to sleep off the queue of its CPU, `try_to_wake_up` puts it on one again, maybe of another CPU
and maybe through the wake list of that CPU, and `move_queued_task` moves one that waits. They run at the same time: on every CPU
the task on it, the scheduler and `sched_ttwu_pending`; and any number of agents, each in the middle of a `try_to_wake_up` or a
`move_queued_task` somewhere. A step is one access to what others read without the lock that protects it, with what the lock
protects.

A task that waits for `CONDITION` runs the loop of `set_current_state`:

    for (;;) {
        set_current_state(TASK_UNINTERRUPTIBLE);
        if (CONDITION)
            break;
        schedule();
    }
    __set_current_state(TASK_RUNNING);

and who wakes it up sets `CONDITION` before. Accesses are sequentially consistent. Left out are `saved_state`, masks that do not
match the state slept in, proxy execution, new and dead tasks, and what the scheduling classes do; the idle task of a CPU is
`none`. `warned` remembers whether a `WARN_ON_ONCE` has fired.
-/

namespace OsLab.Wakeup

/-- `p->__state`: `TASK_RUNNING`, a state to sleep in, `TASK_WAKING`. -/
inductive TaskState where
  | running
  | sleeping
  | waking
  deriving DecidableEq

/-- `p->on_rq`: 0, `TASK_ON_RQ_QUEUED`, `TASK_ON_RQ_MIGRATING`. -/
inductive OnRq where
  | none
  | queued
  | migrating
  deriving DecidableEq

/-- Where a task is in the loop that waits for `CONDITION`: not in it; after `set_current_state`; with `CONDITION` seen, before
`__set_current_state`; with `CONDITION` not seen, before `schedule`. -/
inductive Loop where
  | free
  | announced
  | leaving
  | committed
  deriving DecidableEq

/-- Where a `try_to_wake_up` is, with `p->pi_lock`: at the load of `p->on_rq`; in `__task_rq_lock`, before `task_rq(p)` is read and
after; in `ttwu_runnable` with the lock of the queue; before `p->__state` becomes `TASK_WAKING`; before `p->on_cpu` is loaded;
waiting for it to be 0; before `select_task_rq`; before the wake list of a CPU; in `ttwu_queue`; in `ttwu_do_activate` with the
lock of the queue, before `ttwu_do_wakeup`. -/
inductive Stage (C : Type) where
  | matched
  | toLock
  | reading (c : C)
  | runnable (c : C)
  | blocked
  | waking
  | spinning
  | selecting
  | listing (c : C)
  | queueing (c : C)
  | activated (c : C)
  deriving DecidableEq

/-- An agent: with nothing to do; with `CONDITION` set, before `p->pi_lock`; in `try_to_wake_up`; in `move_queued_task` with the
lock of the queue the task has left; in it before the lock of the queue it goes to. -/
inductive Agent (T C : Type) where
  | idle
  | entered (p : T)
  | wake (p : T) (stage : Stage C)
  | moving (p : T) (c newCpu : C)
  | moved (p : T) (newCpu : C)
  deriving DecidableEq

/-- What a CPU does: it runs its task; it is in `sched_ttwu_pending` before the lock, with it, and in `ttwu_do_activate` before
`ttwu_do_wakeup`; it is in `__schedule` before `prev->__state` is read, in `try_to_block_task`, in `pick_next_task`, in
`sched_balance_newidle` or `pull_rt_task` within that, which have released the lock, and before `finish_task(prev)`. All but the
first two and `balancing` have the lock of the queue. -/
inductive Pc (T : Type) where
  | running
  | flushing (todo : List T)
  | pending (todo : List T)
  | activated (p : T) (todo : List T)
  | deciding (preempt : Bool)
  | blocking
  | picking
  | balancing
  | switching (prev : Option T)
  deriving DecidableEq

/-- A `try_to_wake_up` of the current task, on its CPU: none; before the state is tested; before `ttwu_do_wakeup`. -/
inductive Self where
  | none
  | entered
  | matched
  deriving DecidableEq

/-- Who has the lock of a queue. -/
inductive Owner (A : Type) where
  | cpu
  | agent (a : A)
  deriving DecidableEq

/-- Tasks `T`, CPUs `C`, agents `A`. -/
structure State (T C A : Type) where
  state : T → TaskState
  onRq : T → OnRq
  onCpu : T → Bool
  schedDelayed : T → Bool
  taskCpu : T → C
  piLock : T → Option A
  loop : T → Loop
  condition : T → Bool
  agent : A → Agent T C
  rqLock : C → Option (Owner A)
  queue : C → List T
  curr : C → Option T
  wakeList : C → List T
  pc : C → Pc T
  self : C → Self
  warned : Bool

/-- What `try_to_block_task` comes to: a signal is pending; the task is off the queue; `dequeue_task` has only marked it. -/
inductive Outcome where
  | signal
  | dequeued
  | delayed
  deriving DecidableEq

/-- A step: of the current task of a CPU, of a wakeup of it by itself, of `__schedule`, of `sched_ttwu_pending`, of an agent. -/
inductive Act (T C A : Type) where
  | announce (c : C)
  | test (c : C)
  | leave (c : C)
  | consume (c : C)
  | selfEnter (c : C)
  | selfMatch (c : C)
  | selfWakeup (c : C)
  | schedule (c : C) (preempt : Bool)
  | readState (c : C)
  | block (c : C) (outcome : Outcome)
  | reap (c : C) (p : T)
  | release (c : C)
  | retake (c : C)
  | pick (c : C) (next : Option T)
  | finish (c : C)
  | flush (c : C)
  | pend (c : C)
  | activatePending (c : C)
  | wakeupPending (c : C)
  | endPending (c : C)
  | enter (a : A) (p : T)
  | lockPi (a : A)
  | loadOnRq (a : A)
  | readRq (a : A)
  | lockRq (a : A)
  | runnable (a : A)
  | setWaking (a : A)
  | loadOnCpu (a : A) (wakelist : Bool)
  | seeOffCpu (a : A)
  | select (a : A) (cpu : C)
  | push (a : A)
  | activate (a : A)
  | wakeup (a : A)
  | move (a : A) (p : T) (newCpu : C)
  | setTaskCpu (a : A)
  | arrive (a : A)

variable {T C A : Type} [DecidableEq T] [DecidableEq C] [DecidableEq A]

namespace State

def setState (s : State T C A) (p : T) (x : TaskState) : State T C A := { s with state := Function.update s.state p x }

def setPc (s : State T C A) (c : C) (x : Pc T) : State T C A := { s with pc := Function.update s.pc c x }

def setAgent (s : State T C A) (a : A) (x : Agent T C) : State T C A := { s with agent := Function.update s.agent a x }

def setSelf (s : State T C A) (c : C) (x : Self) : State T C A := { s with self := Function.update s.self c x }

def setLoop (s : State T C A) (p : T) (x : Loop) : State T C A := { s with loop := Function.update s.loop p x }

def setCondition (s : State T C A) (p : T) (x : Bool) : State T C A := { s with condition := Function.update s.condition p x }

def setOnCpu (s : State T C A) (p : T) (x : Bool) : State T C A := { s with onCpu := Function.update s.onCpu p x }

def setDelayed (s : State T C A) (p : T) (x : Bool) : State T C A := { s with schedDelayed := Function.update s.schedDelayed p x }

def setTaskCpu (s : State T C A) (p : T) (c : C) : State T C A := { s with taskCpu := Function.update s.taskCpu p c }

def setPiLock (s : State T C A) (p : T) (x : Option A) : State T C A := { s with piLock := Function.update s.piLock p x }

def setRqLock (s : State T C A) (c : C) (x : Option (Owner A)) : State T C A := { s with rqLock := Function.update s.rqLock c x }

/-- `enqueue_task` and `p->on_rq`. -/
def enqueue (s : State T C A) (c : C) (p : T) : State T C A :=
  { s with queue := Function.update s.queue c (s.queue c ++ [p]), onRq := Function.update s.onRq p .queued }

/-- `dequeue_task` and `p->on_rq`. -/
def dequeue (s : State T C A) (c : C) (p : T) (x : OnRq) : State T C A :=
  { s with queue := Function.update s.queue c ((s.queue c).erase p), onRq := Function.update s.onRq p x }

def warn (s : State T C A) (b : Bool) : State T C A := { s with warned := s.warned || b }

end State

/-! ## The task on a CPU -/

/-- `set_current_state`. -/
def announce (s : State T C A) (c : C) : Option (State T C A) :=
  match s.pc c, s.curr c with
  | .running, some p => if s.loop p = .free then some ((s.setState p .sleeping).setLoop p .announced) else none
  | _, _ => none

/-- The test of `CONDITION`. -/
def test (s : State T C A) (c : C) : Option (State T C A) :=
  match s.pc c, s.curr c with
  | .running, some p =>
    if s.loop p = .announced then some (s.setLoop p (if s.condition p then .leaving else .committed)) else none
  | _, _ => none

/-- `__set_current_state(TASK_RUNNING)` after the loop. -/
def leave (s : State T C A) (c : C) : Option (State T C A) :=
  match s.pc c, s.curr c with
  | .running, some p => if s.loop p = .leaving then some ((s.setState p .running).setLoop p .free) else none
  | _, _ => none

/-- Outside the loop the task may reset `CONDITION`. -/
def consume (s : State T C A) (c : C) : Option (State T C A) :=
  match s.pc c, s.curr c with
  | .running, some p => if s.loop p = .free then some (s.setCondition p false) else none
  | _, _ => none

/-! ## `try_to_wake_up` with `p == current` -/

/-- `CONDITION` is set and `try_to_wake_up` called, by the task or an interrupt on its CPU. -/
def selfEnter (s : State T C A) (c : C) : Option (State T C A) :=
  match s.pc c, s.curr c with
  | .running, some p => if s.self c = .none then some ((s.setCondition p true).setSelf c .entered) else none
  | _, _ => none

/-- `ttwu_state_match`. -/
def selfMatch (s : State T C A) (c : C) : Option (State T C A) :=
  match s.curr c with
  | some p => if s.self c = .entered then some (s.setSelf c (if s.state p = .sleeping then .matched else .none)) else none
  | none => none

/-- `ttwu_do_wakeup`. -/
def selfWakeup (s : State T C A) (c : C) : Option (State T C A) :=
  match s.curr c with
  | some p => if s.self c = .matched then some ((s.setState p .running).setSelf c .none) else none
  | none => none

/-! ## `__schedule` -/

/-- A task that has announced that it sleeps calls `schedule` only once it has tested `CONDITION`. -/
def mayCall (s : State T C A) : Option T → Bool
  | some p => decide (s.loop p = .free ∨ s.loop p = .committed)
  | none => true

/-- What follows `schedule` in the loop is its next round. -/
def callSchedule (s : State T C A) : Option T → State T C A
  | some p => s.setLoop p .free
  | none => s

/-- `__schedule` is entered and `rq_lock` taken; `try_to_wake_up` has preemption disabled. -/
def schedule (s : State T C A) (c : C) (preempt : Bool) : Option (State T C A) :=
  if s.pc c = .running ∧ s.self c = .none ∧ s.rqLock c = none ∧ (preempt ∨ mayCall s (s.curr c)) then
    let s' := if preempt then s else callSchedule s (s.curr c)
    some ((s'.setRqLock c (some .cpu)).setPc c (.deciding preempt))
  else none

/-- `prev_state` is read and tested. -/
def readState (s : State T C A) (c : C) : Option (State T C A) :=
  match s.pc c with
  | .deciding preempt =>
    match s.curr c with
    | some p => some (s.setPc c (if preempt = false ∧ s.state p ≠ .running then .blocking else .picking))
    | none => some (s.setPc c .picking)
  | _ => none

/-- `try_to_block_task`. -/
def block (s : State T C A) (c : C) (outcome : Outcome) : Option (State T C A) :=
  match s.pc c, s.curr c with
  | .blocking, some p =>
    match outcome with
    | .signal => some ((s.setState p .running).setPc c .picking)
    | .dequeued => some ((s.dequeue c p .none).setPc c .picking)
    | .delayed => some ((s.setDelayed p true).setPc c .picking)
  | _, _ => none

/-- A task that `dequeue_task` has only marked is picked, and goes. -/
def reap (s : State T C A) (c : C) (p : T) : Option (State T C A) :=
  if s.pc c = .picking ∧ p ∈ s.queue c ∧ s.schedDelayed p then some ((s.dequeue c p .none).setDelayed p false) else none

/-- `raw_spin_rq_unlock` of `sched_balance_newidle`, or `double_lock_balance` of `pull_rt_task`; who pulls tasks over then is an
agent. Interrupts stay disabled. -/
def release (s : State T C A) (c : C) : Option (State T C A) :=
  if s.pc c = .picking then some ((s.setRqLock c none).setPc c .balancing) else none

/-- The lock is taken again. -/
def retake (s : State T C A) (c : C) : Option (State T C A) :=
  if s.pc c = .balancing ∧ s.rqLock c = none then some ((s.setRqLock c (some .cpu)).setPc c .picking) else none

/-- `pick_next_task` has a task for this, or the idle task. -/
def mayPick (s : State T C A) (c : C) : Option T → Bool
  | some p => decide (p ∈ s.queue c) && !s.schedDelayed p
  | none => true

/-- `prepare_task`. -/
def prepareTask (s : State T C A) : Option T → State T C A
  | some p => s.setOnCpu p true
  | none => s

/-- `pick_next_task`, and the switch up to `prepare_task`. -/
def pick (s : State T C A) (c : C) (next : Option T) : Option (State T C A) :=
  if s.pc c = .picking ∧ mayPick s c next then
    if s.curr c = next then some ((s.setRqLock c none).setPc c .running)
    else some (({ prepareTask s next with curr := Function.update s.curr c next }).setPc c (.switching (s.curr c)))
  else none

/-- `finish_task`. -/
def finishTask (s : State T C A) : Option T → State T C A
  | some p => s.setOnCpu p false
  | none => s

/-- `finish_task_switch`. -/
def finish (s : State T C A) (c : C) : Option (State T C A) :=
  match s.pc c with
  | .switching prev => some (((finishTask s prev).setRqLock c none).setPc c .running)
  | _ => none

/-! ## `sched_ttwu_pending` -/

/-- The interrupt takes the wake list; interrupts are disabled in `__schedule`. -/
def flush (s : State T C A) (c : C) : Option (State T C A) :=
  if s.pc c = .running then
    some ({ s with wakeList := Function.update s.wakeList c [] }.setPc c (.flushing (s.wakeList c)))
  else none

/-- `rq_lock_irqsave`. -/
def pend (s : State T C A) (c : C) : Option (State T C A) :=
  match s.pc c with
  | .flushing todo => if s.rqLock c = none then some ((s.setRqLock c (some .cpu)).setPc c (.pending todo)) else none
  | _ => none

/-- The two `WARN_ON_ONCE` and `activate_task`, for the first of the list. -/
def activatePending (s : State T C A) (c : C) : Option (State T C A) :=
  match s.pc c with
  | .pending (p :: todo) =>
    if s.onCpu p then some (s.warn true)
    else
      let s' := if s.taskCpu p ≠ c then (s.warn true).setTaskCpu p c else s
      some ((s'.enqueue c p).setPc c (.activated p todo))
  | _ => none

/-- `ttwu_do_wakeup`, for the first of the list. -/
def wakeupPending (s : State T C A) (c : C) : Option (State T C A) :=
  match s.pc c with
  | .activated p todo => some ((s.setState p .running).setPc c (.pending todo))
  | _ => none

/-- `rq_unlock_irqrestore`. -/
def endPending (s : State T C A) (c : C) : Option (State T C A) :=
  match s.pc c with
  | .pending [] => some ((s.setRqLock c none).setPc c .running)
  | _ => none

/-! ## `try_to_wake_up` -/

/-- `CONDITION` is set and `try_to_wake_up` called. -/
def enter (s : State T C A) (a : A) (p : T) : Option (State T C A) :=
  if s.agent a = .idle then some ((s.setCondition p true).setAgent a (.entered p)) else none

/-- `p->pi_lock` is taken; if `ttwu_state_match` fails it is released at once. -/
def lockPi (s : State T C A) (a : A) : Option (State T C A) :=
  match s.agent a with
  | .entered p =>
    if s.piLock p = none then
      if s.state p = .sleeping then some ((s.setPiLock p (some a)).setAgent a (.wake p .matched)) else some (s.setAgent a .idle)
    else none
  | _ => none

/-- `READ_ONCE(p->on_rq)`. -/
def loadOnRq (s : State T C A) (a : A) : Option (State T C A) :=
  match s.agent a with
  | .wake p .matched => some (s.setAgent a (.wake p (if s.onRq p ≠ .none then .toLock else .blocked)))
  | _ => none

/-- `rq = task_rq(p)` of `___task_rq_lock`. -/
def readRq (s : State T C A) (a : A) : Option (State T C A) :=
  match s.agent a with
  | .wake p .toLock => some (s.setAgent a (.wake p (.reading (s.taskCpu p))))
  | _ => none

/-- The lock of that queue and the test of `___task_rq_lock`; if it fails the lock is released at once. -/
def lockRq (s : State T C A) (a : A) : Option (State T C A) :=
  match s.agent a with
  | .wake p (.reading c) =>
    if s.rqLock c = none then
      if s.taskCpu p = c ∧ s.onRq p ≠ .migrating then
        some ((s.setRqLock c (some (.agent a))).setAgent a (.wake p (.runnable c)))
      else some (s.setAgent a (.wake p .toLock))
    else none
  | _ => none

/-- The rest of `ttwu_runnable`. -/
def runnable (s : State T C A) (a : A) : Option (State T C A) :=
  match s.agent a with
  | .wake p (.runnable c) =>
    if s.onRq p = .queued then
      some (((((s.setDelayed p false).setState p .running).setRqLock c none).setPiLock p none).setAgent a .idle)
    else some ((s.setRqLock c none).setAgent a (.wake p .blocked))
  | _ => none

/-- `WRITE_ONCE(p->__state, TASK_WAKING)`. -/
def setWaking (s : State T C A) (a : A) : Option (State T C A) :=
  match s.agent a with
  | .wake p .blocked => some ((s.setState p .waking).setAgent a (.wake p .waking))
  | _ => none

/-- `smp_load_acquire(&p->on_cpu)`; `wakelist` is what `ttwu_queue_cond` says. -/
def loadOnCpu (s : State T C A) (a : A) (wakelist : Bool) : Option (State T C A) :=
  match s.agent a with
  | .wake p .waking =>
    some (s.setAgent a (.wake p (if s.onCpu p = true ∧ wakelist = true then .listing (s.taskCpu p) else .spinning)))
  | _ => none

/-- `smp_cond_load_acquire(&p->on_cpu, !VAL)`. -/
def seeOffCpu (s : State T C A) (a : A) : Option (State T C A) :=
  match s.agent a with
  | .wake p .spinning => if s.onCpu p then none else some (s.setAgent a (.wake p .selecting))
  | _ => none

/-- `select_task_rq` and `set_task_cpu`. -/
def select (s : State T C A) (a : A) (cpu : C) : Option (State T C A) :=
  match s.agent a with
  | .wake p .selecting => some ((s.setTaskCpu p cpu).setAgent a (.wake p (.queueing cpu)))
  | _ => none

/-- `__ttwu_queue_wakelist`, and `p->pi_lock` is released. -/
def pushOn (s : State T C A) (a : A) (p : T) (c : C) : State T C A :=
  ({ s with wakeList := Function.update s.wakeList c (s.wakeList c ++ [p]) }.setPiLock p none).setAgent a .idle

/-- `ttwu_queue_wakelist`, instead of waiting for `p->on_cpu` or in `ttwu_queue`. -/
def push (s : State T C A) (a : A) : Option (State T C A) :=
  match s.agent a with
  | .wake p (.listing c) => some (pushOn s a p c)
  | .wake p (.queueing c) => some (pushOn s a p c)
  | _ => none

/-- `rq_lock` and `activate_task` of `ttwu_queue`. -/
def activate (s : State T C A) (a : A) : Option (State T C A) :=
  match s.agent a with
  | .wake p (.queueing c) =>
    if s.rqLock c = none then
      some (((s.setRqLock c (some (.agent a))).enqueue c p).setAgent a (.wake p (.activated c)))
    else none
  | _ => none

/-- `ttwu_do_wakeup`, and both locks are released. -/
def wakeup (s : State T C A) (a : A) : Option (State T C A) :=
  match s.agent a with
  | .wake p (.activated c) =>
    some ((((s.setState p .running).setRqLock c none).setPiLock p none).setAgent a .idle)
  | _ => none

/-! ## `move_queued_task` -/

/-- `deactivate_task`, for a task that is queued and not on its CPU. -/
def move (s : State T C A) (a : A) (p : T) (newCpu : C) : Option (State T C A) :=
  let c := s.taskCpu p
  if s.agent a = .idle ∧ s.rqLock c = none ∧ s.onRq p = .queued ∧ s.onCpu p = false then
    some (((s.setRqLock c (some (.agent a))).dequeue c p .migrating).setAgent a (.moving p c newCpu))
  else none

/-- `set_task_cpu`, and the lock of the old queue is released. -/
def setTaskCpu (s : State T C A) (a : A) : Option (State T C A) :=
  match s.agent a with
  | .moving p c newCpu => some (((s.setTaskCpu p newCpu).setRqLock c none).setAgent a (.moved p newCpu))
  | _ => none

/-- The `WARN_ON_ONCE` and `activate_task`, under the lock of the new queue. -/
def arrive (s : State T C A) (a : A) : Option (State T C A) :=
  match s.agent a with
  | .moved p newCpu =>
    if s.rqLock newCpu = none then
      some (((s.warn (decide (s.taskCpu p ≠ newCpu))).enqueue newCpu p).setAgent a .idle)
    else none
  | _ => none

/-! ## Runs -/

/-- What a step leaves, if it can be taken. -/
def next (s : State T C A) : Act T C A → Option (State T C A)
  | .announce c => announce s c
  | .test c => test s c
  | .leave c => leave s c
  | .consume c => consume s c
  | .selfEnter c => selfEnter s c
  | .selfMatch c => selfMatch s c
  | .selfWakeup c => selfWakeup s c
  | .schedule c preempt => schedule s c preempt
  | .readState c => readState s c
  | .block c outcome => block s c outcome
  | .reap c p => reap s c p
  | .release c => release s c
  | .retake c => retake s c
  | .pick c next => pick s c next
  | .finish c => finish s c
  | .flush c => flush s c
  | .pend c => pend s c
  | .activatePending c => activatePending s c
  | .wakeupPending c => wakeupPending s c
  | .endPending c => endPending s c
  | .enter a p => enter s a p
  | .lockPi a => lockPi s a
  | .loadOnRq a => loadOnRq s a
  | .readRq a => readRq s a
  | .lockRq a => lockRq s a
  | .runnable a => runnable s a
  | .setWaking a => setWaking s a
  | .loadOnCpu a wakelist => loadOnCpu s a wakelist
  | .seeOffCpu a => seeOffCpu s a
  | .select a cpu => select s a cpu
  | .push a => push s a
  | .activate a => activate s a
  | .wakeup a => wakeup s a
  | .move a p newCpu => move s a p newCpu
  | .setTaskCpu a => setTaskCpu s a
  | .arrive a => arrive s a

/-- What steps one after another leave, if they can be taken. -/
def run (s : State T C A) : List (Act T C A) → Option (State T C A)
  | [] => some s
  | act :: acts => (next s act).bind fun t => run t acts

/-- Every task is queued, or sleeps; nothing is going on. -/
structure Start (s : State T C A) : Prop where
  state : ∀ p, (s.onRq p = .none ∧ s.state p = .sleeping) ∨ (s.onRq p = .queued ∧ s.state p = .running)
  onCpu : ∀ p, s.onCpu p = false
  schedDelayed : ∀ p, s.schedDelayed p = false
  piLock : ∀ p, s.piLock p = none
  loop : ∀ p, s.loop p = .free
  condition : ∀ p, s.condition p = false
  agent : ∀ a, s.agent a = .idle
  rqLock : ∀ c, s.rqLock c = none
  queue : ∀ c p, (s.queue c).count p = if s.onRq p = .queued ∧ s.taskCpu p = c then 1 else 0
  curr : ∀ c, s.curr c = none
  wakeList : ∀ c, s.wakeList c = []
  pc : ∀ c, s.pc c = .running
  self : ∀ c, s.self c = .none
  warned : s.warned = false

end OsLab.Wakeup
