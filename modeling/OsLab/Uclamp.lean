import Mathlib.Algebra.Group.Nat.Defs
import Mathlib.Logic.Function.Basic

/-!
# Clamps of the utilisation of a run queue, `core.c`

A task asks for a least and for a greatest utilisation. A run queue counts its tasks in buckets of like values, keeps with each
bucket the greatest value seen since the bucket was empty, and has as its own clamp that of the topmost bucket with tasks in. When
the last task leaves, the greatest utilisation is retained and `UCLAMP_FLAG_IDLE` is set. All under the lock of the `rq`; `warned`
remembers whether a `WARN_ON_ONCE` has fired.

What a task asks for now, `uclamp_eff_get`, is an argument. `bucket_id` of a task is always that of its value, as `uclamp_se_set`
sets both; the buckets themselves are those of `sched.h`, of which only the order matters. `sched_uclamp_used` is switched on at
some time, and never off. One run queue is followed: a task on another one is off this one, and what it carries there is not seen
here, as it is counted here only between its `enqueue_task` and its `dequeue_task`.
-/

namespace OsLab.Uclamp

/-- `UCLAMP_BUCKETS` and `uclamp_bucket_id`. -/
structure Buckets where
  count : Nat
  bucketId : Nat → Nat
  lt : ∀ v, bucketId v < count
  mono : ∀ u v, u ≤ v → bucketId u ≤ bucketId v

/-- `enum uclamp_id`. -/
inductive ClampId where
  | min
  | max
  deriving DecidableEq

/-- `struct uclamp_se`. -/
structure UclampSe where
  value : Nat
  active : Bool

/-- `rq->uclamp` of one `clamp_id`, and `p->uclamp` of it for every task. -/
structure Clamp (T : Type) where
  value : Nat
  tasks : Nat → Nat
  bucketValue : Nat → Nat
  se : T → UclampSe

/-- The run queue; whether a task is on it and is `sched_delayed`, and whether its class has `uclamp_enabled`. -/
structure Rq (T : Type) where
  clamp : ClampId → Clamp T
  idle : Bool
  used : Bool
  onRq : T → Bool
  delayed : T → Bool
  enabled : T → Bool
  warned : Bool

variable {T : Type} [DecidableEq T]

/-- The loop of `uclamp_rq_max_value`, over the buckets below the given one. -/
def topBucket (tasks : Nat → Nat) : Nat → Option Nat
  | 0 => none
  | bucketId + 1 => if tasks bucketId = 0 then topBucket tasks bucketId else some bucketId

/-- `uclamp_rq_max_value`, with `uclamp_idle_value` and whether that sets the flag. -/
def uclampRqMaxValue (B : Buckets) (c : Clamp T) (clampId : ClampId) (clampValue : Nat) : Nat × Bool :=
  match topBucket c.tasks B.count with
  | some bucketId => (c.bucketValue bucketId, false)
  | none =>
    match clampId with
    | .max => (clampValue, true)
    | .min => (0, false)

/-- `uclamp_rq_inc_id`; `value` is what `uclamp_eff_get` returns. -/
def uclampRqIncId (B : Buckets) (idle : Bool) (c : Clamp T) (p : T) (value : Nat) : Clamp T :=
  let b := B.bucketId value
  let c := { c with se := Function.update c.se p ⟨value, true⟩, tasks := Function.update c.tasks b (c.tasks b + 1) }
  -- `uclamp_idle_reset`
  let c := if idle then { c with value := value } else c
  let c := if c.tasks b = 1 ∨ c.bucketValue b < value then { c with bucketValue := Function.update c.bucketValue b value } else c
  if c.value < value then { c with value := value } else c

/-- `uclamp_rq_dec_id`: the clamp, whether the flag is set, and whether there is a warning. -/
def uclampRqDecId (B : Buckets) (c : Clamp T) (clampId : ClampId) (p : T) : Clamp T × Bool × Bool :=
  if (c.se p).active = false then (c, false, false)
  else
    let value := (c.se p).value
    let b := B.bucketId value
    let warned := decide (c.tasks b = 0)
    let c := { c with tasks := Function.update c.tasks b (c.tasks b - 1), se := Function.update c.se p ⟨value, false⟩ }
    if c.tasks b ≠ 0 then (c, false, warned)
    else
      let warned := warned || decide (c.value < c.bucketValue b)
      if c.value ≤ c.bucketValue b then
        let (bktClamp, idle) := uclampRqMaxValue B c clampId value
        ({ c with value := bktClamp }, idle, warned)
      else (c, false, warned)

namespace Rq

/-- `uclamp_rq_inc_id` of the queue. -/
def incId (B : Buckets) (rq : Rq T) (p : T) (value : Nat) (clampId : ClampId) : Rq T :=
  { rq with clamp := Function.update rq.clamp clampId (uclampRqIncId B rq.idle (rq.clamp clampId) p value) }

/-- `uclamp_rq_dec_id` of the queue. -/
def decId (B : Buckets) (rq : Rq T) (p : T) (clampId : ClampId) : Rq T :=
  let (c, idle, warned) := uclampRqDecId B (rq.clamp clampId) clampId p
  { rq with clamp := Function.update rq.clamp clampId c, idle := rq.idle || idle, warned := rq.warned || warned }

/-- `uclamp_rq_inc`. -/
def inc (B : Buckets) (rq : Rq T) (p : T) (enqueueDelayed : Bool) (eff : ClampId → Nat) : Rq T :=
  if rq.used = false ∨ rq.enabled p = false ∨ (rq.delayed p = true ∧ enqueueDelayed = false) then rq
  else { (rq.incId B p (eff .min) .min).incId B p (eff .max) .max with idle := false }

/-- `uclamp_rq_dec`. -/
def dec (B : Buckets) (rq : Rq T) (p : T) : Rq T :=
  if rq.used = false ∨ rq.enabled p = false ∨ rq.delayed p = true then rq else (rq.decId B p .min).decId B p .max

/-- `uclamp_rq_reinc_id`. -/
def reincId (B : Buckets) (rq : Rq T) (p : T) (value : Nat) (clampId : ClampId) : Rq T :=
  if ((rq.clamp clampId).se p).active = false then rq
  else
    let rq := (rq.decId B p clampId).incId B p value clampId
    if clampId = .max then { rq with idle := false } else rq

/-- `uclamp_update_active`. -/
def updateActive (B : Buckets) (rq : Rq T) (p : T) (eff : ClampId → Nat) : Rq T :=
  (rq.reincId B p (eff .min) .min).reincId B p (eff .max) .max

/-- `enqueue_task`, with what the class does to `sched_delayed`. -/
def enqueueTask (B : Buckets) (rq : Rq T) (p : T) (enqueueDelayed : Bool) (eff : ClampId → Nat) : Rq T :=
  let rq := rq.inc B p enqueueDelayed eff
  { rq with
    onRq := Function.update rq.onRq p true
    delayed := Function.update rq.delayed p (rq.delayed p && !enqueueDelayed) }

end Rq

/-- What the class makes of `dequeue_task`: the task is gone, it is gone and remembers to be delayed, or it stays and is delayed.
-/
inductive Outcome where
  | off
  | saved
  | delays

/-- `dequeue_task`. -/
def Rq.dequeueTask (B : Buckets) (rq : Rq T) (p : T) : Outcome → Rq T
  | .off =>
    let rq := rq.dec B p
    { rq with onRq := Function.update rq.onRq p false, delayed := Function.update rq.delayed p false }
  | .saved =>
    let rq := rq.dec B p
    { rq with onRq := Function.update rq.onRq p false }
  | .delays =>
    let rq := rq.dec B p
    { rq with delayed := Function.update rq.delayed p true }

/-- What can happen. -/
inductive Act (T : Type) where
  | enqueue (p : T) (enqueueDelayed : Bool) (eff : ClampId → Nat)
  | dequeue (p : T) (outcome : Outcome)
  | update (p : T) (eff : ClampId → Nat)
  | setClass (p : T) (enabled : Bool)
  | use

/-- The queue after an act that can happen: a task is not queued twice, but a delayed one is queued again with `ENQUEUE_DELAYED`;
its class changes when it is off the queue. -/
def next (B : Buckets) (rq : Rq T) : Act T → Option (Rq T)
  | .enqueue p enqueueDelayed eff =>
    if rq.onRq p = false ∨ (rq.delayed p = true ∧ enqueueDelayed = true) then some (rq.enqueueTask B p enqueueDelayed eff) else none
  | .dequeue p outcome => if rq.onRq p = true then some (rq.dequeueTask B p outcome) else none
  | .update p eff => some (rq.updateActive B p eff)
  | .setClass p enabled => if rq.onRq p = false then some { rq with enabled := Function.update rq.enabled p enabled } else none
  | .use => some { rq with used := true }

/-- One act after another. -/
def run (B : Buckets) (rq : Rq T) : List (Act T) → Option (Rq T)
  | [] => some rq
  | a :: as => (next B rq a).bind fun rq => run B rq as

/-- `init_uclamp_rq`; no task has been here. -/
def initUclampRq (enabled : T → Bool) : Rq T where
  clamp clampId :=
    { value := if clampId = .max then 1024 else 0, tasks := fun _ => 0, bucketValue := fun _ => 0, se := fun _ => ⟨0, false⟩ }
  idle := true
  used := false
  onRq _ := false
  delayed _ := false
  enabled := enabled
  warned := false

end OsLab.Uclamp
