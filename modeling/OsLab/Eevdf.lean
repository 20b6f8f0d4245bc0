import OsLab.Lib.Serial
import OsLab.Lib.SearchTree
import Mathlib.Logic.Function.Basic

/-!
# The fair run queue of `fair.c`

One `cfs_rq`: its entities, the tree of those that wait, the one that runs, and the sums from which the average virtual runtime is
computed. Numbers are 64-bit words; a signed one is a word read with `toInt`, so that sums and products wrap as they do in C. The
code is that of a 64-bit machine.

The red-black tree is a library. It keeps the nodes in the order in which `rb_add_augmented_cached` put them, runs
`min_vruntime_update` where something changed below a node, and is free in all else: `Env.shape` is the tree it makes of a list of
nodes. Its callbacks copy `min_vruntime` alone when they rotate, so nothing is known of the `min_slice` and `max_slice` of a root;
what the code reads there is part of `Env`, with the time that has passed.

Left out are load tracking, statistics, NUMA, group weights, bandwidth control (`OsLab.Bandwidth` has it) and the request to
reschedule.
-/

namespace OsLab.Fair

/-- `u64`, `s64` and `unsigned long`. -/
abbrev U64 := BitVec 64

/-- `NICE_0_LOAD`. -/
def nice0Load : U64 := 1048576

/-- The scheduler features and the tunables the code reads. -/
structure Config where
  paranoidAvg : Bool
  placeLag : Bool
  placeDeadlineInitial : Bool
  placeRelDeadline : Bool
  runToParity : Bool
  delayDequeue : Bool
  delayZero : Bool
  pickBuddy : Bool
  baseSlice : U64
  normalizedBaseSlice : U64
  tickNsec : U64

/-- `struct sched_entity`; `weight` is `load.weight`. -/
structure SchedEntity where
  weight : U64
  vruntime : U64
  deadline : U64
  minVruntime : U64
  slice : U64
  vlag : U64
  vprot : U64
  onRq : Bool
  schedDelayed : Bool
  relDeadline : Bool
  customSlice : Bool

/-- `struct cfs_rq`, with the entities a pointer leads to; `load` is `load.weight`. -/
structure CfsRq where
  se : Nat → SchedEntity
  tasksTimeline : SearchTree Nat
  curr : Option Nat
  next : Option Nat
  nrQueued : Nat
  load : U64
  zeroVruntime : U64
  sumWVruntime : U64
  sumWeight : U64
  sumShift : Nat

/-- What the tree library and the clock answer during a step. -/
structure Env where
  shape : List Nat → SearchTree Nat
  inorder_shape : ∀ l, (shape l).inorder = l
  deltaExec : U64
  minSlice : U64
  maxSlice : U64

/-- The kernel's `clamp`, on signed words. -/
def clamp (v lo hi : U64) : U64 :=
  if hi.toInt ≤ v.toInt then hi else if v.toInt ≤ lo.toInt then lo else v

/-- The larger of two signed words. -/
def smax (a b : U64) : U64 := if a.toInt < b.toInt then b else a

/-- The smaller of two signed words. -/
def smin (a b : U64) : U64 := if b.toInt < a.toInt then b else a

/-- `calc_delta_fair`. -/
def calcDeltaFair (delta : U64) (se : SchedEntity) : U64 :=
  if se.weight ≠ nice0Load then delta * nice0Load / se.weight else delta

/-- `min_vruntime`. -/
def minVruntime (m v : U64) : U64 := if Serial.key m v < 0 then v else m

/-- `entity_before`. -/
def entityBefore (a b : SchedEntity) : Prop := Serial.key b.deadline a.deadline < 0

instance (a b : SchedEntity) : Decidable (entityBefore a b) := inferInstanceAs (Decidable (_ < _))

/-- `protect_slice`. -/
def protectSlice (se : SchedEntity) : Bool := Serial.key se.vprot se.vruntime < 0

namespace CfsRq

/-- The entity `r` changed. -/
def set (rq : CfsRq) (r : Nat) (f : SchedEntity → SchedEntity) : CfsRq :=
  { rq with se := Function.update rq.se r (f (rq.se r)) }

/-- `curr`, when it is on the queue. -/
def currOn (rq : CfsRq) : Option Nat := rq.curr.filter fun c => (rq.se c).onRq

end CfsRq

/-- `entity_key`. -/
def entityKey (rq : CfsRq) (se : SchedEntity) : U64 := se.vruntime - rq.zeroVruntime

/-- `avg_vruntime_weight`. -/
def avgVruntimeWeight (rq : CfsRq) (w : U64) : U64 :=
  if rq.sumShift ≠ 0 then if w >>> rq.sumShift < 2 then 2 else w >>> rq.sumShift else w

/-! ## The sums -/

/-- `__sum_w_vruntime_add`. -/
def sumWVruntimeAddOne (rq : CfsRq) (se : SchedEntity) : CfsRq :=
  let weight := avgVruntimeWeight rq se.weight
  { rq with sumWVruntime := rq.sumWVruntime + entityKey rq se * weight, sumWeight := rq.sumWeight + weight }

/-- The signed integer does not fit a word. -/
def overflows (x : Int) : Bool := x < -2 ^ 63 ∨ 2 ^ 63 ≤ x

/-- The sums computed again, over the nodes of the tree from the left. -/
def resum (rq : CfsRq) : CfsRq :=
  rq.tasksTimeline.inorder.foldl (fun rq r => sumWVruntimeAddOne rq (rq.se r)) { rq with sumWVruntime := 0, sumWeight := 0 }

/-- `sum_w_vruntime_add_paranoid`; `none` is its `BUG_ON`. The shift grows with every round, up to 10. -/
def sumWVruntimeAddParanoid (rq : CfsRq) (se : SchedEntity) : Option CfsRq :=
  let weight := avgVruntimeWeight rq se.weight
  let key := (entityKey rq se).toInt * weight.toNat
  if ¬overflows key ∧ ¬overflows (rq.sumWVruntime.toInt + key) then
    some { rq with sumWVruntime := rq.sumWVruntime + entityKey rq se * weight, sumWeight := rq.sumWeight + weight }
  else if h : 10 ≤ rq.sumShift then none
  else
    have : (resum { rq with sumShift := rq.sumShift + 1 }).sumShift = rq.sumShift + 1 := by
      have hfold : ∀ (l : List Nat) (q : CfsRq),
          (l.foldl (fun rq r => sumWVruntimeAddOne rq (rq.se r)) q).sumShift = q.sumShift := by
        intro l
        induction l with
        | nil => exact fun _ => rfl
        | cons r l ih => exact fun q => ih _
      exact hfold _ _
    sumWVruntimeAddParanoid (resum { rq with sumShift := rq.sumShift + 1 }) se
termination_by 10 - rq.sumShift
decreasing_by omega

/-- `sum_w_vruntime_add`. -/
def sumWVruntimeAdd (cfg : Config) (rq : CfsRq) (se : SchedEntity) : Option CfsRq :=
  if cfg.paranoidAvg then sumWVruntimeAddParanoid rq se else some (sumWVruntimeAddOne rq se)

/-- `sum_w_vruntime_sub`. -/
def sumWVruntimeSub (rq : CfsRq) (se : SchedEntity) : CfsRq :=
  let weight := avgVruntimeWeight rq se.weight
  { rq with sumWVruntime := rq.sumWVruntime - entityKey rq se * weight, sumWeight := rq.sumWeight - weight }

/-- `update_zero_vruntime`. -/
def updateZeroVruntime (rq : CfsRq) (delta : U64) : CfsRq :=
  { rq with sumWVruntime := rq.sumWVruntime - rq.sumWeight * delta, zeroVruntime := rq.zeroVruntime + delta }

/-- The two sums with those of `curr`, when it is on the queue: how `avg_vruntime` and `vruntime_eligible` begin. -/
def sumsWithCurr (rq : CfsRq) : U64 × U64 :=
  match rq.currOn with
  | some c =>
    let w := avgVruntimeWeight rq (rq.se c).weight
    (rq.sumWVruntime + entityKey rq (rq.se c) * w, rq.sumWeight + w)
  | none => (rq.sumWVruntime, rq.sumWeight)

/-- How far `avg_vruntime` moves `zero_vruntime`. -/
def avgDelta (rq : CfsRq) : U64 :=
  if rq.sumWeight ≠ 0 then
    let runtime := (sumsWithCurr rq).1
    let weight := (sumsWithCurr rq).2
    -- the sign flips floor and ceiling
    (if runtime.toInt < 0 then runtime - (weight - 1) else runtime).sdiv weight
  else
    match rq.currOn with
    | some c => (rq.se c).vruntime - rq.zeroVruntime
    | none => 0

/-- `avg_vruntime`, for what it does to the queue; it returns the `zeroVruntime` it leaves. -/
def avgVruntime (rq : CfsRq) : CfsRq := updateZeroVruntime rq (avgDelta rq)

/-- `vruntime_eligible`, where the product is computed in 128 bits. -/
def vruntimeEligible (rq : CfsRq) (v : U64) : Bool :=
  (v - rq.zeroVruntime).toInt * (sumsWithCurr rq).2.toInt ≤ (sumsWithCurr rq).1.toInt

/-- `vruntime_eligible`, where the product may overflow and the sign of the key decides. -/
def vruntimeEligibleNoInt128 (rq : CfsRq) (v : U64) : Bool :=
  let key := (v - rq.zeroVruntime).toInt
  let rhs := key * (sumsWithCurr rq).2.toInt
  if overflows rhs then key ≤ 0 else rhs ≤ (sumsWithCurr rq).1.toInt

/-- `entity_eligible`. -/
def entityEligible (rq : CfsRq) (r : Nat) : Bool := vruntimeEligible rq (rq.se r).vruntime

/-- `entity_lag`. -/
def entityLag (cfg : Config) (env : Env) (se : SchedEntity) (avruntime : U64) : U64 :=
  let limit := calcDeltaFair (env.maxSlice + cfg.tickNsec) se
  clamp (avruntime - se.vruntime) (-limit) limit

/-- `update_entity_lag`, with whether the lag was modified. -/
def updateEntityLag (cfg : Config) (env : Env) (rq : CfsRq) (r : Nat) : CfsRq × Bool :=
  let rq := avgVruntime rq
  let avruntime := rq.zeroVruntime
  let vlag := entityLag cfg env (rq.se r) avruntime
  let vlag :=
    if (rq.se r).schedDelayed then
      let vlag := smax vlag (rq.se r).vlag
      if cfg.delayZero then smin vlag 0 else vlag
    else vlag
  (rq.set r fun se => { se with vlag := vlag }, avruntime - vlag != (rq.se r).vruntime)

/-! ## The tree -/

/-- `__min_vruntime_update`. -/
def lowerTo (se : Nat → SchedEntity) (m : U64) : Option Nat → U64
  | none => m
  | some r => if 0 < Serial.key (se r).minVruntime m then (se r).minVruntime else m

/-- `min_vruntime_update`, for the value it gives the node `r` from its children. -/
def minVruntimeUpdate (se : Nat → SchedEntity) (r : Nat) (left right : Option Nat) : U64 :=
  lowerTo se (lowerTo se (se r).vruntime right) left

/-- The entities when the callback has been run on the nodes, from the leaves up. -/
def augment (se : Nat → SchedEntity) : SearchTree Nat → Nat → SchedEntity
  | .nil => se
  | .node left r right =>
    let se := augment (augment se left) right
    Function.update se r { se r with minVruntime := minVruntimeUpdate se r left.root right.root }

/-- `rb_add_augmented_cached` and `rb_erase_augmented_cached`, when they have put the nodes `l` into the tree. -/
def CfsRq.rebuild (rq : CfsRq) (env : Env) (l : List Nat) : CfsRq :=
  { rq with tasksTimeline := env.shape l, se := augment rq.se (env.shape l) }

/-- `__enqueue_entity`. -/
def enqueueNode (cfg : Config) (env : Env) (rq : CfsRq) (r : Nat) : Option CfsRq :=
  (sumWVruntimeAdd cfg rq (rq.se r)).map fun rq =>
    let rq := rq.set r fun se => { se with minVruntime := se.vruntime }
    rq.rebuild env (rq.tasksTimeline.add (fun a b => entityBefore (rq.se a) (rq.se b)) r).inorder

/-- `__dequeue_entity`. -/
def dequeueNode (env : Env) (rq : CfsRq) (r : Nat) : CfsRq :=
  let rq := rq.rebuild env (rq.tasksTimeline.inorder.erase r)
  sumWVruntimeSub rq (rq.se r)

/-- `cfs_rq_min_slice`. -/
def cfsRqMinSlice (env : Env) (rq : CfsRq) : U64 :=
  let minSlice := match rq.currOn with
    | some c => (rq.se c).slice
    | none => BitVec.allOnes 64
  match rq.tasksTimeline.root with
  | some _ => if minSlice < env.minSlice then minSlice else env.minSlice
  | none => minSlice

/-- `set_protect_slice`. -/
def setProtectSlice (cfg : Config) (env : Env) (rq : CfsRq) (r : Nat) : CfsRq :=
  let se := rq.se r
  let slice := if cfg.runToParity then cfsRqMinSlice env rq else cfg.normalizedBaseSlice
  let slice := if slice < se.slice then slice else se.slice
  let vprot := if slice ≠ se.slice then minVruntime se.deadline (se.vruntime + calcDeltaFair slice se) else se.deadline
  rq.set r fun se => { se with vprot := vprot }

/-- The best entity of the tree, as `pick_eevdf` looks for it: the leftmost one, or else by a search along the heap. -/
def bestInTree (rq : CfsRq) : Option Nat :=
  (rq.tasksTimeline.first.filter (entityEligible rq)).or
    (rq.tasksTimeline.search (fun r => vruntimeEligible rq (rq.se r).minVruntime) (entityEligible rq))

/-- `curr`, when there is no best one or `curr` is before it. -/
def earlierOf (rq : CfsRq) (best curr : Option Nat) : Option Nat :=
  match best, curr with
  | none, curr => curr
  | some b, none => some b
  | some b, some c => if entityBefore (rq.se c) (rq.se b) then some c else some b

/-- `pick_eevdf`. -/
def pickEevdf (cfg : Config) (rq : CfsRq) (protect : Bool) : Option Nat :=
  if rq.nrQueued = 1 then
    match rq.currOn with
    | some c => some c
    | none => rq.tasksTimeline.first
  else
    match rq.next.filter fun n => cfg.pickBuddy && protect && entityEligible rq n with
    | some n => some n
    | none =>
      let curr := rq.currOn.filter (entityEligible rq)
      match curr.filter fun c => protect && protectSlice (rq.se c) with
      | some c => some c
      | none => earlierOf rq (bestInTree rq) curr

/-! ## Accounting -/

/-- `update_deadline`, with whether the request is consumed. -/
def updateDeadline (cfg : Config) (rq : CfsRq) (r : Nat) : CfsRq × Bool :=
  if Serial.key (rq.se r).deadline (rq.se r).vruntime < 0 then (rq, false)
  else
    let rq := rq.set r fun se => { se with slice := if se.customSlice then se.slice else cfg.baseSlice }
    let rq := rq.set r fun se => { se with deadline := se.vruntime + calcDeltaFair se.slice se }
    (avgVruntime rq, true)

/-- `clear_buddies`. -/
def clearBuddies (rq : CfsRq) (r : Nat) : CfsRq :=
  if rq.next = some r then { rq with next := none } else rq

/-- `update_curr`. -/
def updateCurr (cfg : Config) (env : Env) (rq : CfsRq) : CfsRq :=
  match rq.curr with
  | none => rq
  | some c =>
    if env.deltaExec.toInt ≤ 0 then rq
    else
      let rq := rq.set c fun se => { se with vruntime := se.vruntime + calcDeltaFair env.deltaExec se }
      let (rq, resched) := updateDeadline cfg rq c
      if rq.nrQueued = 1 then rq
      else if resched ∨ ¬protectSlice (rq.se c) then clearBuddies rq c
      else rq

/-- How far before the average `place_entity` puts the entity, and whether `zero_vruntime` goes along. -/
def placeLag (cfg : Config) (rq : CfsRq) (se : SchedEntity) : U64 × Bool :=
  if cfg.placeLag ∧ rq.nrQueued ≠ 0 ∧ se.vlag ≠ 0 then
    let load := (sumsWithCurr rq).2
    let weight := avgVruntimeWeight rq se.weight
    let lag := se.vlag * (load + weight)
    let load := if load = 0 then 1 else load
    (lag.sdiv load, load.toInt < weight.toInt)
  else (0, false)

/-- `place_entity`; `initial` is `ENQUEUE_INITIAL`. -/
def placeEntity (cfg : Config) (rq : CfsRq) (r : Nat) (initial : Bool) : CfsRq :=
  let rq := avgVruntime rq
  let vruntime := rq.zeroVruntime
  let rq := rq.set r fun se => { se with slice := if se.customSlice then se.slice else cfg.baseSlice }
  let vslice := calcDeltaFair (rq.se r).slice (rq.se r)
  let (lag, updateZero) := placeLag cfg rq (rq.se r)
  let rq := rq.set r fun se => { se with vruntime := vruntime - lag }
  let rq := if updateZero then updateZeroVruntime rq (-lag) else rq
  if cfg.placeRelDeadline ∧ (rq.se r).relDeadline then
    rq.set r fun se => { se with deadline := se.deadline + se.vruntime, relDeadline := false }
  else
    let vslice := if cfg.placeDeadlineInitial ∧ initial then vslice / 2 else vslice
    rq.set r fun se => { se with deadline := se.vruntime + vslice }

/-- `enqueue_entity`. -/
def enqueueEntity (cfg : Config) (env : Env) (rq : CfsRq) (r : Nat) (initial : Bool) : Option CfsRq :=
  let curr := rq.curr = some r
  let rq := if curr then placeEntity cfg rq r initial else rq
  let rq := updateCurr cfg env rq
  let rq := if curr then rq else placeEntity cfg rq r initial
  let rq := { rq with load := rq.load + (rq.se r).weight, nrQueued := rq.nrQueued + 1 }
  (if curr then some rq else enqueueNode cfg env rq r).map fun rq => rq.set r fun se => { se with onRq := true }

/-- `DEQUEUE_SLEEP`, `DEQUEUE_DELAYED`, and `DEQUEUE_SPECIAL` or `DEQUEUE_THROTTLE`. -/
structure DequeueFlags where
  sleep : Bool
  delayed : Bool
  special : Bool

/-- `dequeue_entity`, with what it returns. -/
def dequeueEntity (cfg : Config) (env : Env) (rq : CfsRq) (r : Nat) (flags : DequeueFlags) : CfsRq × Bool :=
  let rq := updateCurr cfg env rq
  let rq := clearBuddies rq r
  if ¬flags.delayed ∧ cfg.delayDequeue ∧ flags.sleep ∧ ¬flags.special ∧ ¬entityEligible rq r then
    let rq := (updateEntityLag cfg env rq r).1
    (rq.set r fun se => { se with schedDelayed := true }, false)
  else
    let rq := (updateEntityLag cfg env rq r).1
    let rq :=
      if cfg.placeRelDeadline ∧ ¬flags.sleep then
        rq.set r fun se => { se with deadline := se.deadline - se.vruntime, relDeadline := true }
      else rq
    let rq := if rq.curr = some r then rq else dequeueNode env rq r
    let rq := rq.set r fun se => { se with onRq := false }
    let rq := { rq with load := rq.load - (rq.se r).weight, nrQueued := rq.nrQueued - 1 }
    (if flags.delayed then rq.set r fun se => { se with schedDelayed := false } else rq, true)

/-- `set_next_entity`. -/
def setNextEntity (cfg : Config) (env : Env) (rq : CfsRq) (r : Nat) (first : Bool) : CfsRq :=
  let rq := clearBuddies rq r
  let rq :=
    if (rq.se r).onRq then
      let rq := dequeueNode env rq r
      if first then setProtectSlice cfg env rq r else rq
    else rq
  { rq with curr := some r }

/-- `put_prev_entity`. -/
def putPrevEntity (cfg : Config) (env : Env) (rq : CfsRq) (prev : Nat) : Option CfsRq :=
  let rq := if (rq.se prev).onRq then updateCurr cfg env rq else rq
  (if (rq.se prev).onRq then enqueueNode cfg env rq prev else some rq).map fun rq => { rq with curr := none }

/-- `rescale_entity`. -/
def rescaleEntity (weight : U64) (relVprot : Bool) (se : SchedEntity) : SchedEntity :=
  { se with
    vlag := (se.vlag * se.weight).sdiv weight
    deadline := if se.relDeadline then (se.deadline * se.weight).sdiv weight else se.deadline
    vprot := if relVprot then (se.vprot * se.weight).sdiv weight else se.vprot }

/-- The entity as `reweight_entity` keeps it while it is off the queue: lag and deadline relative to the average, and the protected
slice with them when `relVprot`. -/
def relativeTo (cfg : Config) (env : Env) (avruntime : U64) (relVprot : Bool) (se : SchedEntity) : SchedEntity :=
  { se with
    vlag := entityLag cfg env se avruntime
    deadline := se.deadline - avruntime
    relDeadline := true
    vprot := if relVprot then se.vprot - avruntime else se.vprot }

/-- The entity as it puts it back, around the average. -/
def placedAt (avruntime : U64) (relVprot : Bool) (se : SchedEntity) : SchedEntity :=
  { se with
    vprot := if relVprot then se.vprot + avruntime else se.vprot
    deadline := se.deadline + avruntime
    relDeadline := false
    vruntime := avruntime - se.vlag }

/-- How `reweight_entity` and `requeue_delayed_entity` take the entity out. -/
def takeOut (env : Env) (rq : CfsRq) (r : Nat) : CfsRq :=
  let rq := { rq with nrQueued := rq.nrQueued - 1 }
  if rq.curr = some r then rq else dequeueNode env rq r

/-- How they put it back. -/
def putBack (cfg : Config) (env : Env) (rq : CfsRq) (r : Nat) : Option CfsRq :=
  (if rq.curr = some r then some rq else enqueueNode cfg env rq r).map fun rq => { rq with nrQueued := rq.nrQueued + 1 }

/-- `reweight_entity`. -/
def reweightEntity (cfg : Config) (env : Env) (rq : CfsRq) (r : Nat) (weight : U64) : Option CfsRq :=
  if (rq.se r).onRq then
    let rq := avgVruntime (updateCurr cfg env rq)
    let avruntime := rq.zeroVruntime
    let relVprot := rq.curr = some r ∧ protectSlice (rq.se r)
    let rq := takeOut env (rq.set r (relativeTo cfg env avruntime relVprot)) r
    let rq := { rq with load := rq.load - (rq.se r).weight }
    let rq := rq.set r fun se => { rescaleEntity weight relVprot se with weight := weight }
    let rq := rq.set r (placedAt avruntime relVprot)
    putBack cfg env { rq with load := rq.load + (rq.se r).weight } r
  else
    some (rq.set r fun se => { rescaleEntity weight false se with weight := weight })

/-- `requeue_delayed_entity`. -/
def requeueDelayedEntity (cfg : Config) (env : Env) (rq : CfsRq) (r : Nat) : Option CfsRq :=
  let (rq, modified) := updateEntityLag cfg env rq r
  (if modified then putBack cfg env (placeEntity cfg (takeOut env rq r) r false) r else some rq).map fun rq =>
    rq.set r fun se => { se with schedDelayed := false }

/-! ## Runs -/

/-- The state `init_cfs_rq` leaves, for entities that are on no queue yet. -/
def initCfsRq (se : Nat → SchedEntity) (zero : U64) : CfsRq :=
  { se := se, tasksTimeline := .nil, curr := none, next := none, nrQueued := 0, load := 0, zeroVruntime := zero,
    sumWVruntime := 0, sumWeight := 0, sumShift := 0 }

/-- What the scheduler core does to the queue. -/
inductive Act where
  | enqueue (env : Env) (r : Nat) (initial : Bool)
  | dequeue (env : Env) (r : Nat) (flags : DequeueFlags)
  | setNext (env : Env) (r : Nat) (first : Bool)
  | putPrev (env : Env) (r : Nat)
  | tick (env : Env)
  | reweight (env : Env) (r : Nat) (weight : U64)
  | requeueDelayed (env : Env) (r : Nat)
  | setNextBuddy (r : Nat)

/-- One act, as the core calls it: an entity is enqueued when it is not on the queue, and dequeued when it is; a next one is set
when there is no current one. -/
inductive Step (cfg : Config) : CfsRq → Act → CfsRq → Prop where
  | enqueue {rq rq' : CfsRq} {env : Env} {r : Nat} {initial : Bool} : (rq.se r).onRq = false →
      enqueueEntity cfg env rq r initial = some rq' → Step cfg rq (.enqueue env r initial) rq'
  | dequeue {rq : CfsRq} {env : Env} {r : Nat} {flags : DequeueFlags} : (rq.se r).onRq = true →
      Step cfg rq (.dequeue env r flags) (dequeueEntity cfg env rq r flags).1
  | setNext {rq : CfsRq} {env : Env} {r : Nat} {first : Bool} : rq.curr = none →
      Step cfg rq (.setNext env r first) (setNextEntity cfg env rq r first)
  | putPrev {rq rq' : CfsRq} {env : Env} {r : Nat} : rq.curr = some r →
      putPrevEntity cfg env rq r = some rq' → Step cfg rq (.putPrev env r) rq'
  | tick {rq : CfsRq} {env : Env} : Step cfg rq (.tick env) (updateCurr cfg env rq)
  | reweight {rq rq' : CfsRq} {env : Env} {r : Nat} {weight : U64} : weight ≠ 0 →
      reweightEntity cfg env rq r weight = some rq' → Step cfg rq (.reweight env r weight) rq'
  | requeueDelayed {rq rq' : CfsRq} {env : Env} {r : Nat} : (rq.se r).onRq = true →
      requeueDelayedEntity cfg env rq r = some rq' → Step cfg rq (.requeueDelayed env r) rq'
  | setNextBuddy {rq : CfsRq} {r : Nat} : (rq.se r).onRq = true → Step cfg rq (.setNextBuddy r) { rq with next := some r }

end OsLab.Fair
