import Mathlib.Algebra.BigOperators.Ring.Finset
import OsLab.Lemmas.UclampRuns

/-!
# The clamps of a run queue follow its tasks

Over every order of tasks that are queued, taken off, delayed, given other clamps and moved between classes, and of the moment
`sched_uclamp_used` is switched on.
-/

namespace OsLab.Uclamp

variable {T : Type} [Fintype T] {B : Buckets} {rq : Rq T}

/-- What a task that is counted asks for. -/
def Rq.asks (rq : Rq T) (clampId : ClampId) (p : T) : Nat := ((rq.clamp clampId).se p).value

/-- The tasks in a bucket. -/
def Rq.bucket (B : Buckets) (rq : Rq T) (clampId : ClampId) (b : Nat) : Finset T :=
  {p | rq.active p = true ∧ B.bucketId (rq.asks clampId p) = b}

/-- A bucket counts its tasks. -/
theorem Core.tasks_eq (h : Core B rq) (clampId : ClampId) (b : Nat) :
    (rq.clamp clampId).tasks b = (rq.bucket B clampId b).card := by
  have hcount := (h.clamp clampId).count b
  have hsum : Ledger.total (weight B b) (rq.clamp clampId).se = ((rq.bucket B clampId b).card : Int) := by
    unfold Ledger.total weight Rq.bucket
    rw [Finset.sum_boole, Finset.filter_congr fun q _ => by rw [h.active_eq clampId q]]
    rfl
  exact Int.ofNat.inj (hcount.trans hsum)

/-- The clamp of the queue is no less than what any of its tasks asks for, and in the bucket of one of them. -/
theorem Core.value_within (h : Core B rq) (clampId : ClampId) {p : T} (hp : rq.active p = true) :
    rq.asks clampId p ≤ (rq.clamp clampId).value ∧
      ∃ q, rq.active q = true ∧ B.bucketId (rq.asks clampId q) = B.bucketId (rq.clamp clampId).value := by
  have hinv := h.clamp clampId
  have hse : ((rq.clamp clampId).se p).active = true := (h.active_eq clampId p).trans hp
  obtain ⟨t, -, ht, habove⟩ := hinv.exists_top (hinv.pos_of_active hse)
  obtain ⟨q, hq, hbucket⟩ := hinv.exists_active ht
  refine ⟨hinv.value_le hse, q, (h.active_eq clampId q).symm.trans hq, ?_⟩
  rw [hinv.top t ht habove, hinv.within t ht]
  exact hbucket

variable [DecidableEq T]

/-- No warning fires, each bucket holds as many tasks as it says, the flag tells whether there are any, and the clamp is no less
than what any of them asks for and no further up than the topmost bucket with tasks in; with no task, nothing is asked for at
least. -/
theorem clamps_follow_tasks (enabled : T → Bool) (acts : List (Act T)) (hrun : run B (initUclampRq enabled) acts = some rq) :
    rq.warned = false ∧ (∀ clampId b, (rq.clamp clampId).tasks b = (rq.bucket B clampId b).card) ∧
      (rq.idle = true ↔ ∀ p, rq.active p = false) ∧
      (∀ clampId p, rq.active p = true → rq.asks clampId p ≤ (rq.clamp clampId).value ∧
        ∃ q, rq.active q = true ∧ B.bucketId (rq.asks clampId q) = B.bucketId (rq.clamp clampId).value) ∧
      (rq.idle = true → (rq.clamp .min).value = 0) := by
  have h : Inv B rq := run_inv acts (initUclampRq_inv B enabled) hrun
  exact ⟨h.warned, fun clampId => h.tasks_eq clampId, h.idle, fun clampId p => h.value_within clampId,
    fun hidle => h.least (h.idle.1 hidle)⟩

/-- Five buckets, as `CONFIG_UCLAMP_BUCKETS_COUNT` is by default. -/
def fiveBuckets : Buckets where
  count := 5
  bucketId v := min (v / 205) 4
  lt _ := Nat.lt_succ_of_le (Nat.min_le_right ..)
  mono _ _ h := min_le_min_right 4 (Nat.div_le_div_right h)

/-- One of two tasks is queued before the clamps are used, leaves, comes back, is delayed, and is woken when it asks for more. -/
def leaveAndReturn : List (Act Bool) :=
  [.enqueue true false fun _ => 100, .use, .enqueue false false fun _ => 300, .dequeue true .off, .enqueue true false fun _ => 350,
    .dequeue true .delays, .update true fun _ => 900, .update false fun _ => 310, .enqueue true true fun _ => 900]

/-- One of two tasks has left and come back. -/
theorem clamps_follow_tasks_two : ∃ rq, run fiveBuckets (initUclampRq fun _ => true) leaveAndReturn = some rq ∧ rq.warned = false ∧
    (rq.clamp .min).tasks 4 = (rq.bucket fiveBuckets .min 4).card ∧ (rq.clamp .min).value = 900 := by
  have hsome : (run fiveBuckets (initUclampRq fun _ => true) leaveAndReturn).isSome = true := by decide
  obtain ⟨rq, hrun⟩ := Option.isSome_iff_exists.1 hsome
  have hall := clamps_follow_tasks _ _ hrun
  refine ⟨rq, hrun, hall.1, hall.2.1 .min 4, ?_⟩
  have hvalue : (run fiveBuckets (initUclampRq fun _ => true) leaveAndReturn).map
      (fun rq => (rq.clamp .min).value) = some 900 := by decide
  rw [hrun] at hvalue
  exact Option.some.inj hvalue

/-- The tasks that are counted are on the queue, not delayed and of a class with clamps; and they are all such tasks if the clamps
are used before the first of them is queued. -/
theorem runnable_tasks_counted (enabled : T → Bool) (acts : List (Act T))
    (hrun : run B (initUclampRq enabled) (.use :: acts) = some rq)
    (p : T) : rq.active p = true ↔ rq.enabled p = true ∧ rq.onRq p = true ∧ rq.delayed p = false := by
  have h : Inv B rq := run_inv _ (initUclampRq_inv B enabled) hrun
  have hfull : Full rq := by
    obtain ⟨r, hnext, hrest⟩ := Option.bind_eq_some_iff.1 hrun
    refine run_full acts ?_ (next_inv (initUclampRq_inv B enabled) hnext) hrest
    cases hnext
    exact ⟨rfl, fun q _ honRq => by cases honRq⟩
  exact ⟨fun hp => (h.counted p hp).2, fun ⟨henabled, honRq, hdelayed⟩ => hfull.counts p henabled honRq hdelayed⟩

/-- It is counted, as clamps are used from the start. -/
theorem runnable_tasks_counted_two : ∃ rq, run fiveBuckets (initUclampRq fun _ => true) (.use :: leaveAndReturn) = some rq ∧
    rq.active true = true := by
  have hsome : (run fiveBuckets (initUclampRq fun _ => true) (.use :: leaveAndReturn)).isSome = true := by decide
  obtain ⟨rq, hrun⟩ := Option.isSome_iff_exists.1 hsome
  have hstate : (run fiveBuckets (initUclampRq fun _ => true) (.use :: leaveAndReturn)).map
      (fun rq => (rq.enabled true, rq.onRq true, rq.delayed true)) = some (true, true, false) := by decide
  rw [hrun] at hstate
  have heq := Option.some.inj hstate
  simp only [Prod.mk.injEq] at heq
  exact ⟨rq, hrun, (runnable_tasks_counted _ _ hrun true).2 heq⟩

end OsLab.Uclamp
