import OsLab.Lemmas.BandwidthInv
import OsLab.Lib.Ledger
import Mathlib.Algebra.Order.BigOperators.Group.Finset

/-!
# What the pool and the run queues hold

With a quota, runtime only moves between the pool and the `cfs_rq`s; running takes it away and the period timer brings it.
-/

namespace OsLab.Bandwidth

open TaskGroup

variable {n slice : Nat} {s t u : TaskGroup n} {cpu thisCpu : Fin n}

/-- The runtime in the pool and on the CPUs. -/
def total (s : TaskGroup n) : Int := s.b.runtime + Ledger.total CfsRq.runtimeRemaining s.rq

/-- The CPU time an act accounts for; `account_cfs_rq_runtime` leaves out a `cfs_rq` without bandwidth control. -/
def consumed (s : TaskGroup n) : Act n → Int
  | .account cpu deltaExec => if (s.rq cpu).runtimeEnabled then deltaExec else 0
  | _ => 0

/-- The act changes the configuration, or the CPUs there are. -/
def Act.reconfigures : Act n → Bool
  | .period scaled _ | .periodEnd scaled => scaled
  | .configure .. | .configureRq .. | .offline _ | .online _ => true
  | _ => false

/-- The act is one of the period timer. -/
def Act.isPeriod : Act n → Bool
  | .period .. => true
  | _ => false

/-- A change of one queue changes the total by what it changes there. -/
theorem total_set (s : TaskGroup n) (cpu : Fin n) (f : CfsRq → CfsRq) :
    total (s.set cpu f) = total s + ((f (s.rq cpu)).runtimeRemaining - (s.rq cpu).runtimeRemaining) := by
  unfold total TaskGroup.set
  rw [Ledger.total_update]
  dsimp only
  omega

/-- A change of the pool changes the total by what it changes there. -/
theorem total_setB (s : TaskGroup n) (f : CfsBandwidth n → CfsBandwidth n) :
    total (s.setB f) = total s + ((f s.b).runtime - s.b.runtime) := by
  unfold total
  rw [setB_b, setB_rq]
  omega

/-- From `s` to `t` the group has used `out`, and the quota is the same. -/
structure Uses (s t : TaskGroup n) (out : Int) : Prop where
  quota : t.b.quota = s.b.quota
  total : total t + out = total s

namespace Uses

theorem refl (s : TaskGroup n) : Uses s s 0 := ⟨rfl, add_zero _⟩

/-- Runtime is used in one part of a step, and moved in the rest. -/
theorem trans {out : Int} (h : Uses s t out) (h' : Uses t u 0) : Uses s u out := by
  refine ⟨h'.quota.trans h.quota, ?_⟩
  rw [← h.total, ← h'.total, add_zero]

/-- A queue uses runtime of its own. -/
theorem set {f : CfsRq → CfsRq} {out : Int} (hout : (f (s.rq cpu)).runtimeRemaining + out = (s.rq cpu).runtimeRemaining) :
    Uses s (s.set cpu f) out := by
  refine ⟨rfl, ?_⟩
  rw [total_set]
  omega

/-- Runtime leaves the pool. -/
theorem setB {f : CfsBandwidth n → CfsBandwidth n} {out : Int} (hquota : (f s.b).quota = s.b.quota)
    (hout : (f s.b).runtime + out = s.b.runtime) : Uses s (s.setB f) out := by
  refine ⟨hquota, ?_⟩
  rw [total_setB]
  omega

/-- Runtime goes from the pool to a `cfs_rq`. -/
theorem transfer {f : CfsBandwidth n → CfsBandwidth n} {g : CfsRq → CfsRq} (amount : Int) (hquota : (f s.b).quota = s.b.quota)
    (hpool : (f s.b).runtime + amount = s.b.runtime)
    (hrq : (g (s.rq cpu)).runtimeRemaining = (s.rq cpu).runtimeRemaining + amount) : Uses s ((s.setB f).set cpu g) 0 := by
  refine ⟨hquota, ?_⟩
  rw [total_set, total_setB, setB_rq]
  omega

end Uses

/-! ## The functions -/

/-- A warning uses nothing. -/
theorem warn_uses (s : TaskGroup n) (condition : Bool) : Uses s (s.warn condition) 0 := ⟨rfl, add_zero _⟩

/-- A clock is no runtime. -/
theorem record_uses (s : TaskGroup n) (cpu : Fin n) (clock : Nat) : Uses s (recordThrottleClock s cpu clock) 0 := by
  unfold recordThrottleClock
  split
  · exact Uses.set (add_zero _)
  · exact .refl s

/-- What is taken of a limited pool is missing there. -/
theorem takeFromPool_runtime {amount : Nat} {b : CfsBandwidth n} (hquota : b.quota ≠ runtimeInf) (hle : amount ≤ b.runtime) :
    ((takeFromPool amount b).runtime : Int) + amount = b.runtime := by
  unfold takeFromPool
  rw [if_neg hquota]
  dsimp only [startCfsBandwidth]
  by_cases hpos : 0 < b.runtime
  · rw [if_pos hpos]
    dsimp only
    omega
  · rw [if_neg hpos]
    dsimp only
    omega

/-- What is taken from the pool goes to the `cfs_rq`. -/
theorem assign_uses (hquota : s.b.quota ≠ runtimeInf) (target : Nat) : Uses s (assignCfsRqRuntime s cpu target).1 0 := by
  have hle : assignAmount s.b (s.rq cpu) target ≤ s.b.runtime := by
    unfold assignAmount
    rw [if_neg hquota]
    exact Nat.min_le_left ..
  unfold assignCfsRqRuntime
  dsimp only
  refine Uses.transfer _ (takeFromPool_quota ..) (takeFromPool_runtime hquota hle) ?_
  rfl

/-- What has been run is used up, of a queue that is limited. -/
theorem account_uses (hquota : s.b.quota ≠ runtimeInf) (deltaExec : Nat) :
    Uses s (accountCfsRqRuntime slice s cpu deltaExec) (if (s.rq cpu).runtimeEnabled then deltaExec else 0) := by
  unfold accountCfsRqRuntime
  by_cases henabled : (s.rq cpu).runtimeEnabled = true
  · rw [if_neg (not_not.2 henabled), if_pos henabled]
    have hset : Uses s (s.set cpu fun rq => { rq with runtimeRemaining := rq.runtimeRemaining - deltaExec }) deltaExec :=
      Uses.set (sub_add_cancel ..)
    dsimp only
    split
    · exact hset
    · exact hset.trans (assign_uses (hset.quota ▸ hquota) slice)
  · rw [if_pos henabled, if_neg henabled]
    exact .refl s

/-- A queue that tries for a last bit of runtime moves it. -/
theorem throttle_uses (hquota : s.b.quota ≠ runtimeInf) : Uses s (throttleCfsRq s cpu).1 0 := by
  have hassign : Uses s (assignCfsRqRuntime s cpu 1).1 0 := assign_uses hquota 1
  unfold throttleCfsRq
  dsimp only
  split
  · exact hassign
  · dsimp only
    refine (hassign.trans (Uses.transfer 0 ?_ ?_ ?_)).trans (warn_uses _ _)
    · rfl
    · exact add_zero _
    · exact (add_zero _).symm

/-- What a queue gets when it is charged nothing comes from the pool. -/
theorem checkEnqueue_uses (hquota : s.b.quota ≠ runtimeInf) : Uses s (checkEnqueueThrottle slice s cpu) 0 := by
  unfold checkEnqueueThrottle
  split
  · exact .refl s
  · have hacc : Uses s (accountCfsRqRuntime slice s cpu 0) 0 := by simpa using account_uses hquota 0
    dsimp only
    split
    · exact hacc.trans (throttle_uses (hacc.quota ▸ hquota))
    · exact hacc

/-- The test for throttling moves runtime, and uses none. -/
theorem checkRuntime_uses (hquota : s.b.quota ≠ runtimeInf) : Uses s (checkCfsRqRuntime s cpu) 0 := by
  unfold checkCfsRqRuntime
  split
  · exact .refl s
  · exact throttle_uses hquota

/-- What is given back to a limited pool is there. -/
theorem giveToPool_runtime {b : CfsBandwidth n} (hquota : b.quota ≠ runtimeInf) (slack : Nat) (soon : Bool) :
    (giveToPool slice slack soon b).runtime = b.runtime + slack := by
  unfold giveToPool
  rw [if_neg hquota]
  dsimp only
  split <;> rfl

/-- Giving back moves runtime. -/
theorem giveBack_uses (hquota : s.b.quota ≠ runtimeInf) (soon : Bool) : Uses s (returnCfsRqRuntime slice s cpu soon) 0 := by
  unfold returnCfsRqRuntime
  dsimp only
  split
  · exact .refl s
  · rename_i hslack
    have hpos : 0 < (s.rq cpu).runtimeRemaining - minCfsRqRuntime := not_le.1 (not_or.1 hslack).2
    generalize (s.rq cpu).runtimeRemaining - minCfsRqRuntime = slack at hpos
    refine Uses.transfer (-slack) (giveToPool_frame ..).2.1 ?_ rfl
    rw [giveToPool_runtime hquota]
    omega

/-- Unthrottling moves no runtime. -/
theorem unthrottle_uses (s : TaskGroup n) (cpu : Fin n) : Uses s (unthrottleCfsRq s cpu) 0 := by
  unfold unthrottleCfsRq
  split
  · exact .refl s
  · have hset : Uses s (s.set cpu fun rq => { rq with throttled := false, throttledClock := 0 }) 0 := Uses.set (add_zero _)
    refine hset.trans (Uses.setB rfl ?_)
    exact add_zero _

theorem takeOff_uses (s : TaskGroup n) (cpu : Fin n) : Uses s (takeOff s cpu) 0 := by
  have hset : Uses s (s.set cpu fun rq => { rq with csd := .none }) 0 := Uses.set (add_zero _)
  unfold takeOff
  dsimp only
  split
  · exact hset.trans (unthrottle_uses _ cpu)
  · exact hset

theorem unthrottleLocal_uses (s : TaskGroup n) (thisCpu : Fin n) : Uses s (unthrottleLocal thisCpu s) 0 := by
  unfold unthrottleLocal
  split
  · exact warn_uses s _
  · rename_i cpu rest _
    have hoff := takeOff_uses { s with localUnthrottle := Function.update s.localUnthrottle thisCpu rest } cpu
    exact ⟨hoff.quota, hoff.total⟩

theorem async_uses (s : TaskGroup n) (thisCpu cpu : Fin n) : Uses s (unthrottleCfsRqAsync thisCpu s cpu) 0 := by
  unfold unthrottleCfsRqAsync
  dsimp only
  split
  · exact warn_uses s _
  · split
    · exact (warn_uses s _).trans (unthrottle_uses _ cpu)
    · split
      · exact (warn_uses s _).trans (warn_uses _ _)
      · refine ((warn_uses s _).trans (warn_uses _ _)).trans (Uses.set ?_)
        exact add_zero _

/-- A round of the distribution moves runtime from the pool to one queue. -/
theorem distributeOne_uses (s : TaskGroup n) (thisCpu cpu : Fin n) (remaining : Nat) (throttled : Bool) :
    Uses s (distributeOne thisCpu cpu s remaining throttled).1 0 := by
  unfold distributeOne
  split
  · exact .refl s
  · have hwarn : Uses s (s.warn (decide (0 < (s.rq cpu).runtimeRemaining))) 0 := warn_uses s _
    dsimp only
    generalize s.warn (decide (0 < (s.rq cpu).runtimeRemaining)) = s₁ at hwarn
    generalize hruntime : min (1 - (s₁.rq cpu).runtimeRemaining).toNat s₁.b.runtime = runtime
    have hle : runtime ≤ s₁.b.runtime := hruntime ▸ Nat.min_le_right ..
    have hgiven : Uses s ((s₁.setB fun b => { b with runtime := b.runtime - runtime }).set cpu fun rq =>
        { rq with runtimeRemaining := rq.runtimeRemaining + runtime }) 0 := by
      refine hwarn.trans (Uses.transfer runtime rfl ?_ rfl)
      dsimp only
      omega
    generalize (s₁.setB fun b => { b with runtime := b.runtime - runtime }).set cpu (fun rq =>
        { rq with runtimeRemaining := rq.runtimeRemaining + runtime }) = s₂ at hgiven
    split
    · split
      · exact hgiven.trans (async_uses s₂ thisCpu cpu)
      · have hset : Uses s₂ (s₂.set cpu fun rq => { rq with csd := .onStack }) 0 := Uses.set (add_zero _)
        exact ⟨hgiven.quota, (hgiven.trans hset).total⟩
    · exact hgiven

/-! ## Acts and runs -/

/-- A period brings at most the quota. -/
theorem period_total (hquota : s.b.quota ≠ runtimeInf) (last : Bool) :
    (periodRound false last s.b).quota = s.b.quota ∧ (periodRound false last s.b).runtime ≤ s.b.runtime + s.b.quota := by
  have hrefill : (refill s.b).runtime ≤ s.b.runtime + s.b.quota := by
    unfold refill
    rw [if_neg hquota]
    exact Nat.min_le_left ..
  have htimer : (periodTimer s.b).1.quota = s.b.quota ∧ (periodTimer s.b).1.runtime = (refill s.b).runtime := by
    refine ⟨(periodTimer_frame s.b).2.1, ?_⟩
    unfold periodTimer
    rw [if_neg hquota]
    dsimp only
    split
    · rfl
    · split <;> rfl
  unfold periodRound
  split
  · exact ⟨rfl, Nat.le_add_right ..⟩
  · generalize periodTimer s.b = r at htimer
    dsimp only
    split <;> exact ⟨htimer.1, htimer.2 ▸ hrefill⟩

/-- What an act that changes no configuration does to the quota and to what there is. -/
theorem next_total (hquota : s.b.quota ≠ runtimeInf) {act : Act n} (hact : act.reconfigures = false) :
    (next slice s act).b.quota = s.b.quota ∧
      total (next slice s act) + consumed s act ≤ total s + if act.isPeriod then (s.b.quota : Int) else 0 := by
  -- all but the timer use what they consume
  have huses : ∀ {t : TaskGroup n} {out : Int}, Uses s t out → t.b.quota = s.b.quota ∧ total t + out ≤ total s + 0 := fun h =>
    ⟨h.quota, h.total.trans_le (add_zero _).ge⟩
  cases act with
  | account cpu deltaExec => exact huses (account_uses hquota deltaExec)
  | checkEnqueue cpu => exact huses (checkEnqueue_uses hquota)
  | checkRuntime cpu => exact huses (checkRuntime_uses hquota)
  | record cpu clock => exact huses (record_uses s cpu clock)
  | giveBack cpu soon => exact huses (giveBack_uses hquota soon)
  | visit thisCpu cpu => exact huses (distributeOne_uses s thisCpu cpu 1 false)
  | finishLocal thisCpu => exact huses (unthrottleLocal_uses s thisCpu)
  | csd cpu =>
    refine huses ?_
    unfold next csdUnthrottle
    dsimp only
    split
    · exact takeOff_uses s cpu
    · exact .refl s
  | period scaled last =>
    obtain rfl : scaled = false := hact
    obtain ⟨hsame, hle⟩ := period_total hquota last
    refine ⟨hsame, ?_⟩
    simp only [next, total_setB, consumed, Act.isPeriod, if_true]
    omega
  | periodEnd scaled =>
    obtain rfl : scaled = false := hact
    have hend : (periodRoundEnd false s.b).quota = s.b.quota ∧ (periodRoundEnd false s.b).runtime = s.b.runtime := by
      unfold periodRoundEnd
      split <;> exact ⟨rfl, rfl⟩
    refine huses (Uses.setB hend.1 ?_)
    rw [hend.2]
    exact add_zero _
  | slack => exact huses (Uses.setB (f := fun b => { b with slackStarted := false }) rfl (add_zero _))
  | configure quota burst => cases hact
  | configureRq cpu enabled => cases hact
  | offline cpu => cases hact
  | online cpu => cases hact

/-- What a `cfs_rq` has run beyond what it had. -/
def CfsRq.owed (rq : CfsRq) : Int := max 0 (-rq.runtimeRemaining)

/-- What they all owe. -/
def debt (s : TaskGroup n) : Int := Ledger.total CfsRq.owed s.rq

/-- There is nothing less than the debt. -/
theorem neg_debt_le_total (s : TaskGroup n) : -debt s ≤ total s := by
  have hsum : 0 ≤ ∑ cpu, ((s.rq cpu).owed + (s.rq cpu).runtimeRemaining) :=
    Finset.sum_nonneg fun c _ => by
      unfold CfsRq.owed
      omega
  rw [Finset.sum_add_distrib] at hsum
  unfold debt total Ledger.total
  omega

end OsLab.Bandwidth
