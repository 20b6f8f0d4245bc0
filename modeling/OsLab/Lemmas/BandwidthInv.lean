import OsLab.Bandwidth
import Mathlib.Algebra.BigOperators.Group.Finset.Basic

/-!
# The throttling protocol

A throttled `cfs_rq` is on the list, and has no runtime unless somebody is about to unthrottle it. Every act changes one `cfs_rq`
and the pool (`Inv.replace`).
-/

namespace OsLab.Bandwidth

variable {n slice : Nat} {s t : TaskGroup n} {cpu thisCpu : Fin n}

/-- There is a quota. The one that `sched_cfs_period_timer` makes when it doubles `RUNTIME_INF` is left out: the timer may stop in
the same round, with something throttled. -/
def CfsBandwidth.Awaited (b : CfsBandwidth n) : Prop := b.quota ≠ runtimeInf ∧ b.quota ≠ runtimeInf * 2 % 2 ^ 64

/-- What holds between two acts; within one, the runtime of the `cfs_rq` at hand may be another one. -/
structure InvBut (but : Option (Fin n)) (s : TaskGroup n) : Prop where
  warned : s.warned = false
  nodup : s.b.throttledCfsRq.Nodup
  listed : ∀ cpu, cpu ∈ s.b.throttledCfsRq ↔ (s.rq cpu).throttled = true
  spent : ∀ cpu, but ≠ some cpu → (s.rq cpu).throttled = true → (s.rq cpu).csd = .none → (s.rq cpu).runtimeRemaining ≤ 0
  locals : ∀ cpu, s.localUnthrottle cpu = if (s.rq cpu).csd = .onStack then [cpu] else []
  clock : ∀ cpu, (s.rq cpu).throttled = false → (s.rq cpu).throttledClock = 0
  active : s.b.Awaited → s.b.throttledCfsRq ≠ [] → s.b.periodActive = true

/-- What holds between two acts. -/
def Inv (s : TaskGroup n) : Prop := InvBut none s

namespace TaskGroup

@[simp] theorem set_self (s : TaskGroup n) (cpu : Fin n) (f : CfsRq → CfsRq) : (s.set cpu f).rq cpu = f (s.rq cpu) :=
  Function.update_self ..

theorem set_of_ne {c : Fin n} (h : c ≠ cpu) (s : TaskGroup n) (f : CfsRq → CfsRq) : (s.set cpu f).rq c = s.rq c :=
  Function.update_of_ne h ..

@[simp] theorem set_b (s : TaskGroup n) (cpu : Fin n) (f : CfsRq → CfsRq) : (s.set cpu f).b = s.b := rfl

@[simp] theorem set_local (s : TaskGroup n) (cpu : Fin n) (f : CfsRq → CfsRq) :
    (s.set cpu f).localUnthrottle = s.localUnthrottle := rfl

@[simp] theorem set_warned (s : TaskGroup n) (cpu : Fin n) (f : CfsRq → CfsRq) : (s.set cpu f).warned = s.warned := rfl

@[simp] theorem setB_b (s : TaskGroup n) (f : CfsBandwidth n → CfsBandwidth n) : (s.setB f).b = f s.b := rfl

@[simp] theorem setB_rq (s : TaskGroup n) (f : CfsBandwidth n → CfsBandwidth n) : (s.setB f).rq = s.rq := rfl

@[simp] theorem setB_local (s : TaskGroup n) (f : CfsBandwidth n → CfsBandwidth n) :
    (s.setB f).localUnthrottle = s.localUnthrottle := rfl

@[simp] theorem setB_warned (s : TaskGroup n) (f : CfsBandwidth n → CfsBandwidth n) : (s.setB f).warned = s.warned := rfl

@[simp] theorem warn_b (s : TaskGroup n) (c : Bool) : (s.warn c).b = s.b := rfl

@[simp] theorem warn_rq (s : TaskGroup n) (c : Bool) : (s.warn c).rq = s.rq := rfl

@[simp] theorem warn_local (s : TaskGroup n) (c : Bool) : (s.warn c).localUnthrottle = s.localUnthrottle := rfl

theorem warn_false (s : TaskGroup n) : s.warn false = s := by simp [warn]

end TaskGroup

open TaskGroup

/-- The invariant holds of every queue but one, in particular. -/
theorem Inv.but (h : Inv s) (cpu : Fin n) : InvBut (some cpu) s :=
  ⟨h.warned, h.nodup, h.listed, fun c _ => h.spent c (Option.some_ne_none c).symm, h.locals, h.clock, h.active⟩

/-- The one queue left out has to be out of runtime if it is throttled. -/
theorem InvBut.inv (h : InvBut (some cpu) s)
    (hspent : (s.rq cpu).throttled = true → (s.rq cpu).csd = .none → (s.rq cpu).runtimeRemaining ≤ 0) : Inv s := by
  refine ⟨h.warned, h.nodup, h.listed, fun c _ => ?_, h.locals, h.clock, h.active⟩
  by_cases hc : c = cpu
  · exact hc ▸ hspent
  · exact h.spent c fun he => hc (Option.some.inj he).symm

/-- One `cfs_rq` changes, with its place on the lists. -/
theorem InvBut.replace (h : InvBut (some cpu) s) (hwarned : t.warned = false) (hrq : ∀ c, c ≠ cpu → t.rq c = s.rq c)
    (hlocal : ∀ c, c ≠ cpu → t.localUnthrottle c = s.localUnthrottle c) (hnodup : t.b.throttledCfsRq.Nodup)
    (hlist : ∀ c, c ≠ cpu → (c ∈ t.b.throttledCfsRq ↔ c ∈ s.b.throttledCfsRq))
    (hlisted : cpu ∈ t.b.throttledCfsRq ↔ (t.rq cpu).throttled = true)
    (hself : t.localUnthrottle cpu = if (t.rq cpu).csd = .onStack then [cpu] else [])
    (hclock : (t.rq cpu).throttled = false → (t.rq cpu).throttledClock = 0)
    (hactive : t.b.Awaited → t.b.throttledCfsRq ≠ [] → t.b.periodActive = true) : InvBut (some cpu) t := by
  refine ⟨hwarned, hnodup, fun c => ?_, fun c hne => ?_, fun c => ?_, fun c => ?_, hactive⟩
  · by_cases hc : c = cpu
    · exact hc ▸ hlisted
    · rw [hlist c hc, hrq c hc, h.listed c]
  · rw [hrq c fun hc => hne (congrArg some hc.symm)]
    exact h.spent c hne
  · by_cases hc : c = cpu
    · exact hc ▸ hself
    · rw [hrq c hc, hlocal c hc, h.locals c]
  · by_cases hc : c = cpu
    · exact hc ▸ hclock
    · rw [hrq c hc]
      exact h.clock c

/-- A `cfs_rq` changes and stays on the lists it is on. -/
theorem InvBut.set (h : InvBut (some cpu) s) {f : CfsRq → CfsRq} (hthrottled : (f (s.rq cpu)).throttled = (s.rq cpu).throttled)
    (hcsd : (f (s.rq cpu)).csd = (s.rq cpu).csd) (hclock : (f (s.rq cpu)).throttledClock = (s.rq cpu).throttledClock) :
    InvBut (some cpu) (s.set cpu f) := by
  refine h.replace h.warned (fun c hc => set_of_ne hc s f) (fun _ _ => rfl) h.nodup (fun _ _ => Iff.rfl) ?_ ?_ ?_ h.active
  · rw [set_self, hthrottled]
    exact h.listed cpu
  · rw [set_self, hcsd]
    exact h.locals cpu
  · rw [set_self, hthrottled, hclock]
    exact h.clock cpu

/-- Only the pool changes, and not the list. -/
theorem InvBut.setB {but : Option (Fin n)} (h : InvBut but s) {f : CfsBandwidth n → CfsBandwidth n}
    (hlist : (f s.b).throttledCfsRq = s.b.throttledCfsRq)
    (hactive : (f s.b).Awaited → s.b.throttledCfsRq ≠ [] → (f s.b).periodActive = true) : InvBut but (s.setB f) := by
  refine ⟨h.warned, ?_, fun c => ?_, h.spent, h.locals, h.clock, ?_⟩
  · rw [setB_b, hlist]
    exact h.nodup
  · rw [setB_b, hlist]
    exact h.listed c
  · rw [setB_b, hlist]
    exact hactive

/-! ## The functions -/

/-- After `unthrottle_cfs_rq` the `cfs_rq` is not throttled, or it has no runtime. -/
theorem InvBut.unthrottle (h : InvBut (some cpu) s) : Inv (unthrottleCfsRq s cpu) := by
  unfold unthrottleCfsRq
  split
  · rename_i hspent
    exact h.inv fun _ _ => hspent.2
  · dsimp only
    refine InvBut.inv (h.replace h.warned (fun c hc => ?_) (fun _ _ => rfl) (h.nodup.erase cpu)
      (fun c hc => List.mem_erase_of_ne hc) ?_ ?_ ?_ ?_) ?_
    · rw [setB_rq, set_of_ne hc]
    · simp [h.nodup.not_mem_erase]
    · simpa using h.locals cpu
    · simp
    · intro hawaited hne
      refine h.active hawaited fun hnil => hne ?_
      simp [hnil]
    · simp

/-- Off the list and unthrottled if need be. -/
theorem takeOff_inv (h : InvBut (some cpu) (s.set cpu fun rq => { rq with csd := .none })) : Inv (takeOff s cpu) := by
  unfold takeOff
  dsimp only
  split
  · exact h.unthrottle
  · rename_i hnot
    exact h.inv fun ht => absurd ht hnot

/-- `__cfsb_csd_unthrottle` takes one queue from the list of its CPU. -/
theorem csdUnthrottle_inv (h : Inv s) : Inv (csdUnthrottle s cpu) := by
  unfold csdUnthrottle
  split
  · rename_i hcsd
    have hlocal := h.locals cpu
    rw [hcsd] at hlocal
    refine takeOff_inv ((h.but cpu).replace h.warned (fun c hc => set_of_ne hc s _) (fun _ _ => rfl) h.nodup
      (fun _ _ => Iff.rfl) ?_ ?_ ?_ h.active)
    · simpa using h.listed cpu
    · simpa using hlocal
    · simpa using h.clock cpu
  · exact h

/-- The queue of this CPU has runtime when its turn comes. -/
theorem unthrottleLocal_inv (h : Inv s) : Inv (unthrottleLocal thisCpu s) := by
  unfold unthrottleLocal
  have hlocal := h.locals thisCpu
  by_cases hcsd : (s.rq thisCpu).csd = .onStack
  · rw [if_pos hcsd] at hlocal
    rw [hlocal]
    dsimp only
    refine takeOff_inv ((h.but thisCpu).replace h.warned (fun c hc => set_of_ne hc _ _) (fun c hc => ?_) h.nodup
      (fun _ _ => Iff.rfl) ?_ ?_ ?_ h.active)
    · exact Function.update_of_ne hc _ _
    · simpa using h.listed thisCpu
    · simp
    · simpa using h.clock thisCpu
  · rw [if_neg hcsd] at hlocal
    rw [hlocal]
    exact (warn_false s).symm ▸ h

/-- Who takes runtime leaves the list of throttled queues alone. -/
theorem takeFromPool_list (amount : Nat) (b : CfsBandwidth n) : (takeFromPool amount b).throttledCfsRq = b.throttledCfsRq := by
  unfold takeFromPool
  split
  · rfl
  · dsimp only
    split <;> rfl

@[simp] theorem takeFromPool_quota (amount : Nat) (b : CfsBandwidth n) : (takeFromPool amount b).quota = b.quota := by
  unfold takeFromPool
  split
  · rfl
  · dsimp only
    split <;> rfl

/-- With a quota, asking starts the timer. -/
theorem takeFromPool_active (amount : Nat) {b : CfsBandwidth n} (hquota : b.quota ≠ runtimeInf) :
    (takeFromPool amount b).periodActive = true := by
  unfold takeFromPool
  rw [if_neg hquota]
  dsimp only
  split <;> rfl

/-- What `__assign_cfs_rq_runtime` does: the amount goes from the pool to the `cfs_rq`. -/
theorem assign_inv (h : InvBut (some cpu) s) (target : Nat) : InvBut (some cpu) (assignCfsRqRuntime s cpu target).1 := by
  unfold assignCfsRqRuntime
  dsimp only
  refine (h.setB (takeFromPool_list ..) fun hawaited _ => ?_).set rfl rfl rfl
  exact takeFromPool_active _ fun hinf => hawaited.1 ((takeFromPool_quota ..).trans hinf)

/-- Getting runtime does not unthrottle a queue. -/
theorem assign_throttled (s : TaskGroup n) (cpu : Fin n) (target : Nat) :
    ((assignCfsRqRuntime s cpu target).1.rq cpu).throttled = (s.rq cpu).throttled := by
  unfold assignCfsRqRuntime
  dsimp only
  rw [set_self, setB_rq]

/-- Who takes runtime from a limited pool starts the period timer. -/
theorem assign_active (s : TaskGroup n) (cpu : Fin n) (target : Nat)
    (hquota : (assignCfsRqRuntime s cpu target).1.b.quota ≠ runtimeInf) :
    (assignCfsRqRuntime s cpu target).1.b.periodActive = true :=
  takeFromPool_active _ fun hinf => hquota ((takeFromPool_quota ..).trans hinf)

/-- A queue is throttled when the pool had nothing for it; the timer that will unthrottle it is on. -/
theorem throttle_inv (h : InvBut (some cpu) s) (hnot : (s.rq cpu).throttled = false) : Inv (throttleCfsRq s cpu).1 := by
  have hassign := assign_inv h 1
  have hfalse : ((assignCfsRqRuntime s cpu 1).1.rq cpu).throttled = false := (assign_throttled s cpu 1).trans hnot
  have hactive := assign_active s cpu 1
  have hok : (assignCfsRqRuntime s cpu 1).2 = decide (0 < ((assignCfsRqRuntime s cpu 1).1.rq cpu).runtimeRemaining) := rfl
  unfold throttleCfsRq
  generalize assignCfsRqRuntime s cpu 1 = a at hassign hfalse hactive hok
  obtain ⟨t, ok⟩ := a
  dsimp only at hassign hfalse hactive hok ⊢
  split
  · exact hassign.inv fun ht => absurd (hfalse.symm.trans ht) Bool.false_ne_true
  · rename_i hno
    have hnotin : cpu ∉ t.b.throttledCfsRq := by
      rw [hassign.listed, hfalse]
      exact Bool.false_ne_true
    have hspent : (t.rq cpu).runtimeRemaining ≤ 0 := by
      rw [hok, decide_eq_true_iff] at hno
      exact not_lt.1 hno
    have hclock : ((t.setB fun b => { b with throttledCfsRq := b.throttledCfsRq ++ [cpu] }).set cpu fun rq =>
        { rq with throttled := true }).rq cpu = { t.rq cpu with throttled := true } := by rw [set_self, setB_rq]
    rw [hclock, hassign.clock cpu hfalse, decide_eq_false (not_not.2 rfl), warn_false]
    refine InvBut.inv (hassign.replace hassign.warned (fun c hc => by rw [set_of_ne hc, setB_rq]) (fun _ _ => rfl) ?_
      (fun c hc => ?_) ?_ ?_ (fun ht => ?_) fun hawaited _ => hactive hawaited.1) ?_
    · exact hassign.nodup.append (List.nodup_singleton cpu) (by simpa using hnotin)
    · simp [hc]
    · simp
    · simpa using hassign.locals cpu
    · rw [hclock] at ht
      cases ht
    · simpa using fun _ => hspent

/-- A queue that is out of runtime is not throttled on the spot: that comes later. -/
theorem account_inv (h : Inv s) (deltaExec : Nat) : Inv (accountCfsRqRuntime slice s cpu deltaExec) := by
  unfold accountCfsRqRuntime
  split
  · exact h
  · have hset : InvBut (some cpu) (s.set cpu fun rq => { rq with runtimeRemaining := rq.runtimeRemaining - deltaExec }) :=
      (h.but cpu).set rfl rfl rfl
    dsimp only
    split
    · refine hset.inv fun ht hcsd => ?_
      have hspent := h.spent cpu (Option.some_ne_none cpu).symm (by simpa using ht) (by simpa using hcsd)
      simp only [set_self]
      omega
    · rename_i hnot
      have hfalse := (not_or.1 hnot).2
      refine (assign_inv hset slice).inv fun ht => ?_
      rw [assign_throttled] at ht
      exact absurd ht hfalse

/-- A `cfs_rq` that is not throttled stays so while it is accounted. -/
theorem account_throttled (hnot : (s.rq cpu).throttled = false) (deltaExec : Nat) :
    ((accountCfsRqRuntime slice s cpu deltaExec).rq cpu).throttled = false := by
  unfold accountCfsRqRuntime
  split
  · exact hnot
  · dsimp only
    split
    · simpa using hnot
    · rw [assign_throttled]
      simpa using hnot

/-- A queue that gets its first entity is charged nothing, and may be throttled. -/
theorem checkEnqueue_inv (h : Inv s) : Inv (checkEnqueueThrottle slice s cpu) := by
  unfold checkEnqueueThrottle
  split
  · exact h
  · rename_i hnot
    have hfalse : (s.rq cpu).throttled = false := by simpa using (not_or.1 hnot).2
    have hacc : Inv (accountCfsRqRuntime slice s cpu 0) := account_inv h 0
    dsimp only
    split
    · exact throttle_inv (hacc.but cpu) (account_throttled hfalse 0)
    · exact hacc

/-- A queue that stays out of runtime is throttled. -/
theorem checkRuntime_inv (h : Inv s) : Inv (checkCfsRqRuntime s cpu) := by
  unfold checkCfsRqRuntime
  split
  · exact h
  · rename_i hnot
    exact throttle_inv (h.but cpu) (by simpa using (not_or.1 (not_or.1 hnot).2).2)

/-- A throttled `cfs_rq` remembers since when. -/
theorem record_inv (h : Inv s) (clock : Nat) : Inv (recordThrottleClock s cpu clock) := by
  unfold recordThrottleClock
  split
  · rename_i hthrottled
    refine InvBut.inv ((h.but cpu).replace h.warned (fun c hc => set_of_ne hc s _) (fun _ _ => rfl) h.nodup
      (fun _ _ => Iff.rfl) ?_ ?_ (fun hfalse => ?_) h.active) ?_
    · simpa using h.listed cpu
    · simpa using h.locals cpu
    · rw [set_self] at hfalse
      exact absurd (hthrottled.1.symm.trans hfalse) (by decide)
    · simpa using h.spent cpu (Option.some_ne_none cpu).symm
  · exact h

/-- Giving runtime back changes the amount in the pool, and maybe a timer. -/
theorem giveToPool_frame (slice slack : Nat) (soon : Bool) (b : CfsBandwidth n) :
    (giveToPool slice slack soon b).throttledCfsRq = b.throttledCfsRq ∧ (giveToPool slice slack soon b).quota = b.quota ∧
      (giveToPool slice slack soon b).periodActive = b.periodActive := by
  unfold giveToPool
  split
  · exact ⟨rfl, rfl, rfl⟩
  · dsimp only
    split <;> exact ⟨rfl, rfl, rfl⟩

/-- A queue gives back only what it has beyond `min_cfs_rq_runtime`. -/
theorem giveBack_inv (h : Inv s) (soon : Bool) : Inv (returnCfsRqRuntime slice s cpu soon) := by
  unfold returnCfsRqRuntime
  dsimp only
  split
  · exact h
  · rename_i hslack
    have hpos : 0 < (s.rq cpu).runtimeRemaining - minCfsRqRuntime := not_le.1 (not_or.1 hslack).2
    obtain ⟨hlist, hquota, hactive⟩ := giveToPool_frame slice ((s.rq cpu).runtimeRemaining - minCfsRqRuntime).toNat soon s.b
    refine InvBut.inv (((h.but cpu).setB hlist ?_).set rfl rfl rfl) fun ht hcsd => ?_
    · unfold CfsBandwidth.Awaited
      rw [hquota, hactive]
      exact h.active
    · -- a throttled one has nothing to give back
      have hspent := h.spent cpu (Option.some_ne_none cpu).symm (by simpa using ht) (by simpa using hcsd)
      unfold minCfsRqRuntime at hpos
      omega

/-- `unthrottle_cfs_rq_async` on a throttled `cfs_rq` with runtime that nobody is about to unthrottle. -/
theorem async_inv (h : InvBut (some cpu) s) (hthrottled : (s.rq cpu).throttled = true) (hpos : 0 < (s.rq cpu).runtimeRemaining)
    (hcsd : (s.rq cpu).csd = .none) : Inv (unthrottleCfsRqAsync thisCpu s cpu) := by
  have hwrong : (!(s.rq cpu).throttled || decide ((s.rq cpu).runtimeRemaining ≤ 0)) = false := by
    rw [hthrottled, decide_eq_false (not_le.2 hpos)]
    rfl
  have hqueued : decide ((s.rq cpu).csd ≠ .none) = false := decide_eq_false (not_not.2 hcsd)
  unfold unthrottleCfsRqAsync
  simp only [hwrong, warn_false, hqueued, Bool.false_eq_true, if_false]
  split
  · exact h.unthrottle
  · have hlocal := h.locals cpu
    rw [hcsd] at hlocal
    refine InvBut.inv (h.replace h.warned (fun c hc => set_of_ne hc s _) (fun _ _ => rfl) h.nodup (fun _ _ => Iff.rfl) ?_ ?_ ?_
      h.active) ?_
    · simpa using h.listed cpu
    · simpa using hlocal
    · simpa using h.clock cpu
    · simp

/-- The `cfs_rq` of the own CPU goes to the local list, which is empty. -/
theorem ontoLocal_inv (h : InvBut (some cpu) s) :
    Inv { s.set cpu fun rq => { rq with csd := .onStack } with
      localUnthrottle := Function.update s.localUnthrottle cpu [cpu] } := by
  refine InvBut.inv (h.replace h.warned (fun c hc => ?_) (fun c hc => Function.update_of_ne hc _ _) h.nodup
    (fun _ _ => Iff.rfl) ?_ ?_ ?_ h.active) ?_
  · exact set_of_ne hc s fun rq => { rq with csd := .onStack }
  · simpa using h.listed cpu
  · simp
  · simpa using h.clock cpu
  · simp

/-- A queue that gets enough runtime is unthrottled, or put on a list for that. -/
theorem distributeOne_inv (h : Inv s) (remaining : Nat) (throttled : Bool) :
    Inv (distributeOne thisCpu cpu s remaining throttled).1 := by
  unfold distributeOne
  split
  · exact h
  · rename_i hskip
    obtain ⟨hthrottled, hcsd⟩ := not_or.1 hskip
    have hthrottled := not_not.1 hthrottled
    have hcsd := not_not.1 hcsd
    have hspent := h.spent cpu (Option.some_ne_none cpu).symm hthrottled hcsd
    rw [decide_eq_false (not_lt.2 hspent), warn_false]
    have hgiven : InvBut (some cpu) ((s.setB fun b =>
        { b with runtime := b.runtime - min (1 - (s.rq cpu).runtimeRemaining).toNat s.b.runtime }).set cpu fun rq =>
        { rq with runtimeRemaining := rq.runtimeRemaining + (min (1 - (s.rq cpu).runtimeRemaining).toNat s.b.runtime : Nat) }) :=
      ((h.but cpu).setB rfl h.active).set rfl rfl rfl
    dsimp only
    split
    · rename_i hpos
      split
      · exact async_inv hgiven (by simpa using hthrottled) hpos (by simpa using hcsd)
      · rename_i hown
        obtain rfl := not_not.1 hown
        have hempty : s.localUnthrottle cpu = [] := by
          rw [h.locals cpu, hcsd]
          rfl
        simp only [set_local, setB_local, hempty, List.isEmpty_nil, Bool.not_true, warn_false, List.nil_append]
        exact ontoLocal_inv hgiven
    · rename_i hnot
      exact hgiven.inv fun _ _ => not_lt.1 hnot

/-! ## Timers and configuration -/

/-- The period timer stops only when nothing is throttled, or without a quota. -/
theorem periodTimer_stop (b : CfsBandwidth n) (hstop : (periodTimer b).2.1 = true) (hquota : b.quota ≠ runtimeInf) :
    b.throttledCfsRq = [] := by
  unfold periodTimer at hstop
  rw [if_neg hquota] at hstop
  dsimp only at hstop
  cases hlist : b.throttledCfsRq with
  | nil => rfl
  | cons c l => simp [hlist] at hstop

@[simp] theorem refill_list (b : CfsBandwidth n) : (refill b).throttledCfsRq = b.throttledCfsRq := by unfold refill; split <;> rfl

@[simp] theorem refill_quota (b : CfsBandwidth n) : (refill b).quota = b.quota := by unfold refill; split <;> rfl

@[simp] theorem refill_active (b : CfsBandwidth n) : (refill b).periodActive = b.periodActive := by unfold refill; split <;> rfl

/-- The timer changes only the pool, and `idle`. -/
theorem periodTimer_frame (b : CfsBandwidth n) : (periodTimer b).1.throttledCfsRq = b.throttledCfsRq ∧
    (periodTimer b).1.quota = b.quota ∧ (periodTimer b).1.periodActive = b.periodActive := by
  unfold periodTimer
  split
  · exact ⟨rfl, rfl, rfl⟩
  · dsimp only
    split
    · exact ⟨refill_list b, refill_quota b, refill_active b⟩
    · split <;> exact ⟨refill_list b, refill_quota b, refill_active b⟩

/-- A round of the period timer, which goes on as long as a queue is throttled. -/
theorem period_inv (h : Inv s) (scaled last : Bool) : Inv (next slice s (.period scaled last)) := by
  obtain ⟨hlist, hquota, hactive⟩ := periodTimer_frame s.b
  have hstop := periodTimer_stop s.b
  unfold Inv next
  refine h.setB ?_ ?_
  · unfold periodRound
    split
    · rfl
    · dsimp only
      split <;> split <;> exact hlist
  · unfold periodRound
    split
    · exact h.active
    · rename_i hrunning
      have hrunning := hactive.trans (not_not.1 hrunning)
      generalize periodTimer s.b = r at hlist hquota hactive hstop hrunning
      dsimp only
      split
      · rename_i hlast
        intro hawaited hne
        by_cases hinf : s.b.quota = runtimeInf
        · exfalso
          cases scaled with
          | false => exact hawaited.1 (hquota.trans hinf)
          | true => exact hawaited.2 (congrArg (· * 2 % 2 ^ 64) (hquota.trans hinf))
        · exact absurd (hstop hlast.2 hinf) hne
      · intro _ _
        cases scaled <;> exact hrunning

/-- After a distribution the timer goes on. -/
theorem periodEnd_inv (h : Inv s) (scaled : Bool) : Inv (next slice s (.periodEnd scaled)) := by
  unfold Inv next
  refine h.setB ?_ ?_
  · unfold periodRoundEnd
    split
    · rfl
    · cases scaled <;> rfl
  · unfold periodRoundEnd
    split
    · exact h.active
    · rename_i hrunning
      intro _ _
      cases scaled <;> exact not_not.1 hrunning

/-- With a limit the timer runs, and without one no invariant is about it. -/
theorem configure_inv (h : Inv s) (quota burst : Nat) : Inv (next slice s (.configure quota burst)) := by
  unfold Inv next
  refine h.setB ?_ ?_
  · unfold setCfsBandwidth
    dsimp only
    split <;> simp [startCfsBandwidth]
  · unfold setCfsBandwidth
    dsimp only
    split
    · exact fun _ _ => rfl
    · rename_i hinf
      intro hawaited
      exact absurd (by simpa using hawaited.1) hinf

/-- A queue that is configured gets a runtime of 1, and is unthrottled. -/
theorem configureRq_inv (h : Inv s) (enabled : Bool) : Inv (setCfsRqBandwidth s cpu enabled) := by
  unfold setCfsRqBandwidth
  have hset : InvBut (some cpu) (s.set cpu fun rq => { rq with runtimeEnabled := enabled, runtimeRemaining := 1 }) :=
    (h.but cpu).set rfl rfl rfl
  dsimp only
  split
  · exact hset.unthrottle
  · rename_i hnot
    exact hset.inv fun ht => absurd ht hnot

/-- A CPU that goes offline unthrottles its queue, with a runtime of 1. -/
theorem offline_inv (h : Inv s) : Inv (unthrottleOffline s cpu) := by
  unfold unthrottleOffline
  split
  · exact h
  · have hset : InvBut (some cpu) (s.set cpu fun rq => { rq with runtimeEnabled := false }) := (h.but cpu).set rfl rfl rfl
    dsimp only
    split
    · rename_i hnot
      exact hset.inv fun ht => absurd ht hnot
    · exact (hset.set rfl rfl rfl).unthrottle

/-- A CPU that comes online has its accounting switched on if there is a limit. -/
theorem online_inv (h : Inv s) : Inv (updateRuntimeEnabled s cpu) := by
  unfold updateRuntimeEnabled
  refine InvBut.inv ((h.but cpu).set rfl rfl rfl) fun ht hcsd => ?_
  simp only [set_self] at ht hcsd ⊢
  exact h.spent cpu (Option.some_ne_none cpu).symm ht hcsd

/-! ## Runs -/

/-- Every act keeps the invariant. -/
theorem next_inv (h : Inv s) (act : Act n) : Inv (next slice s act) := by
  cases act with
  | account cpu deltaExec => exact account_inv h deltaExec
  | checkEnqueue cpu => exact checkEnqueue_inv h
  | checkRuntime cpu => exact checkRuntime_inv h
  | record cpu clock => exact record_inv h clock
  | giveBack cpu soon => exact giveBack_inv h soon
  | visit thisCpu cpu => exact distributeOne_inv h 1 false
  | finishLocal thisCpu => exact unthrottleLocal_inv h
  | csd cpu => exact csdUnthrottle_inv h
  | period scaled last => exact period_inv h scaled last
  | periodEnd scaled => exact periodEnd_inv h scaled
  | slack => exact InvBut.setB h (f := fun b => { b with slackStarted := false }) rfl h.active
  | configure quota burst => exact configure_inv h quota burst
  | configureRq cpu enabled => exact configureRq_inv h enabled
  | offline cpu => exact offline_inv h
  | online cpu => exact online_inv h

/-- A new group has no limit, and no queue of it is throttled. -/
theorem initGroup_inv (n : Nat) : Inv (initGroup n) where
  warned := rfl
  nodup := List.nodup_nil
  listed _ := by simp [initGroup]
  spent _ _ ht := absurd ht Bool.false_ne_true
  locals _ := rfl
  clock _ _ := rfl
  active hawaited := absurd rfl hawaited.1

/-- The invariant along a run. -/
theorem run_inv (h : Inv s) (acts : List (Act n)) : Inv (run slice s acts) := by
  induction acts generalizing s with
  | nil => exact h
  | cons act acts ih => exact ih (next_inv h act)

end OsLab.Bandwidth
