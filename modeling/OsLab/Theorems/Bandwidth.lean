import OsLab.Lemmas.BandwidthDistribute
import OsLab.Lemmas.BandwidthTotal

/-!
# Bandwidth control

The acts of the CPUs and of the timers come in any order, with changes of the quota and of the CPUs that are online among them.
-/

namespace OsLab.Bandwidth

variable {n : Nat}

/-- In every run of a new group no `WARN_ON_ONCE` of `throttle_cfs_rq`, of `distribute_cfs_runtime` or of the asynchronous
unthrottling fires; the list holds the throttled `cfs_rq`s, each once; one that nobody is about to unthrottle has used up its
runtime; and while something is throttled and there is a quota, the period timer is running. -/
theorem throttling_protocol (slice : Nat) (acts : List (Act n)) (cpu : Fin n) :
    let s := run slice (initGroup n) acts
    s.warned = false ∧ s.b.throttledCfsRq.Nodup ∧ (cpu ∈ s.b.throttledCfsRq ↔ (s.rq cpu).throttled = true) ∧
      (Waiting s cpu → (s.rq cpu).runtimeRemaining ≤ 0) ∧
      (s.b.Awaited → s.b.throttledCfsRq ≠ [] → s.b.periodActive = true) := by
  have h : Inv (run slice (initGroup n) acts) := run_inv (initGroup_inv n) acts
  exact ⟨h.warned, h.nodup, h.listed cpu, fun hw => h.spent cpu (Option.some_ne_none cpu).symm hw.1 hw.2, h.active⟩

-- The quota is lifted while one CPU is throttled, and before that CPU is told the timer finds its period too short.
example : let s := run 5 (initGroup 1) [.configure 10 0, .configureRq 0 true, .account 0 20, .checkRuntime 0,
      .configure runtimeInf 0, .period true true]
    s.b.throttledCfsRq = [0] ∧ s.b.quota ≠ runtimeInf ∧ s.b.periodActive = false := by decide

/-- Between two changes of the configuration a group runs for no longer than what there was, a quota for every period, and what its
`cfs_rq`s owe in the end. -/
theorem consumed_le (slice : Nat) (s : TaskGroup n) (acts : List (Act n)) (hquota : s.b.quota ≠ runtimeInf)
    (hacts : ∀ act ∈ acts, act.reconfigures = false) :
    Ledger.charged (next slice) consumed s acts ≤
      total s + acts.countP Act.isPeriod * s.b.quota + debt (run slice s acts) := by
  have hrun := Ledger.charged_le (next slice) consumed (fun act => if act.isPeriod then (s.b.quota : Int) else 0) total
    (P := fun t => t.b.quota = s.b.quota) (Q := fun act : Act n => act.reconfigures = false)
    (fun t act ht hact => ((next_total (ht ▸ hquota) hact).1.trans ht)) (fun t act ht hact => ?_) rfl hacts
  · have hdebt := neg_debt_le_total (run slice s acts)
    rw [Ledger.sum_map_ite] at hrun
    unfold run at hdebt ⊢
    omega
  · rw [← ht]
    exact (next_total (ht ▸ hquota) hact).2

/-- One CPU runs for 20 on a quota of 10 and one period, and owes the rest. -/
theorem consumed_le_twenty :
    let s : TaskGroup 1 := run 5 (initGroup 1) [.configure 10 0, .configureRq 0 true]
    let acts : List (Act 1) := [.account 0 20, .checkRuntime 0, .period false false, .visit 0 0]
    20 = Ledger.charged (next 5) consumed s acts ∧
      Ledger.charged (next 5) consumed s acts ≤ total s + acts.countP Act.isPeriod * s.b.quota + debt (run 5 s acts) :=
  ⟨by decide, consumed_le 5 _ _ (by decide) (by decide)⟩

/-- A pass of `distribute_cfs_runtime` with nobody else acting, in any state a group can come to. If it says that something is
still throttled the pool is empty, so that the period timer does not go round again; if not, nobody waits. Who has got something
stands behind nobody that still waits, and who does not wait any more has got one nanosecond over its debt. -/
theorem distribute_in_order (slice : Nat) (acts : List (Act n)) (thisCpu : Fin n)
    (hlocal : (run slice (initGroup n) acts).localUnthrottle thisCpu = []) :
    let s := run slice (initGroup n) acts
    let r := distributeCfsRuntime thisCpu s
    (r.2 = true → r.1.b.runtime = 0) ∧ (r.2 = false → ∀ cpu, ¬Waiting r.1 cpu) ∧
      (s.b.throttledCfsRq.Pairwise fun earlier later =>
        (r.1.rq later).runtimeRemaining ≠ (s.rq later).runtimeRemaining → ¬Waiting r.1 earlier) ∧
      ∀ cpu, Waiting s cpu → ¬Waiting r.1 cpu → (r.1.rq cpu).runtimeRemaining = 1 := by
  have h : Inv (run slice (initGroup n) acts) := run_inv (initGroup_inv n) acts
  have hpass := distribute_pass h hlocal
  exact ⟨hpass.pool, hpass.none, hpass.fifo, hpass.exact⟩

/-- Two CPUs are throttled, and what a period brings is enough for the first only. -/
theorem distribute_in_order_two :
    let acts : List (Act 2) := [.configure 10 0, .configureRq 0 true, .configureRq 1 true, .account 1 20, .checkRuntime 1,
      .account 0 4, .checkRuntime 0, .period false false]
    let s := run 5 (initGroup 2) acts
    let r := distributeCfsRuntime 0 s
    s.b.throttledCfsRq = [1, 0] ∧ r.2 = true ∧ r.1.b.runtime = 0 ∧
      ∀ cpu, Waiting s cpu → ¬Waiting r.1 cpu → (r.1.rq cpu).runtimeRemaining = 1 :=
  have hpass := distribute_in_order 5 [.configure 10 0, .configureRq (0 : Fin 2) true, .configureRq 1 true, .account 1 20,
    .checkRuntime 1, .account 0 4, .checkRuntime 0, .period false false] 0 (by decide)
  ⟨by decide, by decide, hpass.1 (by decide), hpass.2.2.2⟩

end OsLab.Bandwidth
