import OsLab.Lemmas.RtRuntimeInv

/-!
# Runtime does not leak

`__disable_runtime` warns when it is left wanting, "that would mean some runtime leaked out of the system".
-/

namespace OsLab.RtRuntime

variable {n : Nat}

/-- After `tg_set_rt_bandwidth` with all CPUs up, the CPUs that are online have the runtime of the group each, on average, whenever
nobody is moving it: in every run, whatever is borrowed, and whichever CPUs go down and come back. `__disable_runtime` is never
left wanting, no runtime comes below nothing, and only a CPU that is online is throttled. -/
theorem runtime_conserved (s₀ : RtGroup n) (rtPeriod R : Int) (hperiod : 0 ≤ rtPeriod) (hR : 0 ≤ R) (hfits : n * R < runtimeInf)
    (honline : ∀ cpu, (s₀.rq cpu).online = true) (hfree : s₀.holder = .free) (hwarned : s₀.warned = false) (acts : List (Act n)) :
    let s := run (tgSetRtBandwidth s₀ rtPeriod R) acts
    let up := Finset.univ.filter fun cpu => (s.rq cpu).online = true
    s.warned = false ∧ (∀ cpu ∈ up, 0 ≤ (s.rq cpu).rtRuntime ∧ (s.rq cpu).rtRuntime ≤ n * R) ∧
      (s.holder = .free → ∑ cpu ∈ up, (s.rq cpu).rtRuntime = up.card * R) ∧
      ∀ cpu, (s.rq cpu).rtThrottled = true → (s.rq cpu).online = true := by
  have h₀ : Inv R (tgSetRtBandwidth s₀ rtPeriod R) := by
    refine ⟨hperiod, rfl, hwarned, fun cpu hoff => ?_, fun cpu _ => ⟨hR, ?_⟩, ?_⟩
    · exact absurd (honline cpu) (Bool.eq_false_iff.1 hoff)
    · exact le_mul_of_one_le_left hR (by exact_mod_cast cpu.pos)
    · show Phase R _ s₀.holder
      rw [hfree]
      have heven : ∑ cpu, ((tgSetRtBandwidth s₀ rtPeriod R).rq cpu).beyond R = 0 := by simp [RtRq.beyond, tgSetRtBandwidth]
      exact heven
  have h : Inv R (run (tgSetRtBandwidth s₀ rtPeriod R) acts) := run_inv hR hfits h₀ acts
  refine ⟨h.warned, fun cpu hup => h.bounds cpu (Finset.mem_filter.1 hup).2, fun hholder => ?_, fun cpu hthrottled => ?_⟩
  · have hphase := h.phase
    rw [hholder] at hphase
    have heven : ∑ cpu, ((run (tgSetRtBandwidth s₀ rtPeriod R) acts).rq cpu).beyond R = 0 := hphase
    unfold RtRq.beyond at heven
    rw [← Finset.sum_filter, Finset.sum_sub_distrib, Finset.sum_const, nsmul_eq_mul] at heven
    exact sub_eq_zero.1 heven
  · by_contra hoff
    rw [(h.offline cpu (Bool.eq_false_iff.2 hoff)).2] at hthrottled
    exact Bool.false_ne_true hthrottled

/-- Two CPUs that are up. -/
def twoUp : RtGroup 2 where
  rtPeriod := 100
  rtRuntime := 0
  rq _ := { rtRuntime := 0, rtTime := 0, rtThrottled := false, online := true }
  holder := .free
  warned := false

/-- One borrows from the other, which then goes down. -/
theorem runtime_conserved_two :
    let s := run (tgSetRtBandwidth twoUp 100 10)
      [.charge 0 15, .beginBalance 0, .loop, .loop, .loop, .disable 1, .charge 0 5, .loop, .exceeded 0, .loop]
    (s.rq 0).rtTime = 20 ∧ (s.rq 0).rtThrottled = true ∧ (s.rq 1).online = false ∧ s.warned = false :=
  ⟨by decide, by decide, by decide,
    (runtime_conserved twoUp 100 10 (by decide) (by decide) (by decide) (by decide) rfl rfl _).1⟩

-- While a CPU is down `tg_set_rt_bandwidth` gives it a runtime as well, which can be borrowed; coming up it has its runtime again.
example : let up := tgSetRtBandwidth twoUp 100 10
    let s := run (tgSetRtBandwidth (run up [.disable 1]) 100 10)
      [.charge 0 15, .beginBalance 0, .loop, .loop, .loop, .enable 1, .disable 0, .loop, .loop, .loop,
        .disable 1, .loop, .loop, .loop]
    s.warned = true := by decide

end OsLab.RtRuntime
