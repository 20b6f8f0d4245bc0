import OsLab.Lemmas.RtAdmissionInv

/-!
# The bandwidth given to real-time groups

Over every order of the calls, of the parts of `sched_rt_handler`, and of groups that come and go.
-/

namespace OsLab.RtAdmission

open TaskGroup Descend

variable {G : Type} {root : G} {s : State G} {fuel : Nat}

/-- The share of a CPU that the tasks of a group may take, in parts of 2 ^ 20 and rounded down. -/
def State.share (s : State G) (g : G) : Nat := if s.rtRuntime g = runtimeInf then 2 ^ 20 else s.rtRuntime g * 2 ^ 20 / s.rtPeriod g

/-- The share is what the walk computes. -/
theorem Inv.share_eq {n : Nat} (h : Inv root n s) {g : G} (hg : g ∈ s.groups.taskGroups) : s.share g = s.ratio g := by
  unfold State.share State.ratio
  split
  · next hinf => exact (if_pos hinf).symm
  · next hinf => exact ((h.fits g hg).toRatio_eq hinf).symm

variable [DecidableEq G]

/-- Groups none of which is below another have no more than the root together. -/
theorem Inv.sum_share_le {n : Nat} (h : Inv root n s) (S : Finset G) (hS : ∀ g ∈ S, g ∈ s.groups.taskGroups)
    (hanti : IsAntichain (Relation.TransGen (ChildOf s.groups.children)) (S : Set G)) : ∑ g ∈ S, s.share g ≤ s.ratio root := by
  obtain ⟨k, hshallow⟩ := h.tree.shallow
  have hmem : ∀ {g}, g ∈ preorder s.groups.children k root ↔ g ∈ s.groups.taskGroups := fun {g} =>
    hshallow.mem_preorder.trans (h.tree.listed g).symm
  calc ∑ g ∈ S, s.share g = ∑ g ∈ S, s.ratio g := Finset.sum_congr rfl fun g hg => h.share_eq (hS g hg)
    _ ≤ s.ratio root :=
      antichain_le s.ratio hshallow (fun g hg => h.sums g (hmem.1 hg)) S hanti fun g hg => hmem.2 (hS g hg)

/-- Groups none of which is below another never have more than one CPU together, each share rounded down as `to_ratio` does. They
have no more than the global share, if no bandwidth was changed while `sched_rt_handler` was at work and it is not at work now. -/
theorem rt_shares_fit (acts : List (Act G)) (hacts : acts.length < 2 ^ 44) (hrun : run root fuel (start root) acts = some s)
    (S : Finset G) (hS : ∀ g ∈ S, g ∈ s.groups.taskGroups)
    (hanti : IsAntichain (Relation.TransGen (ChildOf s.groups.children)) (S : Set G)) :
    ∑ g ∈ S, s.share g ≤ 2 ^ 20 ∧
      (s.raced = false → s.handler = .idle → ∑ g ∈ S, s.share g ≤ globalRatio s.sysctlPeriod s.sysctlRuntime) := by
  have h : Inv root (0 + acts.length) s := run_inv (start_inv root) (by omega) hrun
  refine ⟨(h.sum_share_le S hS hanti).trans (h.fits root h.tree.root_mem).toRatio_le, fun hraced hidle => ?_⟩
  refine (h.sum_share_le S hS hanti).trans (h.under hraced _ ?_ root h.tree.root_mem)
  simp [State.limits, hidle]

/-- Two groups with 600 ms and 350 ms of a second, and a third that is refused 1 ms of it. A task is attached to the first and one
is boosted in the second, which keep their runtime then. -/
def threeGroups : List (Act (Fin 4)) :=
  [.create 1 0, .create 2 0, .create 3 0, .setRuntime 1 1000000000 600000, .setRuntime 2 1000000000 350000,
    .setRuntime 3 1000000000 1000, .canAttach 1, .attach 1 true, .setRuntime 1 1000000000 0, .turnRt 2, .setRuntime 2 1000000000 0]

/-- The three groups are on a level, and have what is given to them all. -/
theorem rt_shares_fit_three : ∃ s, run 0 20 (start 0) threeGroups = some s ∧ s.groups.taskGroups = [0, 1, 2, 3] ∧
    [1, 2, 3].map s.rtRuntime = [600000000, 350000000, 0] ∧ ∑ g ∈ {1, 2, 3}, s.share g ≤ globalRatio 1000000 950000 := by
  have hview : (run 0 20 (start 0) threeGroups).map (fun s => (s.groups.taskGroups, [1, 2, 3].map s.rtRuntime,
      [1, 2, 3].map s.groups.children)) = some ([0, 1, 2, 3], [600000000, 350000000, 0], [[], [], []]) := by rfl
  have hglobal : (run 0 20 (start 0) threeGroups).map (fun s => (s.sysctlPeriod, s.sysctlRuntime, s.handler, s.raced)) =
      some (1000000, 950000, .idle, false) := by rfl
  obtain ⟨s, hrun, hs⟩ := Option.map_eq_some_iff.1 hview
  rw [hrun] at hglobal
  simp only [List.map_cons, List.map_nil, Prod.mk.injEq, List.cons.injEq, Option.map_some, Option.some.injEq] at hs hglobal
  obtain ⟨hgroups, hruntime, hone, htwo, hthree, -⟩ := hs
  obtain ⟨hperiod, hrt, hidle, hraced⟩ := hglobal
  refine ⟨s, hrun, hgroups, by simp [hruntime], ?_⟩
  have hle := (rt_shares_fit threeGroups (by decide) hrun {1, 2, 3}
    (by simp [hgroups]) (antichain_of_leaves (by simp [*]))).2 hraced hidle
  rwa [hperiod, hrt] at hle

-- a period below the runtime is refused, but until it is, the root can have the whole CPU
example : (run 0 20 (start (0 : Fin 1)) [.writePeriod 1000, .setRuntime 0 1000000000 1000000, .validate]).map
    (fun s => (decide (globalRatio s.sysctlPeriod s.sysctlRuntime < s.share 0), s.handler)) = some (true, .idle) := by rfl

/-- As long as the global runtime has never been -1, no group has lost its runtime between the two parts of an attachment, and no
group without runtime has got a real-time task unasked, no group has a real-time task and no runtime. -/
theorem rt_tasks_have_runtime (acts : List (Act G)) (hacts : acts.length < 2 ^ 44) (hrun : run root fuel (start root) acts = some s)
    (hever : s.everDisabled = false) (hcrossed : s.crossed = false) (hasked : s.unasked = false) (g : G)
    (hg : g ∈ s.groups.taskGroups) (htasks : s.rtTasks g = true) : s.rtRuntime g ≠ 0 := by
  have h : Inv root (0 + acts.length) s := run_inv (start_inv root) (by omega) hrun
  exact h.tasks hever hcrossed hasked g hg (.inl htasks)

/-- The two groups with real-time tasks have runtime. -/
theorem rt_tasks_have_runtime_three : ∃ s, run 0 20 (start 0) threeGroups = some s ∧ s.rtTasks 1 = true ∧ s.rtTasks 2 = true ∧
    s.rtRuntime 1 ≠ 0 ∧ s.rtRuntime 2 ≠ 0 := by
  have hview : (run 0 20 (start 0) threeGroups).map
      (fun s => (s.groups.taskGroups, s.rtTasks 1, s.rtTasks 2, s.everDisabled, s.crossed,
      s.unasked)) = some ([0, 1, 2, 3], true, true, false, false, false) := by rfl
  obtain ⟨s, hrun, hs⟩ := Option.map_eq_some_iff.1 hview
  simp only [Prod.mk.injEq] at hs
  obtain ⟨hgroups, hone, htwo, hever, hcrossed, hasked⟩ := hs
  have hruntime := rt_tasks_have_runtime threeGroups (by decide) hrun hever hcrossed hasked
  exact ⟨s, hrun, hone, htwo, hruntime 1 (by simp [hgroups]) hone, hruntime 2 (by simp [hgroups]) htwo⟩

-- the second part of an attachment does not look at the runtime again
example : (run 0 20 (start (0 : Fin 2)) [.create 1 0, .setRuntime 1 1000000000 1000, .canAttach 1, .setRuntime 1 1000000000 0,
    .attach 1 true]).map (fun s => (s.rtTasks 1, s.rtRuntime 1, s.crossed)) = some (true, 0, true) := by rfl

-- a boosted task does not need any
example : (run 0 20 (start (0 : Fin 2)) [.create 1 0, .turnRt 1]).map (fun s => (s.rtTasks 1, s.rtRuntime 1, s.unasked)) =
    some (true, 0, true) := by rfl

end OsLab.RtAdmission
