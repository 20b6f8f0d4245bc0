import OsLab.RtAdmission
import OsLab.Lemmas.TaskGroupTree
import OsLab.Lemmas.TaskGroupWalk
import Mathlib.Algebra.Order.BigOperators.Group.List

/-!
# What holds of the bandwidths between the acts

A walk that refuses nothing has looked at every group of the tree, so each group has room for its children. The sums of the walk do
not wrap while there are fewer than 2 ^ 44 groups, and no runtime is so long that `to_ratio` shifts bits out.
-/

namespace OsLab.RtAdmission

open TaskGroup Descend

variable {G : Type} {root tg : G} {s s' : State G} {d : RtSchedulableData G} {fuel n : Nat}

/-- The share of a CPU a group has. -/
def State.ratio (s : State G) (g : G) : Nat := toRatio (s.rtPeriod g) (s.rtRuntime g)

/-- No more runtime than period, and none that is too long for the shift. -/
def Fits (period runtime : Nat) : Prop := runtime = runtimeInf ∨ runtime ≤ period ∧ runtime ≤ maxRtRuntime

/-- The global shares that no group may exceed. -/
def State.limits (s : State G) : List Nat :=
  match s.handler with
  | .idle => [globalRatio s.sysctlPeriod s.sysctlRuntime]
  | .written oldPeriod oldRuntime => [globalRatio oldPeriod oldRuntime]
  | .validated oldPeriod oldRuntime => [globalRatio oldPeriod oldRuntime, globalRatio s.sysctlPeriod s.sysctlRuntime]

/-- The global runtimes that are, or may be again. -/
def State.runtimes (s : State G) : List Int :=
  match s.handler with
  | .idle => [s.sysctlRuntime]
  | .written _ oldRuntime => [oldRuntime, s.sysctlRuntime]
  | .validated _ oldRuntime => [oldRuntime, s.sysctlRuntime]

/-- What every act keeps; the second number is how many groups there can be below one. -/
structure Inv (root : G) (n : Nat) (s : State G) : Prop where
  tree : Tree s.groups root
  few : ∀ g, (s.groups.children g).length ≤ n
  fits : ∀ g ∈ s.groups.taskGroups, Fits (s.rtPeriod g) (s.rtRuntime g)
  sums : ∀ g ∈ s.groups.taskGroups, ((s.groups.children g).map s.ratio).sum ≤ s.ratio g
  under : s.raced = false → ∀ l ∈ s.limits, ∀ g ∈ s.groups.taskGroups, s.ratio g ≤ l
  enabled : s.everDisabled = false → ∀ r ∈ s.runtimes, 0 ≤ r
  tasks : s.everDisabled = false → s.crossed = false → s.unasked = false → ∀ g ∈ s.groups.taskGroups,
    s.rtTasks g = true ∨ s.attaching g = true → s.rtRuntime g ≠ 0

/-! ## Shares -/

theorem toRatio_zero (period : Nat) : toRatio period 0 = 0 := by
  unfold toRatio
  rw [if_neg (by decide)]
  split <;> simp

/-- Nothing is shifted out: the share is exact, rounded down. -/
theorem Fits.toRatio_eq {period runtime : Nat} (h : Fits period runtime) (hinf : runtime ≠ runtimeInf) :
    toRatio period runtime = runtime * 2 ^ 20 / period := by
  obtain ⟨-, hmax⟩ := h.resolve_left hinf
  have hlt : runtime * 2 ^ 20 < 2 ^ 64 := by
    unfold maxRtRuntime at hmax
    omega
  unfold toRatio
  rw [if_neg hinf, Nat.mod_eq_of_lt hlt]
  split
  · next hzero => rw [hzero, Nat.div_zero]
  · rfl

/-- The share of a group is at most the whole. -/
theorem Fits.toRatio_le {period runtime : Nat} (h : Fits period runtime) : toRatio period runtime ≤ bwUnit := by
  by_cases hinf : runtime = runtimeInf
  · exact (if_pos hinf).le
  · rw [h.toRatio_eq hinf]
    exact Nat.div_le_of_le_mul (Nat.mul_le_mul_right _ (h.resolve_left hinf).1)

/-- A sum that may wrap at each step. -/
theorem foldl_wrap (f : G → Nat) (l : List G) (a : Nat) :
    l.foldl (fun sum c => (sum + f c) % 2 ^ 64) a % 2 ^ 64 = (a + (l.map f).sum) % 2 ^ 64 := by
  induction l generalizing a with
  | nil => rfl
  | cons c l ih =>
    rw [List.foldl_cons, ih, List.map_cons, List.sum_cons, Nat.mod_add_mod, Nat.add_assoc]

/-- The sum over the children, if they are not too many. -/
theorem foldl_eq_sum {f : G → Nat} {l : List G} (hf : ∀ c ∈ l, f c ≤ bwUnit) (hl : l.length < 2 ^ 44) :
    l.foldl (fun sum c => (sum + f c) % 2 ^ 64) 0 = (l.map f).sum := by
  have hsum : (l.map f).sum ≤ l.length * bwUnit := by
    have hcard := List.sum_le_card_nsmul (l.map f) bwUnit fun x hx => by
      obtain ⟨c, hc, rfl⟩ := List.mem_map.1 hx
      exact hf c hc
    simpa using hcard
  have hlt : (l.map f).sum < 2 ^ 64 := by
    unfold bwUnit at hsum
    omega
  have hwrap := foldl_wrap f l 0
  rw [Nat.zero_add, Nat.mod_eq_of_lt hlt] at hwrap
  rw [← hwrap]
  refine (Nat.mod_eq_of_lt ?_).symm
  cases l.eq_nil_or_concat with
  | inl hnil => rw [hnil]; exact Nat.two_pow_pos 64
  | inr hconcat =>
    obtain ⟨l', c, rfl⟩ := hconcat
    rw [List.concat_eq_append, List.foldl_append, List.foldl_cons, List.foldl_nil]
    exact Nat.mod_lt _ (Nat.two_pow_pos 64)

/-! ## The global values -/

/-- The global values are written; the groups are still under the old ones. -/
theorem Inv.periodWritten (h : Inv root n s) (hidle : s.handler = .idle) (v : Int) : Inv root n (writePeriod s v) := by
  unfold writePeriod
  split
  · exact h
  · have hunder := h.under
    have henabled := h.enabled
    simp only [State.limits, State.runtimes, hidle] at hunder henabled
    exact ⟨h.tree, h.few, h.fits, h.sums, hunder, fun hever => by simpa [State.runtimes] using henabled hever, h.tasks⟩

/-- The handler remembers the global runtime it overwrites. -/
theorem Inv.runtimeWritten (h : Inv root n s) (hidle : s.handler = .idle) (v : Int) : Inv root n (writeRuntime s v) := by
  unfold writeRuntime
  split
  · exact h
  · have hunder := h.under
    have henabled := h.enabled
    simp only [State.limits, State.runtimes, hidle] at hunder henabled
    refine ⟨h.tree, h.few, h.fits, h.sums, hunder, fun hever => ?_, fun hever => ?_⟩
    · rw [Bool.or_eq_false_iff, decide_eq_false_iff_not, not_lt] at hever
      have hold := henabled hever.1
      simp only [State.runtimes, List.mem_cons, List.not_mem_nil, or_false] at hold ⊢
      rintro r (rfl | rfl)
      · exact hold _ rfl
      · exact hever.2
    · exact h.tasks (Bool.or_eq_false_iff.1 hever).1

/-- Back to the old values. -/
theorem Inv.undone (h : Inv root n s) {oldPeriod : Nat} {oldRuntime : Int}
    (hhandler : s.handler = .written oldPeriod oldRuntime ∨ s.handler = .validated oldPeriod oldRuntime) :
    Inv root n (undo s oldPeriod oldRuntime) := by
  have hlimit : globalRatio oldPeriod oldRuntime ∈ s.limits := by
    unfold State.limits
    rcases hhandler with heq | heq <;> simp [heq]
  have hruntime : oldRuntime ∈ s.runtimes := by
    unfold State.runtimes
    rcases hhandler with heq | heq <;> simp [heq]
  refine ⟨h.tree, h.few, h.fits, h.sums, fun hraced l hl => ?_, fun hever r hr => ?_, h.tasks⟩
  · rw [List.mem_singleton.1 hl]
    exact h.under hraced _ hlimit
  · rw [List.mem_singleton.1 hr]
    exact h.enabled hever _ hruntime

/-- After the handler the new global share is the one that counts. -/
theorem Inv.done (h : Inv root n s) {oldPeriod : Nat} {oldRuntime : Int} (hhandler : s.handler = .validated oldPeriod oldRuntime) :
    Inv root n { s with handler := .idle } := by
  have hunder := h.under
  have henabled := h.enabled
  simp only [State.limits, State.runtimes, hhandler] at hunder henabled
  exact ⟨h.tree, h.few, h.fits, h.sums, fun hraced l hl => hunder hraced l (List.mem_cons_of_mem _ hl),
    fun hever r hr => henabled hever r (List.mem_cons_of_mem _ hr), h.tasks⟩

/-- The bound on the number of children may grow. -/
theorem Inv.mono (h : Inv root n s) : Inv root (n + 1) s := { h with few := fun g => Nat.le_succ_of_le (h.few g) }

/-- At first there is the root group, with no real-time task. -/
theorem start_inv (root : G) : Inv root 0 (start root) := by
  have hfits : Fits (globalRtPeriod 1000000) (globalRtRuntime 950000) := .inr (by decide)
  refine ⟨rootOnly_tree root, fun _ => Nat.le_refl 0, fun _ _ => hfits, fun _ _ => Nat.zero_le _, fun _ l hl g _ => ?_,
    fun _ r hr => ?_, fun _ _ _ g _ htasks => by rcases htasks with h | h <;> cases h⟩
  · rw [List.mem_singleton.1 hl]
    exact Nat.le_refl _
  · rw [List.mem_singleton.1 hr]
    exact Int.natCast_nonneg 950000

variable [DecidableEq G]

/-! ## The walk -/

/-- What a group that does not refuse has found. -/
theorem of_tgRtSchedulable (h : tgRtSchedulable s d tg = 0) :
    (s.runtime d tg = runtimeInf ∨ s.runtime d tg ≤ s.period d tg) ∧
      ¬(0 ≤ s.sysctlRuntime ∧ s.runtime d tg = 0 ∧ s.rtRuntime tg ≠ 0 ∧ s.rtTasks tg) ∧
      toRatio (s.period d tg) (s.runtime d tg) ≤ globalRatio s.sysctlPeriod s.sysctlRuntime ∧
      (s.groups.children tg).foldl (fun sum child => (sum + toRatio (s.period d child) (s.runtime d child)) % 2 ^ 64) 0 ≤
        toRatio (s.period d tg) (s.runtime d tg) := by
  unfold tgRtSchedulable at h
  dsimp only at h
  split at h
  · cases h
  · next hperiod =>
    split at h
    · cases h
    · next hbusy =>
      split at h
      · cases h
      · next hglobal =>
        split at h
        · cases h
        · next hsum => exact ⟨by omega, hbusy, Nat.le_of_not_lt hglobal, Nat.le_of_not_lt hsum⟩

/-- A walk that ends with 0 has ended with 0 at every group. -/
theorem of_rtSchedulable (htree : Tree s.groups root) (h : rtSchedulable root fuel s d = some 0) {g : G}
    (hg : g ∈ s.groups.taskGroups) : tgRtSchedulable s d g = 0 := by
  obtain ⟨k, hshallow⟩ := htree.shallow
  obtain ⟨r, hr, hzero⟩ := Option.map_eq_some_iff.1 h
  exact (look_eq_zero htree.linked hshallow hr).1 hzero g ((htree.listed g).1 hg)

/-- What a walk that refuses nothing has found of each group. -/
structure Accepted (s : State G) (d : RtSchedulableData G) (g : G) : Prop where
  fits : Fits (s.period d g) (s.runtime d g)
  sums : ((s.groups.children g).map fun c => toRatio (s.period d c) (s.runtime d c)).sum ≤ toRatio (s.period d g) (s.runtime d g)
  under : toRatio (s.period d g) (s.runtime d g) ≤ globalRatio s.sysctlPeriod s.sysctlRuntime
  tasks : ¬(0 ≤ s.sysctlRuntime ∧ s.runtime d g = 0 ∧ s.rtRuntime g ≠ 0 ∧ s.rtTasks g)

/-- What `tg_rt_schedulable` has accepted at a group, without the arithmetic of words. -/
theorem Inv.accepted (h : Inv root n s) (hn : n < 2 ^ 44) (hd : d.rtRuntime = runtimeInf ∨ d.rtRuntime ≤ maxRtRuntime)
    (haccept : rtSchedulable root fuel s d = some 0) {g : G} (hg : g ∈ s.groups.taskGroups) : Accepted s d g := by
  have hfits : ∀ {g}, g ∈ s.groups.taskGroups → Fits (s.period d g) (s.runtime d g) := fun {g} hg => by
    obtain ⟨hperiod, -⟩ := of_tgRtSchedulable (of_rtSchedulable h.tree haccept hg)
    have hmax : s.runtime d g = runtimeInf ∨ s.runtime d g ≤ maxRtRuntime := by
      unfold State.runtime
      split
      · exact hd
      · exact (h.fits g hg).imp_right And.right
    rcases hmax with hinf | hmax
    · exact .inl hinf
    · exact hperiod.imp_right fun hle => ⟨hle, hmax⟩
  obtain ⟨-, htasks, hunder, hsum⟩ := of_tgRtSchedulable (of_rtSchedulable h.tree haccept hg)
  refine ⟨hfits hg, ?_, hunder, htasks⟩
  rwa [foldl_eq_sum (fun c hc => (hfits (h.tree.mem_taskGroups hc)).toRatio_le) (Nat.lt_of_le_of_lt (h.few g) hn)] at hsum

/-! ## The acts -/

/-- A call leaves everything as it is, or the walk has refused nothing and the group has what was asked for. -/
theorem of_tgSetRtBandwidth {rtPeriod rtRuntime : Nat} {err : Int}
    (hset : tgSetRtBandwidth root fuel s tg rtPeriod rtRuntime = some (s', err)) :
    s' = s ∨ (rtRuntime = runtimeInf ∨ rtRuntime ≤ maxRtRuntime) ∧
      rtSchedulable root fuel s ⟨some tg, rtPeriod, rtRuntime⟩ = some 0 ∧
      s' = s.grant tg rtPeriod rtRuntime := by
  unfold tgSetRtBandwidth at hset
  split at hset
  · exact .inl (by cases hset; rfl)
  · split at hset
    · exact .inl (by cases hset; rfl)
    · split at hset
      · exact .inl (by cases hset; rfl)
      · next hmax =>
        obtain ⟨err', haccept, heq⟩ := Option.map_eq_some_iff.1 hset
        split at heq
        · exact .inl (by cases heq; rfl)
        · next hzero =>
          rw [not_not.1 hzero] at haccept
          exact .inr ⟨by omega, haccept, by cases heq; rfl⟩

/-- With no handler in between, the limit is what the walk has compared with. -/
theorem limits_of_not_raced {rtPeriod rtRuntime : Nat} (hraced : (s.grant tg rtPeriod rtRuntime).raced = false) {l : Nat}
    (hl : l ∈ s.limits) : l = globalRatio s.sysctlPeriod s.sysctlRuntime := by
  unfold State.grant at hraced
  unfold State.limits at hl
  split at hl
  · exact List.mem_singleton.1 hl
  · next hhandler => simp [hhandler] at hraced
  · next hhandler => simp [hhandler] at hraced

/-- A group is given what it asked for. -/
theorem Inv.grant (h : Inv root n s) {rtPeriod rtRuntime : Nat}
    (hok : ∀ g ∈ s.groups.taskGroups, Accepted s ⟨some tg, rtPeriod, rtRuntime⟩ g) :
    Inv root n (s.grant tg rtPeriod rtRuntime) := by
  have hperiod : s.period ⟨some tg, rtPeriod, rtRuntime⟩ = (s.grant tg rtPeriod rtRuntime).rtPeriod := by
    funext g
    simp only [State.period, State.grant, Function.update_apply, Option.some.injEq, eq_comm]
  have hruntime : s.runtime ⟨some tg, rtPeriod, rtRuntime⟩ = (s.grant tg rtPeriod rtRuntime).rtRuntime := by
    funext g
    simp only [State.runtime, State.grant, Function.update_apply, Option.some.injEq, eq_comm]
  refine ⟨h.tree, h.few, fun g hg => ?_, fun g hg => ?_, fun hraced l hl g hg => ?_, h.enabled,
    fun hever hcrossed hasked g hg htasks hzero => ?_⟩
  · have hfits := (hok g hg).fits
    rwa [hperiod, hruntime] at hfits
  · have hsums := (hok g hg).sums
    rwa [hperiod, hruntime] at hsums
  · have hunder := (hok g hg).under
    rw [hperiod, hruntime, ← limits_of_not_raced hraced hl] at hunder
    exact hunder
  · have henabled : 0 ≤ s.sysctlRuntime := h.enabled hever _ (by unfold State.runtimes; split <;> simp)
    obtain ⟨hnot, hcross⟩ := Bool.or_eq_false_iff.1 hcrossed
    have hhad : s.rtRuntime g ≠ 0 := h.tasks hever hnot hasked g hg htasks
    rcases htasks with htasks | hattach
    · -- a group that had runtime, and tasks, would have been busy
      exact (hok g hg).tasks ⟨henabled, (congrFun hruntime g).trans hzero, hhad, htasks⟩
    · by_cases heq : g = tg
      · subst heq
        simp only [State.grant, Function.update_self] at hzero
        simp [show s.attaching g = true from hattach, hzero] at hcross
      · simp only [State.grant, Function.update_of_ne heq] at hzero
        exact hhad hzero

/-- `tg_set_rt_bandwidth` changes one group, and only if the walk accepts it. -/
theorem Inv.set (h : Inv root n s) (hn : n < 2 ^ 44) {rtPeriod rtRuntime : Nat} {err : Int}
    (hset : tgSetRtBandwidth root fuel s tg rtPeriod rtRuntime = some (s', err)) : Inv root n s' := by
  rcases of_tgSetRtBandwidth hset with rfl | ⟨hmax, haccept, rfl⟩
  · exact h
  · exact h.grant fun g hg => h.accepted hn hmax haccept hg

/-- `sched_group_set_rt_runtime`, through `tg_set_rt_bandwidth`. -/
theorem Inv.setRuntime (h : Inv root n s) (hn : n < 2 ^ 44) {rtPeriod : Nat} {rtRuntimeUs err : Int}
    (hset : schedGroupSetRtRuntime root fuel s tg rtPeriod rtRuntimeUs = some (s', err)) : Inv root n s' := by
  unfold schedGroupSetRtRuntime at hset
  split at hset
  · exact h.set hn hset
  · split at hset
    · cases hset
      exact h
    · exact h.set hn hset

/-- `sched_group_set_rt_period`, through `tg_set_rt_bandwidth`. -/
theorem Inv.setPeriod (h : Inv root n s) (hn : n < 2 ^ 44) {rtRuntime rtPeriodUs : Nat} {err : Int}
    (hset : schedGroupSetRtPeriod root fuel s tg rtRuntime rtPeriodUs = some (s', err)) : Inv root n s' := by
  unfold schedGroupSetRtPeriod at hset
  split at hset
  · cases hset
    exact h
  · exact h.set hn hset

/-- The groups are under the new global values too. -/
theorem Inv.validated (h : Inv root n s) (hn : n < 2 ^ 44) {oldPeriod : Nat} {oldRuntime : Int}
    (hhandler : s.handler = .written oldPeriod oldRuntime) (hvalid : schedRtGlobalValidate root fuel s = some 0) :
    Inv root n { s with handler := .validated oldPeriod oldRuntime } := by
  have haccept : rtSchedulable root fuel s ⟨none, 0, 0⟩ = some 0 := by
    unfold schedRtGlobalValidate at hvalid
    split at hvalid
    · cases hvalid
    · exact hvalid
  have hunder := h.under
  have henabled := h.enabled
  simp only [State.limits, State.runtimes, hhandler] at hunder henabled
  refine ⟨h.tree, h.few, h.fits, h.sums, fun hraced l hl g hg => ?_, henabled, h.tasks⟩
  rcases List.mem_cons.1 hl with rfl | hl
  · exact hunder hraced _ (List.mem_singleton.2 rfl) g hg
  · rw [List.mem_singleton.1 hl]
    exact (h.accepted hn (.inr (Nat.zero_le _)) haccept hg).under

/-- The new group has no runtime, so that there is room for it. -/
theorem Inv.created (h : Inv root n s) {parent : G} (htg : tg ∉ s.groups.taskGroups) (hparent : parent ∈ s.groups.taskGroups) :
    Inv root (n + 1) (create s tg parent) := by
  have hchildren := children_online h.tree htg hparent
  have hratio : (create s tg parent).ratio tg = 0 := by
    simp [State.ratio, create, toRatio_zero]
  have hold : ∀ {g}, g ∈ s.groups.taskGroups → g ≠ tg := fun hg => ne_of_mem_of_not_mem hg htg
  have hsame : ∀ {g}, g ∈ s.groups.taskGroups → (create s tg parent).ratio g = s.ratio g := fun hg => by
    simp only [State.ratio, create, Function.update_of_ne (hold hg)]
  have hmap : ∀ g, ((s.groups.children g).map (create s tg parent).ratio) = (s.groups.children g).map s.ratio := fun g =>
    List.map_congr_left fun c hc => hsame (h.tree.mem_taskGroups hc)
  have hmem : ∀ {g}, g ∈ (create s tg parent).groups.taskGroups ↔ g ∈ s.groups.taskGroups ∨ g = tg := fun {g} => by
    simp [create, schedOnlineGroup]
  refine ⟨h.tree.online htg hparent, fun g => ?_, fun g hg => ?_, fun g hg => ?_, fun hraced l hl g hg => ?_, h.enabled,
    fun hever hcrossed hasked g hg htasks => ?_⟩
  · have hfew := h.few g
    rw [create, hchildren]
    split
    · exact Nat.succ_le_succ hfew
    · exact Nat.le_succ_of_le hfew
  · rcases hmem.1 hg with hg | rfl
    · simpa only [create, Function.update_of_ne (hold hg)] using h.fits g hg
    · simp [create, Fits]
  · rw [show (create s tg parent).groups.children g = _ from hchildren g]
    rcases hmem.1 hg with hg | rfl
    · rw [hsame hg]
      split
      · rw [List.map_cons, List.sum_cons, hratio, Nat.zero_add, hmap]
        exact h.sums g hg
      · rw [hmap]
        exact h.sums g hg
    · rw [if_neg (ne_parent htg hparent), h.tree.off g htg]
      exact Nat.zero_le _
  · rcases hmem.1 hg with hg | rfl
    · rw [hsame hg]
      exact h.under hraced l hl g hg
    · rw [hratio]
      exact Nat.zero_le l
  · rcases hmem.1 hg with hg | rfl
    · simp only [create, Function.update_of_ne (hold hg)] at htasks ⊢
      exact h.tasks hever hcrossed hasked g hg htasks
    · simp [create] at htasks

/-- A group without children goes. -/
theorem Inv.release (h : Inv root n s) (hroot : tg ≠ root) (hleaf : s.groups.children tg = []) :
    Inv root n { s with groups := schedReleaseGroup s.groups tg } := by
  have hsub : ∀ g, List.Sublist ((schedReleaseGroup s.groups tg).children g) (s.groups.children g) := fun g => by
    simp only [schedReleaseGroup]
    split
    · exact List.erase_sublist
    · exact List.Sublist.refl _
  have hmem : ∀ {g}, g ∈ (schedReleaseGroup s.groups tg).taskGroups → g ∈ s.groups.taskGroups := fun hg => List.mem_of_mem_erase hg
  exact ⟨h.tree.release hroot hleaf, fun g => ((hsub g).length_le).trans (h.few g), fun g hg => h.fits g (hmem hg),
    fun g hg => (((hsub g).map s.ratio).sum_le_sum fun _ _ => Nat.zero_le _).trans (h.sums g (hmem hg)),
    fun hraced l hl g hg => h.under hraced l hl g (hmem hg), h.enabled,
    fun hever hcrossed hasked g hg => h.tasks hever hcrossed hasked g (hmem hg)⟩

/-- Who may attach a real-time task has seen that the group has runtime. -/
theorem Inv.canAttach (h : Inv root n s) (tg : G) : Inv root n (canAttach s tg) := by
  unfold RtAdmission.canAttach
  split
  · next hcan =>
    refine ⟨h.tree, h.few, h.fits, h.sums, h.under, h.enabled, fun hever hcrossed hasked g hg htasks => ?_⟩
    by_cases heq : g = tg
    · rw [heq]
      exact of_decide_eq_true hcan
    · exact h.tasks hever hcrossed hasked g hg (by simpa only [Function.update_of_ne heq] using htasks)
  · exact h

/-- Whoever may be attached has runtime already. -/
theorem Inv.attach (h : Inv root n s) (hattach : s.attaching tg = true) (done : Bool) : Inv root n (attach s tg done) := by
  refine ⟨h.tree, h.few, h.fits, h.sums, h.under, h.enabled, fun hever hcrossed hasked g hg htasks => ?_⟩
  by_cases heq : g = tg
  · exact h.tasks hever hcrossed hasked g hg (.inr (heq ▸ hattach))
  · exact h.tasks hever hcrossed hasked g hg (by simpa only [RtAdmission.attach, Function.update_of_ne heq] using htasks)

/-- A group with no runtime is remembered. -/
theorem Inv.turnRt (h : Inv root n s) (tg : G) : Inv root n (turnRt s tg) := by
  refine ⟨h.tree, h.few, h.fits, h.sums, h.under, h.enabled, fun hever hcrossed hasked g hg htasks => ?_⟩
  obtain ⟨hasked, hruntime⟩ := Bool.or_eq_false_iff.1 hasked
  by_cases heq : g = tg
  · rw [heq]
    exact of_decide_eq_false hruntime
  · exact h.tasks hever hcrossed hasked g hg (by simpa only [RtAdmission.turnRt, Function.update_of_ne heq] using htasks)

/-- A group that loses its real-time tasks needs no runtime. -/
theorem Inv.detach (h : Inv root n s) (tg : G) : Inv root n { s with rtTasks := Function.update s.rtTasks tg false } := by
  refine ⟨h.tree, h.few, h.fits, h.sums, h.under, h.enabled, fun hever hcrossed hasked g hg htasks =>
    h.tasks hever hcrossed hasked g hg ?_⟩
  by_cases heq : g = tg
  · exact .inr (htasks.resolve_left (by simp [heq]))
  · simpa only [Function.update_of_ne heq] using htasks

/-! ## Runs -/

/-- Every act keeps the invariant, and adds at most one group. -/
theorem next_inv (h : Inv root n s) (hn : n < 2 ^ 44) {a : Act G} (hnext : next root fuel s a = some s') : Inv root (n + 1) s' := by
  cases a with
  | setRuntime tg rtPeriod rtRuntimeUs =>
    obtain ⟨-, hcall⟩ := Option.ite_none_right_eq_some.1 hnext
    obtain ⟨⟨t, err⟩, hset, rfl⟩ := Option.map_eq_some_iff.1 hcall
    exact (h.setRuntime hn hset).mono
  | setPeriod tg rtRuntime rtPeriodUs =>
    obtain ⟨-, hcall⟩ := Option.ite_none_right_eq_some.1 hnext
    obtain ⟨⟨t, err⟩, hset, rfl⟩ := Option.map_eq_some_iff.1 hcall
    exact (h.setPeriod hn hset).mono
  | writePeriod v =>
    simp only [next] at hnext
    split at hnext
    · next hidle =>
      cases hnext
      exact (h.periodWritten hidle v).mono
    · cases hnext
  | writeRuntime v =>
    simp only [next] at hnext
    split at hnext
    · next hidle =>
      cases hnext
      exact (h.runtimeWritten hidle v).mono
    · cases hnext
  | validate =>
    simp only [next] at hnext
    split at hnext
    · next hhandler =>
      obtain ⟨ret, hvalid, rfl⟩ := Option.map_eq_some_iff.1 hnext
      split
      · exact (h.undone (.inl hhandler)).mono
      · next hzero => exact (h.validated hn hhandler (not_not.1 hzero ▸ hvalid)).mono
    · cases hnext
  | dlValidate ok =>
    simp only [next] at hnext
    split at hnext
    · next hhandler =>
      cases hnext
      split
      · exact (h.done hhandler).mono
      · exact (h.undone (.inr hhandler)).mono
    · cases hnext
  | canAttach tg =>
    obtain ⟨-, hsome⟩ := Option.ite_none_right_eq_some.1 hnext
    cases hsome
    exact (h.canAttach tg).mono
  | attach tg done =>
    obtain ⟨hattach, hsome⟩ := Option.ite_none_right_eq_some.1 hnext
    cases hsome
    exact (h.attach hattach done).mono
  | turnRt tg =>
    obtain ⟨-, hsome⟩ := Option.ite_none_right_eq_some.1 hnext
    cases hsome
    exact (h.turnRt tg).mono
  | detach tg =>
    cases hnext
    exact (h.detach tg).mono
  | create tg parent =>
    obtain ⟨⟨htg, hparent⟩, hsome⟩ := Option.ite_none_right_eq_some.1 hnext
    cases hsome
    exact h.created htg hparent
  | release tg =>
    obtain ⟨⟨-, hroot, hleaf⟩, hsome⟩ := Option.ite_none_right_eq_some.1 hnext
    cases hsome
    exact (h.release hroot hleaf).mono

/-- A run keeps the invariant. -/
theorem run_inv {acts : List (Act G)} (h : Inv root n s) (hn : n + acts.length < 2 ^ 44) (hrun : run root fuel s acts = some s') :
    Inv root (n + acts.length) s' := by
  induction acts generalizing s n with
  | nil =>
    cases hrun
    exact h
  | cons a acts ih =>
    obtain ⟨t, hnext, hrest⟩ := Option.bind_eq_some_iff.1 hrun
    rw [List.length_cons] at hn ⊢
    have hthen := ih (next_inv h (by omega) hnext) (by omega) hrest
    rwa [show n + (acts.length + 1) = n + 1 + acts.length by omega]

end OsLab.RtAdmission
