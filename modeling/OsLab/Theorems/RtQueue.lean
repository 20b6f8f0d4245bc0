import OsLab.Lemmas.RtQueuePick

/-!
# The real-time queue

Over every sequence of operations, with any nesting of groups. A task that is saved and restored in its place (`schedChange`) must
not be what keeps a throttled group on its queue; the example after `rt_rq_books_two` shows what happens if it is.
-/

namespace OsLab.RtQueue

variable {Q E : Type} {H : Hierarchy Q E} {s : Rq Q E}

/-- A queue that nothing has been put on yet. -/
structure Fresh (H : Hierarchy Q E) (s : Rq Q E) : Prop where
  queues : ∀ q, s.rq q = initRtRq
  off : ∀ e, (s.se e).onRq = false ∧ (s.se e).onList = false
  prio : ∀ e, H.myQ e = none → (s.se e).prio < maxRtPrio
  nrRunning : s.nrRunning = 0
  warned : s.warned = false

/-- A task that is on the queue, with all the groups it is in. -/
def Runnable (H : Hierarchy Q E) (s : Rq Q E) (t : E) : Prop := H.myQ t = none ∧ ∀ e ∈ H.stack t, (s.se e).onRq = true

instance (H : Hierarchy Q E) (s : Rq Q E) (t : E) : Decidable (Runnable H s t) := inferInstanceAs (Decidable (_ ∧ _))

/-- A stack ends on the root. -/
theorem reaches_root_iff (H : Hierarchy Q E) (s : Rq Q E) : ∀ t, Reaches H s H.root t ↔ ∀ e ∈ H.stack t, (s.se e).onRq = true := by
  refine Hierarchy.stack_induction (H := H) (fun t hp => ?_) fun t p hp ih => ?_
  · rw [Hierarchy.stack_root hp, List.forall_mem_singleton]
    constructor
    · intro h
      cases h with
      | here hon => exact hon.2
      | up hon _ _ => exact hon
    · exact fun hon => .here ⟨(H.rtSe_root _).1 hp, hon⟩
  · rw [Hierarchy.stack_parent hp, List.forall_mem_cons, ← ih]
    constructor
    · intro h
      cases h with
      | here hon => exact absurd hon.1.symm (H.ne_root hp)
      | up hon hp' hreach => exact ⟨hon, Option.some.inj (hp'.symm.trans hp) ▸ hreach⟩
    · exact fun ⟨hon, hreach⟩ => .up hon hp hreach

variable [DecidableEq Q] [Fintype E]

/-- The invariant holds at the start. -/
theorem Fresh.inv (h : Fresh H s) : Inv H s := by
  have hon : ∀ q e, ¬On H s q e := fun q e hon => absurd ((h.off e).1.symm.trans hon.2) Bool.false_ne_true
  have hlocal : ∀ q, Local H s q := fun q => by
    refine ⟨fun p => ?_, fun p e => ?_, fun p => ?_, fun e he => absurd he (hon q e), ?_, ?_, ?_, fun e he => absurd he (hon q e),
      fun hne => ?_, fun _ => ?_⟩
    · rw [h.queues]
      exact List.nodup_nil
    · rw [h.queues]
      exact iff_of_false List.not_mem_nil fun he => hon q e he.1
    · rw [h.queues]
      simp [initRtRq]
    · rw [h.queues, tally_eq_zero (hon q)]
      rfl
    · rw [h.queues, tally_eq_zero (hon q)]
      rfl
    · rw [h.queues, tally_eq_zero (hon q)]
      rfl
    · rw [h.queues] at hne
      exact absurd rfl hne
    · rw [h.queues]
      rfl
  refine ⟨⟨hlocal, fun e => (h.off e).2.trans (h.off e).1.symm, fun e q _ _ => ?_, h.prio, h.warned⟩, ⟨?_, fun hq => ?_⟩, ?_⟩
  · rw [h.queues]
    exact iff_of_false (Bool.eq_false_iff.1 (h.off e).1) fun hne => hne.2 rfl
  · rw [h.queues]
    exact h.nrRunning
  · rw [h.queues] at hq
    exact absurd hq Bool.false_ne_true
  · rw [h.queues]
    exact iff_of_false Bool.false_ne_true fun hne => hne.2 rfl

/-- The root counts the runnable tasks. -/
theorem Inv.nr_eq_card (h : Inv H s) : (s.rq H.root).rtNrRunning = (Finset.univ.filter fun t => Runnable H s t).card := by
  classical
  rw [h.pre.nr_eq_card]
  congr 1
  ext t
  refine Finset.mem_filter.trans (Iff.trans ?_ Finset.mem_filter.symm)
  exact and_congr_right fun _ => and_congr_right fun _ => reaches_root_iff H s t

variable [DecidableEq E]

/-- No `WARN_ON` or `BUG_ON` fires; the root counts the runnable tasks, and `nr_running` has them all unless the root is throttled;
a group is on its queue if and only if it is not throttled and has something in it; the lists hold what is on the queue, by
priority, and the bitmap says which are not empty. -/
theorem rt_rq_books (s₀ : Rq Q E) (hfresh : Fresh H s₀) (acts : List (Act Q E)) (hsteady : SteadyRun H s₀ acts) :
    let s := run H s₀ acts
    let runnable := (Finset.univ.filter fun t => Runnable H s t).card
    s.warned = false ∧ (s.rq H.root).rtNrRunning = runnable ∧
      s.nrRunning = (if (s.rq H.root).throttled then 0 else runnable) ∧
      (∀ e q, H.myQ e = some q → ((s.se e).onRq = true ↔ (s.rq q).throttled = false ∧ (s.rq q).rtNrRunning ≠ 0)) ∧
      ∀ q p, ((s.rq q).bitmap p = true ↔ (s.rq q).queue p ≠ [] ∨ p = maxRtPrio) ∧ ((s.rq q).queue p).Nodup ∧
        ∀ e, e ∈ (s.rq q).queue p ↔ (H.rtRq e = q ∧ (s.se e).onRq = true) ∧ (view H s e).prio = p := by
  have h : Inv H (run H s₀ acts) := run_inv hfresh.inv acts hsteady
  refine ⟨h.pre.warned, h.nr_eq_card, ?_, fun e q hmy => h.pre.group e q List.not_mem_nil hmy, fun q p =>
    ⟨(h.pre.queues q).bits p, (h.pre.queues q).nodup p, (h.pre.queues q).mem p⟩⟩
  rw [h.top.count, ← h.nr_eq_card]
  have hqueued := h.queued
  cases hthrottled : ((run H s₀ acts).rq H.root).throttled with
  | true => simp [hqueued, hthrottled]
  | false =>
    by_cases hzero : ((run H s₀ acts).rq H.root).rtNrRunning = 0
    · simp [hzero]
    · simp [hqueued, hthrottled, hzero]

/-- `pick_task_rt` has nothing to pick if and only if the root is throttled or no task is runnable; what it picks is runnable, and
no runnable task has a better priority, in whichever group it is. -/
theorem pick_highest_priority (s₀ : Rq Q E) (hfresh : Fresh H s₀) (acts : List (Act Q E)) (hsteady : SteadyRun H s₀ acts) :
    let s := run H s₀ acts
    (pickTaskRt H s = none ↔ (s.rq H.root).throttled = true ∨ ∀ t, ¬Runnable H s t) ∧
      ∀ t, pickTaskRt H s = some t → Runnable H s t ∧ ∀ u, Runnable H s u → (s.se t).prio ≤ (s.se u).prio := by
  intro s
  have h : Inv H s := run_inv hfresh.inv acts hsteady
  have hcard := h.nr_eq_card
  clear_value s
  unfold pickTaskRt
  by_cases hqueued : (s.rq H.root).rtQueued = true
  · rw [if_pos hqueued]
    obtain ⟨hthrottled, hne⟩ := h.queued.1 hqueued
    obtain ⟨t, hpick, htask, hreach, hprio⟩ := h.pre.pickFrom (k := H.height + 1) (by omega) hne
    have hrun : Runnable H s t := ⟨htask, (reaches_root_iff H s t).1 hreach⟩
    rw [hpick]
    refine ⟨iff_of_false (Option.some_ne_none t) fun hno => ?_, fun t' ht' => ?_⟩
    · rcases hno with ht | hnone
      · exact absurd (hthrottled.symm.trans ht) Bool.false_ne_true
      · exact hnone t hrun
    · obtain rfl := Option.some.inj ht'
      refine ⟨hrun, fun u hu => ?_⟩
      have hle := h.pre.highest_le_view ((reaches_root_iff H s u).2 hu.2)
      unfold view at hle
      rw [hu.1] at hle
      exact hprio.trans_le hle
  · rw [if_neg hqueued]
    refine ⟨iff_of_true rfl ?_, fun t ht => by cases ht⟩
    by_contra hsome
    obtain ⟨hthrottled, hrunnable⟩ := not_or.1 hsome
    refine hqueued (h.queued.2 ⟨Bool.eq_false_iff.2 hthrottled, fun hzero => hrunnable fun t ht => ?_⟩)
    rw [hcard, Finset.card_eq_zero] at hzero
    exact Finset.notMem_empty t (hzero ▸ Finset.mem_filter.2 ⟨Finset.mem_univ t, ht⟩)

/-! ## A group with two tasks, and two tasks outside -/

/-- `false` is the root, and `true` a group; entity 0 is that of the group, tasks 1 and 3 are in it, and tasks 2 and 4 are not. -/
def oneGroup : Hierarchy Bool (Fin 5) where
  root := false
  rtRq e := decide (e = 1 ∨ e = 3)
  myQ e := if e = 0 then some true else none
  rtSe q := if q then some 0 else none
  depth q := q.toNat
  height := 1
  rtSe_iff := by decide
  rtSe_root := by decide
  depth_myQ := by decide
  depth_le := by decide

/-- Nothing is queued; task `e` has priority `10 - e`. -/
def oneGroupFresh : Rq Bool (Fin 5) where
  rq _ := initRtRq
  se e := { prio := 10 - e.val, normalPrio := 10 - e.val, isRr := false, onRq := false, onList := false }
  nrRunning := 0
  warned := false

/-- Nothing is queued there. -/
theorem oneGroupFresh_fresh : Fresh oneGroup oneGroupFresh where
  queues _ := rfl
  off _ := ⟨rfl, rfl⟩
  prio e _ := by
    show 10 - e.val < maxRtPrio
    unfold maxRtPrio
    omega
  nrRunning := rfl
  warned := rfl

/-- Both tasks are runnable, and the task in the group still is when it is given other CPUs to run on. -/
theorem rt_rq_books_two :
    let acts : List (Act Bool (Fin 5)) :=
      [.enqueueTask 1 ⟨false, false, false⟩, .enqueueTask 2 ⟨false, false, false⟩, .schedChange 1]
    let s := run oneGroup oneGroupFresh acts
    SteadyRun oneGroup oneGroupFresh acts ∧ (s.rq false).rtNrRunning = 2 ∧ s.warned = false := by
  have hsteady : SteadyRun oneGroup oneGroupFresh
      [.enqueueTask 1 ⟨false, false, false⟩, .enqueueTask 2 ⟨false, false, false⟩, .schedChange 1] := by
    refine ⟨fun _ he => (by cases he), fun _ he => (by cases he), fun e he => ?_, trivial⟩
    cases he
    unfold Steady
    decide
  exact ⟨hsteady, by rfl, (rt_rq_books oneGroupFresh oneGroupFresh_fresh _ hsteady).1⟩

/-- Task 1 is boosted, and keeps the throttled group on its queue. While it is off, the group is taken off its list, and it does
not come back to it; the next dequeue warns. -/
example : (run oneGroup oneGroupFresh [.setPrio 1 5 9 false, .enqueueTask 1 ⟨false, false, false⟩,
    .enqueueTask 3 ⟨false, false, false⟩, .throttle true, .schedChange 1, .dequeueTask 1 ⟨false, false, false⟩]).warned = true := by rfl

/-- A task in the group is worse, and is picked when the other is gone. -/
theorem pick_highest_priority_two :
    let acts : List (Act Bool (Fin 5)) := [.enqueueTask 1 ⟨false, false, false⟩, .enqueueTask 2 ⟨false, false, false⟩,
      .dequeueTask 2 ⟨false, false, false⟩]
    let s := run oneGroup oneGroupFresh acts
    SteadyRun oneGroup oneGroupFresh acts ∧ pickTaskRt oneGroup s = some 1 ∧ Runnable oneGroup s 1 := by
  have hsteady : SteadyRun oneGroup oneGroupFresh [.enqueueTask 1 ⟨false, false, false⟩, .enqueueTask 2 ⟨false, false, false⟩,
      .dequeueTask 2 ⟨false, false, false⟩] :=
    ⟨fun _ he => (by cases he), fun _ he => (by cases he), fun _ he => (by cases he), trivial⟩
  exact ⟨hsteady, by rfl, ((pick_highest_priority oneGroupFresh oneGroupFresh_fresh _ hsteady).2 1 (by rfl)).1⟩

end OsLab.RtQueue
