import OsLab.Lemmas.WakeupInv

/-!
# The steps of a CPU

The task on it, `__schedule` and `sched_ttwu_pending`.
-/

namespace OsLab.Wakeup

variable {T C A : Type} {s t : State T C A} {c d : C} {p q : T} {a b : A}

variable [DecidableEq T]

theorem prepareTask_eq (s : State T C A) (next : Option T) :
    prepareTask s next = { s with onCpu := fun q => if next = some q then true else s.onCpu q } := by
  cases next with
  | none => simp [prepareTask]
  | some n =>
    simp only [prepareTask, State.setOnCpu, Option.some.injEq]
    congr 1
    funext q
    simp only [Function.update_apply, eq_comm]

theorem finishTask_eq (s : State T C A) (prev : Option T) :
    finishTask s prev = { s with onCpu := fun q => if prev = some q then false else s.onCpu q } := by
  cases prev with
  | none => simp [finishTask]
  | some n =>
    simp only [finishTask, State.setOnCpu, Option.some.injEq]
    congr 1
    funext q
    simp only [Function.update_apply, eq_comm]

variable [DecidableEq C]

/-- Nobody has a task that is on a list or was. -/
theorem Inv.wakes_ne (h : Inv s) (hpi : s.piLock p = none) (b : A) : (s.agent b).wakes ≠ some p := fun hb => by
  cases ((h.piLock p b).2 hb).symm.trans hpi

/-! ## The task -/

/-- `set_current_state` keeps the invariant: who wakes up the task has at most seen it sleep before. -/
theorem announce_inv (h : Inv s) (hs : announce s c = some t) : Inv t := by
  unfold announce at hs
  split at hs
  · rename_i p hpc hcurr
    split at hs
    · obtain rfl := Option.some.inj hs
      have hstate : Inv (s.setState p .sleeping) := h.setState_curr (by rw [hpc]; rfl) hcurr (by simp) (by simp [hpc])
      exact { hstate with }
    · cases hs
  · cases hs

/-- The test of `CONDITION` keeps it: only the place in the loop changes. -/
theorem test_inv (h : Inv s) (hs : test s c = some t) : Inv t := by
  unfold test at hs
  split at hs
  · split at hs
    · obtain rfl := Option.some.inj hs
      exact { h with }
    · cases hs
  · cases hs

/-- The end of the loop keeps it: who wakes up the task has not come to `TASK_WAKING`, as the task is on its queue. -/
theorem leave_inv (h : Inv s) (hs : leave s c = some t) : Inv t := by
  unfold leave at hs
  split at hs
  · rename_i p hpc hcurr
    split at hs
    · obtain rfl := Option.some.inj hs
      have hstate : Inv (s.setState p .running) := h.setState_curr (by rw [hpc]; rfl) hcurr (by simp) (by simp [hpc])
      exact { hstate with }
    · cases hs
  · cases hs

/-- To reset `CONDITION` keeps it: nothing in it reads `CONDITION`. -/
theorem consume_inv (h : Inv s) (hs : consume s c = some t) : Inv t := by
  unfold consume at hs
  split at hs
  · split at hs
    · obtain rfl := Option.some.inj hs
      exact { h with }
    · cases hs
  · cases hs

/-! ## The wakeup of the current task -/

/-- To call `try_to_wake_up` for the current task keeps it: the CPU is not in `__schedule` then. -/
theorem selfEnter_inv (h : Inv s) (hs : selfEnter s c = some t) : Inv t := by
  unfold selfEnter at hs
  split at hs
  · rename_i p hpc hcurr
    split at hs
    · obtain rfl := Option.some.inj hs
      dsimp only [State.setCondition, State.setSelf]
      exact { h with self := by grind [h.self, Pc.schedules, Function.update_apply] }
    · cases hs
  · cases hs

/-- `ttwu_state_match` of the current task keeps it: only the place of the wakeup changes. -/
theorem selfMatch_inv (h : Inv s) (hs : selfMatch s c = some t) : Inv t := by
  unfold selfMatch at hs
  split at hs
  · split at hs
    · obtain rfl := Option.some.inj hs
      dsimp only [State.setSelf]
      exact { h with self := by grind [h.self, Function.update_apply] }
    · cases hs
  · cases hs

/-- `ttwu_do_wakeup` of the current task keeps it: the task is on its queue all along. -/
theorem selfWakeup_inv (h : Inv s) (hs : selfWakeup s c = some t) : Inv t := by
  unfold selfWakeup at hs
  split at hs
  · rename_i p hcurr
    split at hs
    · rename_i hself
      obtain rfl := Option.some.inj hs
      have hpc : (s.pc c).schedules = false := h.self c (by simp [hself])
      have hstate : Inv (s.setState p .running) :=
        h.setState_curr (Pc.picks_of_schedules hpc) hcurr (by simp) fun hp => by rw [hp] at hpc; cases hpc
      dsimp only [State.setState, State.setSelf] at hstate ⊢
      exact { hstate with self := by grind [h.self, Function.update_apply] }
    · cases hs
  · cases hs

/-! ## `__schedule` -/

/-- The place in the loop does not matter to the invariant. -/
theorem callSchedule_inv (h : Inv s) (prev : Option T) : Inv (callSchedule s prev) := by
  cases prev with
  | none => exact h
  | some p => exact { h with }

/-- The task the CPU takes off is marked only. -/
theorem Inv.setDelayed (h : Inv s) {x : Bool} (hpc : s.pc c = .picking) (hcpu : s.taskCpu p = c)
    (hx : x = true → s.onRq p ≠ .none ∧ s.state p = .sleeping) : Inv (s.setDelayed p x) := by
  dsimp only [State.setDelayed]
  exact { h with
    steady := by grind [h.steady, h.curr, Pc.picks, Function.update_apply]
    delayed := by grind [h.delayed, Function.update_apply] }

/-- Taking the wake list keeps the invariant: what leaves the list is what is left to do. -/
theorem flush_inv (h : Inv s) (hs : flush s c = some t) : Inv t := by
  unfold flush at hs
  split at hs
  · rename_i hpc
    obtain rfl := Option.some.inj hs
    have htodo : (s.pc c).todo = [] := by rw [hpc]; rfl
    have hpicks : (s.pc c).picks = false := by rw [hpc]; rfl
    dsimp only [State.setPc]
    exact { h with
      lockCpu := by grind [h.lockCpu, Pc.locks, Function.update_apply]
      lists := fun d q => by
        have := h.lists d q
        grind [Pc.todo, Function.update_apply]
      onCpu := by grind [h.onCpu, Function.update_apply]
      prev := by grind [h.prev, Function.update_apply]
      apart := by grind [h.apart, Function.update_apply]
      steady := by grind [h.steady, Pc.picks, Function.update_apply]
      blocking := by grind [h.blocking, Function.update_apply]
      listed := by grind [h.listed, Pc.activates, Function.update_apply]
      activated := by grind [h.activated, Pc.activates, Function.update_apply]
      self := by grind [h.self, Pc.schedules, Function.update_apply] }
  · cases hs

/-- The CPU goes on with the lock it has. -/
theorem Inv.setPc_locked (h : Inv s) (x : Pc T) (hlock : (s.pc c).locks = true) (hx : x.locks = true)
    (htodo : x.todo = (s.pc c).todo)
    (hactivates : (s.pc c).activates = none ∧ x.activates = none) (hswitching : ∀ p, s.pc c ≠ .switching p ∧ x ≠ .switching p)
    (hpicking : (s.pc c).picks = false) (hblocking : x = .blocking → ∃ p, s.curr c = some p ∧ s.state p = .sleeping)
    (hself : x.schedules = true → s.self c = .none) : Inv (s.setPc c x) := by
  have hcpu := (h.lockCpu c).2 hlock
  have := h.setPc x (some .cpu) (.inr hcpu) (by rw [hx]; rfl) htodo hactivates hswitching (fun _ p hp => h.steady c p hpicking hp)
    hblocking hself
  rwa [State.setRqLock, ← hcpu, Function.update_eq_self] at this

/-- `rq_lock` of `__schedule`. -/
theorem Inv.enterSchedule (h : Inv s) (preempt : Bool) (hpc : s.pc c = .running) (hself : s.self c = .none)
    (hlock : s.rqLock c = none) : Inv ((s.setRqLock c (some .cpu)).setPc c (.deciding preempt)) := by
  refine h.setPc _ _ (.inl hlock) rfl ?_ ?_ ?_ (fun _ p hp => h.steady c p (by rw [hpc]; rfl) hp) (by simp) fun _ => hself
  · rw [hpc]
    rfl
  · rw [hpc]
    exact ⟨rfl, rfl⟩
  · rw [hpc]
    exact fun p => ⟨by simp, by simp⟩

/-- The beginning of `__schedule` keeps the invariant: the lock was free, so nobody else is where it has it. -/
theorem schedule_inv (h : Inv s) {preempt : Bool} (hs : schedule s c preempt = some t) : Inv t := by
  unfold schedule at hs
  split at hs
  · rename_i hguard
    obtain ⟨hpc, hself, hlock, -⟩ := hguard
    obtain rfl := Option.some.inj hs
    cases preempt with
    | true => exact h.enterSchedule true hpc hself hlock
    | false =>
      cases hcurr : s.curr c with
      | none => exact h.enterSchedule false hpc hself hlock
      | some p => exact (callSchedule_inv h (some p)).enterSchedule false hpc hself hlock
  · cases hs

/-- The test of `prev_state` keeps it: the task that is to be blocked sleeps, as the task on a CPU is not waking. -/
theorem readState_inv (h : Inv s) (hs : readState s c = some t) : Inv t := by
  unfold readState at hs
  split at hs
  · rename_i preempt hpc
    have hself : s.self c = .none := h.self_none (by rw [hpc]; rfl)
    have hgo : ∀ x : Pc T, x = .blocking ∨ x = .picking → (x = .blocking → ∃ p, s.curr c = some p ∧ s.state p = .sleeping) →
        Inv (s.setPc c x) := by
      rintro x hx hblocking
      refine h.setPc_locked x ?_ ?_ ?_ ?_ ?_ ?_ hblocking fun _ => hself
      all_goals rcases hx with rfl | rfl <;> simp [hpc, Pc.locks, Pc.picks, Pc.todo, Pc.activates]
    split at hs
    · rename_i p hcurr
      obtain rfl := Option.some.inj hs
      refine hgo _ (ite_eq_or_eq _ _ _) fun hblocking => ⟨p, hcurr, ?_⟩
      have hnw := h.curr_not_waking (by rw [hpc]; rfl) hcurr
      cases hstate : s.state p <;> simp_all
    · obtain rfl := Option.some.inj hs
      exact hgo _ (.inr rfl) (by simp)
  · cases hs

/-- A task that sleeps leaves the queue of the CPU that picks. -/
theorem Inv.dequeue (h : Inv s) (hpc : s.pc c = .picking) (hqueued : s.onRq p = .queued) (hcpu : s.taskCpu p = c)
    (hstate : s.state p = .sleeping) (hdelayed : s.schedDelayed p = false) : Inv (s.dequeue c p .none) := by
  have hlock : s.rqLock c = some .cpu := (h.lockCpu c).2 (by rw [hpc]; rfl)
  have hagents : ∀ b, (s.dequeue c p .none).AgentOk (s.agent b) := by
    refine h.agents_frame (p := p) (fun q hq => by simp [State.view, State.dequeue, hq]) (by simp [hqueued])
      fun b stage hb hok => ?_
    have hrq := h.rq_ne (.inr hlock) b
    rw [hb] at hrq
    cases stage <;> grind [Stage.Ok, State.view, State.dequeue, Agent.rq, Function.update_apply]
  dsimp only [State.dequeue] at hagents ⊢
  exact { h with
    queue := by grind [h.queue, Function.update_apply]
    steady := by grind [h.steady, h.curr, Pc.picks, Function.update_apply]
    off := by grind [h.off, Function.update_apply]
    listed := by grind [h.listed, Function.update_apply]
    activated := by grind [h.activated, → Inv.activates_waking, Function.update_apply]
    delayed := by grind [h.delayed, Function.update_apply]
    agents := hagents
    mover := by grind [h.mover, Function.update_apply] }

/-- `try_to_block_task` keeps it: with a pending signal the task runs on, and else it leaves the queue, or is only marked, in the
state it sleeps in. -/
theorem block_inv (h : Inv s) {outcome : Outcome} (hs : block s c outcome = some t) : Inv t := by
  unfold block at hs
  split at hs
  · rename_i p hpc hcurr
    obtain ⟨q, hq, hstate⟩ := h.blocking c hpc
    obtain rfl := Option.some.inj (hcurr.symm.trans hq)
    obtain ⟨hqueued, hdelayed⟩ := h.steady c p (by rw [hpc]; rfl) hcurr
    have hcpu := h.curr c p hcurr
    have hself : s.self c = .none := h.self_none (by rw [hpc]; rfl)
    have hgo : ∀ x : Pc T, x = .deciding true ∨ x = .picking → Inv (s.setPc c x) := fun x hx => by
      refine h.setPc_locked x ?_ ?_ ?_ ?_ ?_ ?_ ?_ fun _ => hself
      all_goals rcases hx with rfl | rfl <;> simp [hpc, Pc.locks, Pc.picks, Pc.todo, Pc.activates]
    have hpick : (s.setPc c .picking).pc c = .picking := Function.update_self ..
    cases outcome with
    | signal =>
      obtain rfl := Option.some.inj hs
      have hrun : Inv ((s.setPc c (.deciding true)).setState p .running) :=
        (hgo (.deciding true) (.inl rfl)).setState_curr (c := c) (by simp [State.setPc, Pc.picks]) hcurr (by simp)
        (by simp [State.setPc])
      have hgoRun : Inv (((s.setPc c (.deciding true)).setState p .running).setPc c .picking) := by
        refine hrun.setPc_locked .picking ?_ ?_ ?_ ?_ ?_ ?_ ?_ fun _ => hself
        all_goals simp [State.setState, State.setPc, Pc.locks, Pc.picks, Pc.todo, Pc.activates]
      simpa only [State.setPc, State.setState, Function.update_idem] using hgoRun
    | dequeued =>
      obtain rfl := Option.some.inj hs
      exact (hgo .picking (.inr rfl)).dequeue hpick hqueued hcpu hstate hdelayed
    | delayed =>
      obtain rfl := Option.some.inj hs
      exact (hgo .picking (.inr rfl)).setDelayed hpick hcpu fun _ => ⟨by simp [State.setPc, hqueued], hstate⟩
  · cases hs

/-- To take a marked task off its queue keeps it: the task still sleeps. -/
theorem reap_inv (h : Inv s) (hs : reap s c p = some t) : Inv t := by
  unfold reap at hs
  split at hs
  · rename_i hguard
    obtain ⟨hpc, hmem, hdelayed⟩ := hguard
    obtain rfl := Option.some.inj hs
    obtain ⟨hqueued, hcpu⟩ := h.mem_queue.1 hmem
    exact (h.setDelayed (x := false) hpc hcpu (by simp)).dequeue hpc hqueued hcpu (h.delayed p hdelayed).2 (Function.update_self ..)
  · cases hs

/-- In `pick_next_task` the CPU goes on without the lock of its queue, or with it again. -/
theorem Inv.setPc_picks (h : Inv s) {x : Pc T} {lock : Option (Owner A)} (hpc : (s.pc c).picks = true) (hx : x.picks = true)
    (hfree : s.rqLock c = none ∨ s.rqLock c = some .cpu) (hlock : lock = if x.locks then some .cpu else none) :
    Inv ((s.setRqLock c lock).setPc c x) := by
  have hself : s.self c = .none := h.self_none (by rcases Pc.of_picks hpc with hp | hp <;> rw [hp] <;> rfl)
  refine h.setPc x lock hfree hlock ?_ ?_ ?_ (fun hno => absurd (hx.symm.trans hno) Bool.false_ne_true.symm) ?_ fun _ => hself
  all_goals rcases Pc.of_picks hpc with hp | hp <;> rcases Pc.of_picks hx with rfl | rfl <;> simp [hp, Pc.todo, Pc.activates]

/-- To release the lock for balancing keeps it: the task may be off the queue as before, and the lock is with nobody. -/
theorem release_inv (h : Inv s) (hs : release s c = some t) : Inv t := by
  unfold release at hs
  split at hs
  · rename_i hpc
    obtain rfl := Option.some.inj hs
    have hlock : s.rqLock c = some .cpu := (h.lockCpu c).2 (by rw [hpc]; rfl)
    exact h.setPc_picks (by rw [hpc]; rfl) rfl (.inr hlock) rfl
  · cases hs

/-- To take the lock again keeps it: the lock was free. -/
theorem retake_inv (h : Inv s) (hs : retake s c = some t) : Inv t := by
  unfold retake at hs
  split at hs
  · rename_i hguard
    obtain ⟨hpc, hlock⟩ := hguard
    obtain rfl := Option.some.inj hs
    exact h.setPc_picks (by rw [hpc]; rfl) rfl (.inl hlock) rfl
  · cases hs

/-- The switch to the next task, up to `prepare_task`. -/
theorem Inv.switchTo (h : Inv s) {next : Option T} (hpc : s.pc c = .picking) (hne : s.curr c ≠ next)
    (hnext : ∀ n, next = some n → n ∈ s.queue c ∧ s.schedDelayed n = false) :
    Inv ({ prepareTask s next with curr := Function.update s.curr c next }.setPc c (.switching (s.curr c))) := by
  have hlock : s.rqLock c = some .cpu := (h.lockCpu c).2 (by rw [hpc]; rfl)
  have hself : s.self c = .none := h.self_none (by rw [hpc]; rfl)
  have htodo : (s.pc c).todo = [] := by rw [hpc]; rfl
  have hqueue : ∀ n, next = some n → s.onRq n = .queued ∧ s.taskCpu n = c ∧ s.schedDelayed n = false := fun n hn =>
    ⟨(h.mem_queue.1 (hnext n hn).1).1, (h.mem_queue.1 (hnext n hn).1).2, (hnext n hn).2⟩
  have hagents : ∀ b, ({ prepareTask s next with curr := Function.update s.curr c next }.setPc c (.switching (s.curr c))).AgentOk
      (s.agent b) := by
    cases next with
    | none => exact fun b => (h.agents b).congr fun _ _ => rfl
    | some n =>
      obtain ⟨hqueued, hcpu, -⟩ := hqueue n rfl
      refine h.agents_frame (p := n) (fun q hq => ?_) (by simp [hqueued]) fun b stage hb hok => ?_
      · simp [State.view, State.setPc, prepareTask, State.setOnCpu, hq]
      · -- who relies on the task being on no CPU has the lock, or the task is on no queue
        have hrq := h.rq_ne (.inr hlock) b
        rw [hb] at hrq
        cases stage <;> simp_all [Stage.Ok, State.view, State.setPc, prepareTask, State.setOnCpu, Agent.rq]
  rw [prepareTask_eq] at hagents ⊢
  dsimp only [State.setPc] at hagents ⊢
  exact { h with
    lockCpu := by grind [h.lockCpu, Pc.locks, Function.update_apply]
    lists := fun d q => by
      have := h.lists d q
      grind [Pc.todo, Function.update_apply]
    onCpu := by grind [h.onCpu, Function.update_apply]
    curr := by grind [h.curr, Function.update_apply]
    prev := by grind [h.prev, h.curr, Function.update_apply]
    apart := by grind [h.apart, Function.update_apply]
    steady := by grind [h.steady, Pc.picks, Function.update_apply]
    blocking := by grind [h.blocking, Function.update_apply]
    listed := by grind [h.listed, Pc.activates, Function.update_apply]
    activated := by grind [h.activated, → Inv.activates_waking, Pc.activates, Function.update_apply]
    agents := hagents
    self := by grind [h.self, Function.update_apply] }

/-- `pick_next_task` keeps it: the task picked is on this queue, so no other CPU has it. -/
theorem pick_inv (h : Inv s) {next : Option T} (hs : pick s c next = some t) : Inv t := by
  unfold pick at hs
  split at hs
  · rename_i hguard
    obtain ⟨hpc, hmay⟩ := hguard
    have hnext : ∀ n, next = some n → n ∈ s.queue c ∧ s.schedDelayed n = false := by
      rintro n rfl
      simpa [mayPick] using hmay
    split at hs
    · rename_i hcurr
      obtain rfl := Option.some.inj hs
      refine h.setPc .running none (.inr ((h.lockCpu c).2 ?_)) rfl ?_ ?_ ?_ (fun _ n hn => ?_) (by simp) (by simp [Pc.schedules])
      · rw [hpc]
        rfl
      · rw [hpc]
        rfl
      · rw [hpc]
        exact ⟨rfl, rfl⟩
      · rw [hpc]
        exact fun p => ⟨by simp, by simp⟩
      · obtain ⟨hmem, hdelayed⟩ := hnext n (hcurr.symm.trans hn)
        exact ⟨(h.mem_queue.1 hmem).1, hdelayed⟩
    · rename_i hcurr
      obtain rfl := Option.some.inj hs
      exact h.switchTo hpc hcurr hnext
  · cases hs

/-- `finish_task_switch` keeps it: the task switched away from was on no other CPU, so it is on none now. -/
theorem finish_inv (h : Inv s) (hs : finish s c = some t) : Inv t := by
  unfold finish at hs
  split at hs
  · rename_i prev hpc
    obtain rfl := Option.some.inj hs
    have hlock : s.rqLock c = some .cpu := (h.lockCpu c).2 (by rw [hpc]; rfl)
    have htodo : (s.pc c).todo = [] := by rw [hpc]; rfl
    have hpicks : (s.pc c).picks = false := by rw [hpc]; rfl
    have hagents : ∀ b, (((finishTask s prev).setRqLock c none).setPc c .running).AgentOk (s.agent b) := by
      cases prev with
      | none => exact fun b => (h.agents b).congr fun _ _ => rfl
      | some p =>
        have hon : s.onCpu p = true := (h.onCpu p).2 (.inr (by rw [h.prev c p hpc, hpc]))
        refine h.agents_frame (p := p) (fun q hq => ?_) (.inr hon) fun b stage _ hok => ?_
        · simp [State.view, State.setPc, State.setRqLock, finishTask, State.setOnCpu, hq]
        · cases stage <;> simp_all [Stage.Ok, State.view, State.setPc, State.setRqLock, finishTask, State.setOnCpu]
    rw [finishTask_eq] at hagents ⊢
    dsimp only [State.setPc, State.setRqLock] at hagents ⊢
    exact { h with
      lockCpu := by grind [h.lockCpu, Pc.locks, Function.update_apply]
      lockAgent := by grind [h.lockAgent, h.rq_ne, Function.update_apply]
      lists := fun d q => by
        have := h.lists d q
        grind [Pc.todo, Function.update_apply]
      onCpu := by grind [h.onCpu, h.prev, h.apart, Function.update_apply]
      prev := by grind [h.prev, Function.update_apply]
      apart := by grind [h.apart, Function.update_apply]
      steady := by grind [h.steady, Pc.picks, Function.update_apply]
      blocking := by grind [h.blocking, Function.update_apply]
      listed := by grind [h.listed, Pc.activates, Function.update_apply]
      activated := by grind [h.activated, Pc.activates, Function.update_apply]
      agents := hagents
      self := by grind [h.self, Pc.schedules, Function.update_apply] }
  · cases hs

/-! ## `sched_ttwu_pending` -/

/-- `sched_ttwu_pending` takes the lock, which was free, and keeps the list taken. -/
theorem pend_inv (h : Inv s) (hs : pend s c = some t) : Inv t := by
  unfold pend at hs
  split at hs
  · rename_i todo hpc
    split at hs
    · rename_i hlock
      obtain rfl := Option.some.inj hs
      refine h.setPc _ _ (.inl hlock) rfl ?_ ?_ ?_ (fun _ p hp => h.steady c p (by rw [hpc]; rfl) hp) (by simp)
        (by simp [Pc.schedules])
      · rw [hpc]
        rfl
      · rw [hpc]
        exact ⟨rfl, rfl⟩
      · rw [hpc]
        exact fun p => ⟨by simp, by simp⟩
    · cases hs
  · cases hs

/-- The first of the wake list is on no CPU: its own is in the interrupt. -/
theorem Inv.pending_off {todo : List T} (h : Inv s) (hpc : s.pc c = .pending (p :: todo)) :
    s.state p = .waking ∧ s.piLock p = none ∧ s.taskCpu p = c ∧ s.onRq p = .none ∧ s.onCpu p = false := by
  obtain ⟨hstate, hpi, hcpu⟩ := h.list_waking (c := c) (p := p) (.inr (by simp [hpc, Pc.todo]))
  have hoff : s.onRq p = .none := (h.listed p hstate hpi).resolve_right (by simp [hcpu, hpc, Pc.activates])
  refine ⟨hstate, hpi, hcpu, hoff, Bool.eq_false_iff.2 fun hon => ?_⟩
  rcases (h.onCpu p).1 hon with hcurr | hprev
  · rw [hcpu] at hcurr
    cases hoff.symm.trans (h.steady c p (by rw [hpc]; rfl) hcurr).1
  · rw [hcpu, hpc] at hprev
    cases hprev

/-- `sched_ttwu_pending` activates a task, and neither `WARN_ON_ONCE` fires: the list is that of the task's CPU, which has switched
away from the task. -/
theorem activatePending_inv (h : Inv s) (hs : activatePending s c = some t) : Inv t := by
  unfold activatePending at hs
  split at hs
  · rename_i p todo hpc
    obtain ⟨hstate, hpi, hcpu, hoff, hon⟩ := h.pending_off hpc
    have htodo : (s.pc c).todo = p :: todo := by rw [hpc]; rfl
    have hpicks : (s.pc c).picks = false := by rw [hpc]; rfl
    have hlock : s.rqLock c = some .cpu := (h.lockCpu c).2 (by rw [hpc]; rfl)
    have hagents : ∀ b, ((s.enqueue c p).setPc c (.activated p todo)).AgentOk (s.agent b) := by
      refine h.agents_frame (p := p) (fun q hq => ?_) (by simp [hoff]) fun b stage hb _ => ?_
      · simp [State.view, State.setPc, State.enqueue, hq]
      · exact absurd (by rw [hb]; rfl) (h.wakes_ne hpi b)
    rw [if_neg (by simp [hon])] at hs
    simp only [hcpu, ne_eq, not_true_eq_false, if_false] at hs
    obtain rfl := Option.some.inj hs
    dsimp only [State.setPc, State.enqueue] at hagents ⊢
    exact { h with
      lockCpu := by grind [h.lockCpu, Pc.locks, Function.update_apply]
      queue := by grind [h.queue, Function.update_apply]
      lists := fun d q => by
        have := h.lists d q
        grind [Pc.todo, Function.update_apply]
      onCpu := by grind [h.onCpu, Function.update_apply]
      prev := by grind [h.prev, Function.update_apply]
      apart := by grind [h.apart, Function.update_apply]
      steady := by grind [h.steady, Pc.picks, Function.update_apply]
      blocking := by grind [h.blocking, Function.update_apply]
      off := by grind [h.off, Function.update_apply]
      listed := by grind [h.listed, Pc.activates, Function.update_apply]
      activated := by grind [h.activated, Pc.activates, Function.update_apply]
      delayed := by grind [h.delayed, Function.update_apply]
      agents := hagents
      mover := by grind [h.mover, Function.update_apply]
      self := by grind [h.self, Pc.schedules, Function.update_apply] }
  · cases hs

/-- `ttwu_do_wakeup` in `sched_ttwu_pending` keeps the invariant: the task has been queued, and is on no list any more. -/
theorem wakeupPending_inv (h : Inv s) (hs : wakeupPending s c = some t) : Inv t := by
  unfold wakeupPending at hs
  split at hs
  · rename_i p todo hpc
    have hact : (s.pc c).activates = some p := by rw [hpc]; rfl
    have htodo : (s.pc c).todo = p :: todo := by rw [hpc]; rfl
    have hpicks : (s.pc c).picks = false := by rw [hpc]; rfl
    obtain ⟨hstate, hpi, hcpu⟩ := h.activates_waking hact
    obtain ⟨hqueued, hon⟩ := h.activated c p hact
    have hagents : ∀ b, ((s.setState p .running).setPc c (.pending todo)).AgentOk (s.agent b) := by
      refine h.agents_frame (p := p) (fun q hq => ?_) (by simp [hqueued]) fun b stage hb _ => ?_
      · simp [State.view, State.setPc, State.setState, hq]
      · exact absurd (by rw [hb]; rfl) (h.wakes_ne hpi b)
    obtain rfl := Option.some.inj hs
    dsimp only [State.setPc, State.setState] at hagents ⊢
    exact { h with
      lockCpu := by grind [h.lockCpu, Pc.locks, Function.update_apply]
      lists := fun d q => by
        have := h.lists d q
        grind [Pc.todo, Function.update_apply]
      onCpu := by grind [h.onCpu, Function.update_apply]
      prev := by grind [h.prev, Function.update_apply]
      apart := by grind [h.apart, Function.update_apply]
      steady := by grind [h.steady, Pc.picks, Function.update_apply]
      blocking := by grind [h.blocking, Function.update_apply]
      off := by grind [h.off, Function.update_apply]
      listed := by grind [h.listed, Pc.activates, Function.update_apply]
      activated := by grind [h.activated, Pc.activates, Function.update_apply]
      delayed := by grind [h.delayed, Function.update_apply]
      agents := hagents
      self := by grind [h.self, Pc.schedules, Function.update_apply] }
  · cases hs

/-- The end of `sched_ttwu_pending` keeps it: the list is done with. -/
theorem endPending_inv (h : Inv s) (hs : endPending s c = some t) : Inv t := by
  unfold endPending at hs
  split at hs
  · rename_i hpc
    obtain rfl := Option.some.inj hs
    refine h.setPc .running none (.inr ((h.lockCpu c).2 ?_)) rfl ?_ ?_ ?_
      (fun _ p hp => h.steady c p (by rw [hpc]; rfl) hp) (by simp) (by simp [Pc.schedules])
    · rw [hpc]
      rfl
    · rw [hpc]
      rfl
    · rw [hpc]
      exact ⟨rfl, rfl⟩
    · rw [hpc]
      exact fun p => ⟨by simp, by simp⟩
  · cases hs

end OsLab.Wakeup
