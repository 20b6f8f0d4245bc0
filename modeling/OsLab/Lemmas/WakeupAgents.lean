import OsLab.Lemmas.WakeupInv

/-!
# The steps of an agent

`try_to_wake_up` and `move_queued_task`.
-/

namespace OsLab.Wakeup

variable {T C A : Type} {s t : State T C A} {c d : C} {p q : T} {a b : A}

variable [DecidableEq T] [DecidableEq C]

/-- What an agent can rely on, where it is. -/
theorem Inv.agent_ok (h : Inv s) {x : Agent T C} (ha : s.agent a = x) : s.AgentOk x := ha ▸ h.agents a

variable [DecidableEq A]

/-- Who moves which task stays. -/
theorem Inv.movers_update (h : Inv s) {x : Agent T C} (hmoves : x.moves = (s.agent a).moves) :
    (∀ q, s.onRq q = .migrating → ∃ b, (Function.update s.agent a x b).moves = some q) ∧
      ∀ q b b', (Function.update s.agent a x b).moves = some q → (Function.update s.agent a x b').moves = some q → b = b' := by
  have hsame : ∀ b, (Function.update s.agent a x b).moves = (s.agent b).moves := fun b => by
    by_cases hb : b = a
    · rw [hb, Function.update_self, hmoves]
    · rw [Function.update_of_ne hb]
  simp only [hsame]
  exact ⟨h.mover, h.movers⟩

/-- An agent goes on, about the same task and with the locks it has. -/
theorem Inv.setAgent (h : Inv s) (x : Agent T C) (hwakes : x.wakes = (s.agent a).wakes) (hrq : x.rq = (s.agent a).rq)
    (hmoves : x.moves = (s.agent a).moves) (hok : s.AgentOk x) : Inv (s.setAgent a x) := by
  have hmovers := h.movers_update hmoves
  have hagents : ∀ b, (s.setAgent a x).AgentOk (Function.update s.agent a x b) :=
    (Function.forall_update_iff s.agent fun _ y => (s.setAgent a x).AgentOk y).2
      ⟨hok.congr fun _ _ => rfl, fun b _ => (h.agents b).congr fun _ _ => rfl⟩
  dsimp only [State.setAgent] at hagents ⊢
  exact { h with
    lockAgent := by grind [h.lockAgent, Function.update_apply]
    piLock := by grind [h.piLock, Function.update_apply]
    agents := hagents
    mover := hmovers.1
    movers := hmovers.2 }

/-- An agent goes on, and the task it is about changes; others do not rely on that. -/
theorem Inv.agents_update (h : Inv s) {x : Agent T C} (hview : ∀ q, q ≠ p → t.view q = s.view q) (hx : t.AgentOk x)
    (hmoves : ∀ b, b ≠ a → (s.agent b).moves ≠ some p)
    (hwakes : ∀ b, b ≠ a → ∀ stage, s.agent b = .wake p stage → stage.Ok (s.view p) → stage.Ok (t.view p)) :
    ∀ b, t.AgentOk (Function.update s.agent a x b) := by
  refine (Function.forall_update_iff s.agent fun _ y => t.AgentOk y).2 ⟨hx, fun b hb => ?_⟩
  have hok := h.agents b
  by_cases hp : (s.agent b).wakes = some p
  · cases hagent : s.agent b with
    | wake q stage =>
      rw [hagent] at hp hok
      obtain rfl := Option.some.inj hp
      exact hwakes b hb stage hagent hok
    | _ =>
      rw [hagent] at hp
      cases hp
  · refine hok.congr fun q hq => hview q ?_
    rintro rfl
    rcases hq with hq | hq
    · exact hp hq
    · exact hmoves b hb hq

/-- With `p->pi_lock` and the task on no CPU's way, nobody else is about the task. -/
theorem Inv.agents_own (h : Inv s) {x : Agent T C} (hview : ∀ q, q ≠ p → t.view q = s.view q) (hx : t.AgentOk x)
    (ha : (s.agent a).wakes = some p) (hrq : s.onRq p ≠ .migrating) : ∀ b, t.AgentOk (Function.update s.agent a x b) := by
  refine h.agents_update hview hx (fun b _ hb => hrq (h.moves_migrating hb).1) fun b hb stage hstage _ => ?_
  exact absurd (h.wakes_inj (by rw [hstage]; rfl) ha) hb

/-! ## `try_to_wake_up` -/

/-- To call `try_to_wake_up` keeps the invariant: the agent has no lock yet. -/
theorem enter_inv (h : Inv s) (hs : enter s a p = some t) : Inv t := by
  unfold enter at hs
  split at hs
  · rename_i ha
    obtain rfl := Option.some.inj hs
    have henter : Inv (s.setAgent a (.entered p)) := h.setAgent (.entered p) (by rw [ha]; rfl) (by rw [ha]; rfl)
      (by rw [ha]; rfl) trivial
    exact { henter with }
  · cases hs

/-- `ttwu_state_match` keeps it: the `pi_lock` was free, and a task that sleeps is not waking. -/
theorem lockPi_inv (h : Inv s) (hs : lockPi s a = some t) : Inv t := by
  unfold lockPi at hs
  split at hs
  · rename_i p ha
    split at hs
    · rename_i hpi
      split at hs
      · rename_i hstate
        obtain rfl := Option.some.inj hs
        have hmovers := h.movers_update (a := a) (x := .wake p .matched) (by rw [ha]; rfl)
        have hagents : ∀ b, ((s.setPiLock p (some a)).setAgent a (.wake p .matched)).AgentOk
            (Function.update s.agent a (.wake p .matched) b) := by
          refine (Function.forall_update_iff s.agent fun _ y => State.AgentOk _ y).2
            ⟨?_, fun b _ => (h.agents b).congr fun _ _ => rfl⟩
          show s.state p ≠ .waking
          simp [hstate]
        dsimp only [State.setPiLock, State.setAgent] at hagents ⊢
        exact { h with
          lockAgent := by grind [h.lockAgent, Agent.rq, Function.update_apply]
          piLock := by grind [h.piLock, Agent.wakes, Function.update_apply]
          lists := by grind [h.lists, Function.update_apply]
          listed := by grind [h.listed, Function.update_apply]
          agents := hagents
          mover := hmovers.1
          movers := hmovers.2 }
      · obtain rfl := Option.some.inj hs
        exact h.setAgent .idle (by rw [ha]; rfl) (by rw [ha]; rfl) (by rw [ha]; rfl) trivial
    · cases hs
  · cases hs

/-- The load of `p->on_rq` keeps it: with the `pi_lock`, a task that is on no queue and sleeps stays so. -/
theorem loadOnRq_inv (h : Inv s) (hs : loadOnRq s a = some t) : Inv t := by
  unfold loadOnRq at hs
  split at hs
  · rename_i p ha
    obtain rfl := Option.some.inj hs
    have hok : s.state p ≠ .waking := h.agent_ok ha
    split
    · exact h.setAgent _ (by rw [ha]; rfl) (by rw [ha]; rfl) (by rw [ha]; rfl) hok
    · rename_i hrq
      have hoff : s.onRq p = .none := not_not.1 hrq
      have hstate : s.state p = .sleeping := by
        have := h.off p hoff
        cases hp : s.state p <;> simp_all
      exact h.setAgent _ (by rw [ha]; rfl) (by rw [ha]; rfl) (by rw [ha]; rfl) ⟨hstate, hoff⟩
  · cases hs

/-- The read of `task_rq` keeps it: nothing is relied on yet, as the CPU may be an old one. -/
theorem readRq_inv (h : Inv s) (hs : readRq s a = some t) : Inv t := by
  unfold readRq at hs
  split at hs
  · rename_i p ha
    obtain rfl := Option.some.inj hs
    have hok : s.state p ≠ .waking := h.agent_ok ha
    exact h.setAgent _ (by rw [ha]; rfl) (by rw [ha]; rfl) (by rw [ha]; rfl) hok
  · cases hs

/-- `__task_rq_lock` keeps it: with the lock of its queue, a task that is not being moved stays there. -/
theorem lockRq_inv (h : Inv s) (hs : lockRq s a = some t) : Inv t := by
  unfold lockRq at hs
  split at hs
  · rename_i p c ha
    have hok : s.state p ≠ .waking := h.agent_ok ha
    split at hs
    · rename_i hlock
      split at hs
      · rename_i hcheck
        obtain rfl := Option.some.inj hs
        have hmovers := h.movers_update (a := a) (x := .wake p (.runnable c)) (by rw [ha]; rfl)
        have hagents : ∀ b, ((s.setRqLock c (some (.agent a))).setAgent a (.wake p (.runnable c))).AgentOk
            (Function.update s.agent a (.wake p (.runnable c)) b) :=
          (Function.forall_update_iff s.agent fun _ y => State.AgentOk _ y).2
            ⟨⟨hok, hcheck.1, hcheck.2⟩, fun b _ => (h.agents b).congr fun _ _ => rfl⟩
        dsimp only [State.setRqLock, State.setAgent] at hagents ⊢
        exact { h with
          lockCpu := by grind [h.lockCpu, Function.update_apply]
          lockAgent := by grind [h.lockAgent, Agent.rq, Function.update_apply]
          piLock := by grind [h.piLock, Agent.wakes, Function.update_apply]
          agents := hagents
          mover := hmovers.1
          movers := hmovers.2 }
      · obtain rfl := Option.some.inj hs
        exact h.setAgent _ (by rw [ha]; rfl) (by rw [ha]; rfl) (by rw [ha]; rfl) hok
    · cases hs
  · cases hs

/-- `ttwu_runnable` keeps it: a task on its queue is set `TASK_RUNNING` there, and one that has left it in the meantime sleeps. -/
theorem runnable_inv (h : Inv s) (hs : runnable s a = some t) : Inv t := by
  unfold runnable at hs
  split at hs
  · rename_i p c ha
    have hok : s.state p ≠ .waking ∧ s.taskCpu p = c ∧ s.onRq p ≠ .migrating := h.agent_ok ha
    obtain ⟨hnw, hcpu, hrq⟩ := hok
    have hlock : s.rqLock c = some (.agent a) := (h.lockAgent c a).2 (by rw [ha]; rfl)
    have hwakes : (s.agent a).wakes = some p := by rw [ha]; rfl
    have hpi := (h.piLock p a).2 hwakes
    split at hs
    · rename_i hqueued
      obtain rfl := Option.some.inj hs
      have hmovers := h.movers_update (a := a) (x := .idle) (by rw [ha]; rfl)
      have hagents : ∀ b,
          (((((s.setDelayed p false).setState p .running).setRqLock c none).setPiLock p none).setAgent a .idle).AgentOk
          (Function.update s.agent a .idle b) := by
        refine h.agents_own (p := p) (fun q hq => ?_) trivial hwakes hrq
        simp [State.view, State.setDelayed, State.setState, State.setRqLock, State.setPiLock, State.setAgent, hq]
      -- the CPU of the task is not in `__schedule`, or has released the lock: it is the agent's
      have hpc : (s.pc c).locks = false := by
        have := h.lockCpu c
        grind
      dsimp only [State.setDelayed, State.setState, State.setRqLock, State.setPiLock, State.setAgent] at hagents ⊢
      exact { h with
        lockCpu := by grind [h.lockCpu, Function.update_apply]
        lockAgent := by grind [h.lockAgent, Agent.rq, Function.update_apply]
        piLock := by grind [h.piLock, Agent.wakes, Function.update_apply]
        lists := by grind [h.lists, Function.update_apply]
        steady := by grind [h.steady, Function.update_apply]
        blocking := by grind [h.blocking, h.curr, Pc.locks, Function.update_apply]
        off := by grind [h.off, Function.update_apply]
        listed := by grind [h.listed, Function.update_apply]
        delayed := by grind [h.delayed, Function.update_apply]
        agents := hagents
        mover := hmovers.1
        movers := hmovers.2 }
    · rename_i hqueued
      obtain rfl := Option.some.inj hs
      have hoff : s.onRq p = .none := by cases hp : s.onRq p <;> simp_all
      have hstate : s.state p = .sleeping := by
        have := h.off p hoff
        cases hp : s.state p <;> simp_all
      have hmovers := h.movers_update (a := a) (x := .wake p .blocked) (by rw [ha]; rfl)
      have hagents : ∀ b, ((s.setRqLock c none).setAgent a (.wake p .blocked)).AgentOk
          (Function.update s.agent a (.wake p .blocked) b) :=
        (Function.forall_update_iff s.agent fun _ y => State.AgentOk _ y).2
          ⟨⟨hstate, hoff⟩, fun b _ => (h.agents b).congr fun _ _ => rfl⟩
      dsimp only [State.setRqLock, State.setAgent] at hagents ⊢
      exact { h with
        lockCpu := by grind [h.lockCpu, Function.update_apply]
        lockAgent := by grind [h.lockAgent, Agent.rq, Function.update_apply]
        piLock := by grind [h.piLock, Agent.wakes, Function.update_apply]
        agents := hagents
        mover := hmovers.1
        movers := hmovers.2 }
  · cases hs

/-- `TASK_WAKING` is set by who has the `pi_lock`, and keeps the invariant. -/
theorem setWaking_inv (h : Inv s) (hs : setWaking s a = some t) : Inv t := by
  unfold setWaking at hs
  split at hs
  · rename_i p ha
    have hok : s.state p = .sleeping ∧ s.onRq p = .none := h.agent_ok ha
    obtain ⟨hstate, hoff⟩ := hok
    have hwakes : (s.agent a).wakes = some p := by rw [ha]; rfl
    have hpi := (h.piLock p a).2 hwakes
    obtain rfl := Option.some.inj hs
    have hmovers := h.movers_update (a := a) (x := .wake p .waking) (by rw [ha]; rfl)
    have hagents : ∀ b, ((s.setState p .waking).setAgent a (.wake p .waking)).AgentOk
        (Function.update s.agent a (.wake p .waking) b) := by
      refine h.agents_own (p := p) (fun q hq => ?_) ⟨?_, ?_⟩ hwakes (by simp [hoff])
      · simp [State.view, State.setState, State.setAgent, hq]
      · simp [State.view, State.setState, State.setAgent]
      · simp [State.view, State.setState, State.setAgent, hoff]
    dsimp only [State.setState, State.setAgent] at hagents ⊢
    exact { h with
      lockAgent := by grind [h.lockAgent, Agent.rq, Function.update_apply]
      piLock := by grind [h.piLock, Agent.wakes, Function.update_apply]
      lists := by grind [h.lists, Function.update_apply]
      blocking := fun c hc => by
        obtain ⟨q, hq, hsleeping⟩ := h.blocking c hc
        have hqueued := (h.steady c q (by rw [hc]; rfl) hq).1
        grind [Function.update_apply]
      off := by grind [h.off, Function.update_apply]
      listed := by grind [h.listed, Function.update_apply]
      delayed := by grind [h.delayed, Function.update_apply]
      agents := hagents
      mover := hmovers.1
      movers := hmovers.2 }
  · cases hs

/-- The load of `p->on_cpu` keeps it: if the task is still on its CPU, the wake list is that of this CPU. -/
theorem loadOnCpu_inv (h : Inv s) {wakelist : Bool} (hs : loadOnCpu s a wakelist = some t) : Inv t := by
  unfold loadOnCpu at hs
  split at hs
  · rename_i p ha
    obtain rfl := Option.some.inj hs
    have hok : s.state p = .waking ∧ s.onRq p = .none := h.agent_ok ha
    split
    · exact h.setAgent _ (by rw [ha]; rfl) (by rw [ha]; rfl) (by rw [ha]; rfl) ⟨hok.1, hok.2, rfl⟩
    · exact h.setAgent _ (by rw [ha]; rfl) (by rw [ha]; rfl) (by rw [ha]; rfl) hok
  · cases hs

/-- The end of the wait for `p->on_cpu` keeps it: a task on no queue that is on no CPU comes on none until it is woken up. -/
theorem seeOffCpu_inv (h : Inv s) (hs : seeOffCpu s a = some t) : Inv t := by
  unfold seeOffCpu at hs
  split at hs
  · rename_i p ha
    split at hs
    · cases hs
    · rename_i hon
      obtain rfl := Option.some.inj hs
      have hok : s.state p = .waking ∧ s.onRq p = .none := h.agent_ok ha
      exact h.setAgent _ (by rw [ha]; rfl) (by rw [ha]; rfl) (by rw [ha]; rfl) ⟨hok.1, hok.2, Bool.eq_false_iff.2 hon⟩
  · cases hs

/-- `set_task_cpu` keeps it: the task is on no CPU and on no queue, so its CPU may change. -/
theorem select_inv (h : Inv s) (hs : select s a c = some t) : Inv t := by
  unfold select at hs
  split at hs
  · rename_i p ha
    have hok : s.state p = .waking ∧ s.onRq p = .none ∧ s.onCpu p = false := h.agent_ok ha
    obtain ⟨hstate, hoff, hon⟩ := hok
    have hwakes : (s.agent a).wakes = some p := by rw [ha]; rfl
    have hpi := (h.piLock p a).2 hwakes
    obtain rfl := Option.some.inj hs
    have hmovers := h.movers_update (a := a) (x := .wake p (.queueing c)) (by rw [ha]; rfl)
    have hagents : ∀ b, ((s.setTaskCpu p c).setAgent a (.wake p (.queueing c))).AgentOk
        (Function.update s.agent a (.wake p (.queueing c)) b) := by
      refine h.agents_own (p := p) (fun q hq => ?_) ⟨hstate, hoff, hon, ?_⟩ hwakes (by simp [hoff])
      · simp [State.view, State.setTaskCpu, State.setAgent, hq]
      · simp [State.view, State.setTaskCpu, State.setAgent]
    dsimp only [State.setTaskCpu, State.setAgent] at hagents ⊢
    exact { h with
      lockAgent := by grind [h.lockAgent, Agent.rq, Function.update_apply]
      piLock := by grind [h.piLock, Agent.wakes, Function.update_apply]
      queue := by grind [h.queue, Function.update_apply]
      lists := by grind [h.lists, Function.update_apply]
      onCpu := by grind [h.onCpu, h.curr, h.prev, Function.update_apply]
      curr := by grind [h.curr, h.onCpu, Function.update_apply]
      prev := by grind [h.prev, h.onCpu, Function.update_apply]
      listed := by grind [h.listed, Function.update_apply]
      agents := hagents
      mover := hmovers.1
      movers := hmovers.2 }
  · cases hs

/-- The wake list of the CPU the task is on. -/
theorem Inv.pushOn (h : Inv s) (hwakes : (s.agent a).wakes = some p) (hrq : (s.agent a).rq = none) (hstate : s.state p = .waking)
    (hoff : s.onRq p = .none) (hcpu : s.taskCpu p = c) : Inv (pushOn s a p c) := by
  have hpi := (h.piLock p a).2 hwakes
  have hmoves : (s.agent a).moves = none := by
    cases hagent : s.agent a <;> simp_all [Agent.wakes, Agent.moves]
  have hmovers := h.movers_update (a := a) (x := .idle) hmoves.symm
  have hagents : ∀ b, (Wakeup.pushOn s a p c).AgentOk (Function.update s.agent a .idle b) :=
    (Function.forall_update_iff s.agent fun _ y => State.AgentOk _ y).2 ⟨trivial, fun b _ => (h.agents b).congr fun _ _ => rfl⟩
  dsimp only [Wakeup.pushOn, State.setPiLock, State.setAgent] at hagents ⊢
  exact { h with
    lockAgent := by grind [h.lockAgent, Agent.rq, Function.update_apply]
    piLock := by grind [h.piLock, Agent.wakes, Function.update_apply]
    lists := fun d q => by
      have := h.lists d q
      grind [Function.update_apply]
    listed := by grind [h.listed, Function.update_apply]
    agents := hagents
    mover := hmovers.1
    movers := hmovers.2 }

/-- `ttwu_queue_wakelist` keeps it: the `pi_lock` is released, and the wake list has the task instead. -/
theorem push_inv (h : Inv s) (hs : push s a = some t) : Inv t := by
  unfold push at hs
  split at hs
  · rename_i p c ha
    obtain rfl := Option.some.inj hs
    have hok : s.state p = .waking ∧ s.onRq p = .none ∧ s.taskCpu p = c := h.agent_ok ha
    exact h.pushOn (by rw [ha]; rfl) (by rw [ha]; rfl) hok.1 hok.2.1 hok.2.2
  · rename_i p c ha
    obtain rfl := Option.some.inj hs
    have hok : s.state p = .waking ∧ s.onRq p = .none ∧ s.onCpu p = false ∧ s.taskCpu p = c := h.agent_ok ha
    exact h.pushOn (by rw [ha]; rfl) (by rw [ha]; rfl) hok.1 hok.2.1 hok.2.2.2
  · cases hs

/-- `ttwu_queue` keeps it: the task comes on the queue of the CPU chosen. -/
theorem activate_inv (h : Inv s) (hs : activate s a = some t) : Inv t := by
  unfold activate at hs
  split at hs
  · rename_i p c ha
    have hok : s.state p = .waking ∧ s.onRq p = .none ∧ s.onCpu p = false ∧ s.taskCpu p = c := h.agent_ok ha
    obtain ⟨hstate, hoff, hon, hcpu⟩ := hok
    have hwakes : (s.agent a).wakes = some p := by rw [ha]; rfl
    have hpi := (h.piLock p a).2 hwakes
    split at hs
    · rename_i hlock
      obtain rfl := Option.some.inj hs
      have hagents : ∀ b, (((s.setRqLock c (some (.agent a))).enqueue c p).setAgent a (.wake p (.activated c))).AgentOk
          (Function.update s.agent a (.wake p (.activated c)) b) := by
        refine h.agents_own (p := p) (fun q hq => ?_) ⟨hstate, ?_, hon, hcpu⟩ hwakes (by simp [hoff])
        · simp [State.view, State.setRqLock, State.enqueue, State.setAgent, hq]
        · simp [State.view, State.setRqLock, State.enqueue, State.setAgent]
      dsimp only [State.setRqLock, State.enqueue, State.setAgent] at hagents ⊢
      exact { h with
        lockCpu := by grind [h.lockCpu, Function.update_apply]
        lockAgent := by grind [h.lockAgent, Agent.rq, Function.update_apply]
        piLock := by grind [h.piLock, Agent.wakes, Function.update_apply]
        queue := by grind [h.queue, Function.update_apply]
        steady := by grind [h.steady, Function.update_apply]
        off := by grind [h.off, Function.update_apply]
        listed := by grind [h.listed, Function.update_apply]
        activated := by grind [h.activated, Function.update_apply]
        delayed := by grind [h.delayed, Function.update_apply]
        agents := hagents
        mover := fun q hq => by
          obtain ⟨b, hb⟩ := h.mover q (by grind [Function.update_apply])
          exact ⟨b, by grind [Agent.moves, Function.update_apply]⟩
        movers := by grind [h.movers, Agent.moves, Function.update_apply] }
    · cases hs
  · cases hs

/-- `ttwu_do_wakeup` keeps it: the task has been queued, and both locks are released. -/
theorem wakeup_inv (h : Inv s) (hs : wakeup s a = some t) : Inv t := by
  unfold wakeup at hs
  split at hs
  · rename_i p c ha
    have hok : s.state p = .waking ∧ s.onRq p = .queued ∧ s.onCpu p = false ∧ s.taskCpu p = c := h.agent_ok ha
    obtain ⟨hstate, hqueued, hon, hcpu⟩ := hok
    have hwakes : (s.agent a).wakes = some p := by rw [ha]; rfl
    have hpi := (h.piLock p a).2 hwakes
    have hlock : s.rqLock c = some (.agent a) := (h.lockAgent c a).2 (by rw [ha]; rfl)
    obtain rfl := Option.some.inj hs
    have hmovers := h.movers_update (a := a) (x := .idle) (by rw [ha]; rfl)
    have hagents : ∀ b, ((((s.setState p .running).setRqLock c none).setPiLock p none).setAgent a .idle).AgentOk
        (Function.update s.agent a .idle b) := by
      refine h.agents_own (p := p) (fun q hq => ?_) trivial hwakes (by simp [hqueued])
      simp [State.view, State.setState, State.setRqLock, State.setPiLock, State.setAgent, hq]
    dsimp only [State.setState, State.setRqLock, State.setPiLock, State.setAgent] at hagents ⊢
    exact { h with
      lockCpu := by grind [h.lockCpu, Function.update_apply]
      lockAgent := by grind [h.lockAgent, Agent.rq, Function.update_apply]
      piLock := by grind [h.piLock, Agent.wakes, Function.update_apply]
      lists := by grind [h.lists, Function.update_apply]
      blocking := by grind [h.blocking, → Inv.curr_onCpu, Function.update_apply]
      off := by grind [h.off, Function.update_apply]
      listed := by grind [h.listed, Function.update_apply]
      delayed := by grind [h.delayed, Function.update_apply]
      agents := hagents
      mover := hmovers.1
      movers := hmovers.2 }
  · cases hs

/-! ## `move_queued_task` -/

/-- `move_queued_task` begins with a task that waits on its queue, is on no CPU and is not waking up. -/
theorem move_inv (h : Inv s) (hs : move s a p c = some t) : Inv t := by
  unfold move at hs
  dsimp only at hs
  split at hs
  · rename_i hguard
    obtain ⟨ha, hlock, hqueued, hon⟩ := hguard
    obtain rfl := Option.some.inj hs
    have hnlock := h.locks_false hlock
    have hmover : ∀ b, (s.agent b).moves ≠ some p := fun b hb => by
      cases hqueued.symm.trans (h.moves_migrating hb).1
    -- who woke the task up to `ttwu_do_activate` has the lock of its queue
    have hactivates : ∀ d, (s.pc d).activates ≠ some p := fun d hd => by
      obtain ⟨-, -, hcpu⟩ := h.activates_waking hd
      rw [hcpu] at hnlock
      cases hpc : s.pc d <;> simp_all [Pc.activates, Pc.locks]
    have hagents : ∀ b, (((s.setRqLock (s.taskCpu p) (some (.agent a))).dequeue (s.taskCpu p) p .migrating).setAgent a
        (.moving p (s.taskCpu p) c)).AgentOk (Function.update s.agent a (.moving p (s.taskCpu p) c) b) := by
      refine h.agents_update (p := p) (fun q hq => ?_) ⟨?_, hon, rfl⟩ (fun b _ => hmover b) fun b _ stage hstage hok => ?_
      · simp [State.view, State.setRqLock, State.dequeue, State.setAgent, hq]
      · simp [State.setRqLock, State.dequeue, State.setAgent]
      · have hrq := h.rq_ne (.inl hlock) b
        rw [hstage] at hrq
        cases stage <;> simp_all [Stage.Ok, State.view, State.setRqLock, State.dequeue, State.setAgent, Agent.rq]
    dsimp only [State.setRqLock, State.dequeue, State.setAgent] at hagents ⊢
    exact { h with
      lockCpu := by grind [h.lockCpu, Function.update_apply]
      lockAgent := by grind [h.lockAgent, Agent.rq, Function.update_apply]
      piLock := by grind [h.piLock, Agent.wakes, Function.update_apply]
      queue := by grind [h.queue, Function.update_apply]
      steady := by grind [h.steady, → Inv.curr_onCpu, Function.update_apply]
      off := by grind [h.off, Function.update_apply]
      listed := by grind [h.listed, Function.update_apply]
      activated := by grind [h.activated, Function.update_apply]
      delayed := by grind [h.delayed, Function.update_apply]
      agents := hagents
      mover := fun q hq => by
        by_cases hqp : q = p
        · exact ⟨a, by grind [Agent.moves, Function.update_apply]⟩
        · obtain ⟨b, hb⟩ := h.mover q (by grind [Function.update_apply])
          exact ⟨b, by grind [Agent.moves, Function.update_apply]⟩
      movers := by grind [h.movers, Agent.moves, Function.update_apply] }
  · cases hs

/-- `set_task_cpu` in `move_queued_task` keeps the invariant: nobody else relies on the CPU of a task that is being moved. -/
theorem setTaskCpu_inv (h : Inv s) (hs : setTaskCpu s a = some t) : Inv t := by
  unfold setTaskCpu at hs
  split at hs
  · rename_i p c n ha
    have hok : s.onRq p = .migrating ∧ s.onCpu p = false ∧ s.taskCpu p = c := h.agent_ok ha
    obtain ⟨hrq, hon, hcpu⟩ := hok
    have hlock : s.rqLock c = some (.agent a) := (h.lockAgent c a).2 (by rw [ha]; rfl)
    have hnw : s.state p ≠ .waking := fun hw => by
      have := h.waking_off hw
      simp_all
    have hmoves : (s.agent a).moves = some p := by rw [ha]; rfl
    obtain rfl := Option.some.inj hs
    have hmovers := h.movers_update (a := a) (x := .moved p n) (by rw [ha]; rfl)
    have hagents : ∀ b, (((s.setTaskCpu p n).setRqLock c none).setAgent a (.moved p n)).AgentOk
        (Function.update s.agent a (.moved p n) b) := by
      refine h.agents_update (p := p) (fun q hq => ?_) ⟨hrq, hon, ?_⟩ (fun b hb hp => hb (h.movers p b a hp hmoves))
        fun b _ stage hstage hok => ?_
      · simp [State.view, State.setRqLock, State.setTaskCpu, State.setAgent, hq]
      · simp [State.setRqLock, State.setTaskCpu, State.setAgent]
      · cases stage <;> simp_all [Stage.Ok, State.view, State.setRqLock, State.setTaskCpu, State.setAgent]
    dsimp only [State.setRqLock, State.setTaskCpu, State.setAgent] at hagents ⊢
    exact { h with
      lockCpu := by grind [h.lockCpu, Function.update_apply]
      lockAgent := by grind [h.lockAgent, Agent.rq, Function.update_apply]
      piLock := by grind [h.piLock, Agent.wakes, Function.update_apply]
      queue := by grind [h.queue, Function.update_apply]
      lists := by grind [h.lists, Function.update_apply]
      onCpu := by grind [h.onCpu, h.curr, h.prev, Function.update_apply]
      curr := by grind [h.curr, h.onCpu, Function.update_apply]
      prev := by grind [h.prev, h.onCpu, Function.update_apply]
      listed := by grind [h.listed, Function.update_apply]
      agents := hagents
      mover := hmovers.1
      movers := hmovers.2 }
  · cases hs

/-- `move_queued_task` ends with the task on a queue again. -/
theorem arrive_inv (h : Inv s) (hs : arrive s a = some t) : Inv t := by
  unfold arrive at hs
  split at hs
  · rename_i p n ha
    have hok : s.onRq p = .migrating ∧ s.onCpu p = false ∧ s.taskCpu p = n := h.agent_ok ha
    obtain ⟨hrq, hon, hcpu⟩ := hok
    have hnw : s.state p ≠ .waking := fun hw => by
      have := h.waking_off hw
      simp_all
    have hmoves : (s.agent a).moves = some p := by rw [ha]; rfl
    split at hs
    · rename_i hlock
      obtain rfl := Option.some.inj hs
      have hagents : ∀ b, (((s.warn (decide (s.taskCpu p ≠ n))).enqueue n p).setAgent a .idle).AgentOk
          (Function.update s.agent a .idle b) := by
        refine h.agents_update (p := p) (fun q hq => ?_) trivial (fun b hb hp => hb (h.movers p b a hp hmoves))
          fun b _ stage hstage hok => ?_
        · simp [State.view, State.warn, State.enqueue, State.setAgent, hq]
        · cases stage <;> simp_all [Stage.Ok, State.view, State.warn, State.enqueue, State.setAgent]
      dsimp only [State.warn, State.enqueue, State.setAgent] at hagents ⊢
      exact { h with
        lockAgent := by grind [h.lockAgent, Agent.rq, Function.update_apply]
        piLock := by grind [h.piLock, Agent.wakes, Function.update_apply]
        queue := by grind [h.queue, Function.update_apply]
        steady := by grind [h.steady, Function.update_apply]
        off := by grind [h.off, Function.update_apply]
        listed := by grind [h.listed, Function.update_apply]
        activated := by grind [h.activated, Function.update_apply]
        delayed := by grind [h.delayed, Function.update_apply]
        agents := hagents
        mover := fun q hq => by
          obtain ⟨b, hb⟩ := h.mover q (by grind [Function.update_apply])
          exact ⟨b, by grind [h.movers, Agent.moves, Function.update_apply]⟩
        movers := by grind [h.movers, Agent.moves, Function.update_apply]
        warned := by simp [h.warned, hcpu] }
    · cases hs
  · cases hs

end OsLab.Wakeup
