import OsLab.Lemmas.WakeupCpu
import OsLab.Lemmas.WakeupAgents

/-!
# No wakeup is lost

When `CONDITION` holds of a task that is to sleep, the task has yet to test it, or somebody who set it has yet to test the state.
The first because the state is set before the test, the second because `CONDITION` is set before the state is tested.
-/

namespace OsLab.Wakeup

variable {T C A : Type} {s t : State T C A} {c d : C} {p q : T} {a b : A}

/-! ## Promises -/

/-- The task an agent has set `CONDITION` of, and has yet to set the state of. -/
def Agent.promises : Agent T C → Option T
  | .entered p => some p
  | .wake p .matched => some p
  | .wake p .toLock => some p
  | .wake p (.reading _) => some p
  | .wake p (.runnable _) => some p
  | .wake p .blocked => some p
  | _ => none

/-- The task is not lost: it has yet to test `CONDITION` or to leave the loop, or somebody will wake it up. -/
def State.Promised (s : State T C A) (p : T) : Prop :=
  (s.loop p = .announced ∨ s.loop p = .leaving) ∨ (∃ a, (s.agent a).promises = some p) ∨ ∃ c, s.curr c = some p ∧ s.self c ≠ .none

/-- A task that is to sleep although `CONDITION` holds is not lost. -/
def State.Kept (s : State T C A) : Prop := ∀ p, s.condition p = true → s.state p = .sleeping → s.Promised p

/-- A step of a CPU. -/
theorem State.Kept.cpu (h : s.Kept) (hagent : t.agent = s.agent) (hcond : t.condition = s.condition)
    (hstate : ∀ p, t.state p = .sleeping → s.state p = .sleeping)
    (hloop : ∀ p, s.loop p = .announced ∨ s.loop p = .leaving → t.loop p = s.loop p)
    (hself : ∀ c p, s.curr c = some p → s.self c ≠ .none → t.state p = .sleeping → t.curr c = some p ∧ t.self c ≠ .none) :
    t.Kept := by
  intro p hc hp
  rcases h p (hcond ▸ hc) (hstate p hp) with hl | hl | ⟨c, hcurr, hl⟩
  · exact .inl (by rwa [hloop p hl])
  · exact .inr (.inl (hagent ▸ hl))
  · exact .inr (.inr ⟨c, hself c p hcurr hl hp⟩)

/-- A step of a CPU that leaves the conditions, and the tasks on CPUs and in their loops, where they are. -/
theorem State.Kept.quiet (h : s.Kept) (hagent : t.agent = s.agent) (hcond : t.condition = s.condition) (hloop : t.loop = s.loop)
    (hcurr : t.curr = s.curr) (hself : t.self = s.self) (hstate : ∀ p, t.state p = .sleeping → s.state p = .sleeping) : t.Kept :=
  h.cpu hagent hcond hstate (fun p _ => congrFun hloop p) fun c p hd hl _ => ⟨(congrFun hcurr c).trans hd, by rwa [hself]⟩

/-- A task that becomes `TASK_RUNNING` is not to sleep. -/
theorem setState_sleeping [DecidableEq T] (hq : (s.setState p .running).state q = .sleeping) : s.state q = .sleeping := by
  by_cases hqp : q = p
  · simp [State.setState, hqp] at hq
  · simpa [State.setState, hqp] using hq

/-! ### Agents -/

section Agents

variable [DecidableEq A]

/-- A step of an agent: it keeps its promise, or the task is not to sleep. -/
theorem State.Kept.agent (h : s.Kept) {x : Agent T C} (hagent : t.agent = Function.update s.agent a x)
    (hkeep : ∀ p, (s.agent a).promises = some p → t.state p = .sleeping → x.promises = some p)
    (hcond : ∀ p, t.condition p = true → s.condition p = true ∨ x.promises = some p)
    (hstate : ∀ p, t.state p = .sleeping → s.state p = .sleeping) (hloop : t.loop = s.loop) (hcurr : t.curr = s.curr)
    (hself : t.self = s.self) : t.Kept := by
  intro p hc hp
  have hx : x.promises = some p → t.Promised p := fun hx => .inr (.inl ⟨a, by rw [hagent, Function.update_self]; exact hx⟩)
  rcases hcond p hc with hc | hc
  · rcases h p hc (hstate p hp) with hl | ⟨b, hb⟩ | hl
    · exact .inl (hloop ▸ hl)
    · by_cases hab : b = a
      · exact hx (hkeep p (hab ▸ hb) hp)
      · exact .inr (.inl ⟨b, by rw [hagent, Function.update_of_ne hab]; exact hb⟩)
    · exact .inr (.inr (by rwa [hcurr, hself]))
  · exact hx hc

/-- An agent that goes on as before. -/
theorem State.Kept.setAgent (h : s.Kept) {x : Agent T C} (hagent : t.agent = Function.update s.agent a x)
    (hkeep : x.promises = (s.agent a).promises) (hcond : t.condition = s.condition)
    (hstate : ∀ p, t.state p = .sleeping → s.state p = .sleeping) (hloop : t.loop = s.loop) (hcurr : t.curr = s.curr)
    (hself : t.self = s.self) : t.Kept :=
  h.agent hagent (fun _ hq _ => hkeep.trans hq) (fun _ hq => .inl (hcond ▸ hq)) hstate hloop hcurr hself

theorem loadOnRq_kept (h : s.Kept) (hs : loadOnRq s a = some t) : t.Kept := by
  unfold loadOnRq at hs
  split at hs
  · rename_i p ha
    obtain rfl := Option.some.inj hs
    refine h.setAgent (a := a) rfl ?_ rfl (fun _ hq => hq) rfl rfl rfl
    rw [ha]
    split <;> rfl
  · cases hs

theorem readRq_kept (h : s.Kept) (hs : readRq s a = some t) : t.Kept := by
  unfold readRq at hs
  split at hs
  · rename_i p ha
    obtain rfl := Option.some.inj hs
    exact h.setAgent (a := a) rfl (by rw [ha]; rfl) rfl (fun _ hq => hq) rfl rfl rfl
  · cases hs

theorem loadOnCpu_kept (h : s.Kept) {wakelist : Bool} (hs : loadOnCpu s a wakelist = some t) : t.Kept := by
  unfold loadOnCpu at hs
  split at hs
  · rename_i p ha
    obtain rfl := Option.some.inj hs
    refine h.setAgent (a := a) rfl ?_ rfl (fun _ hq => hq) rfl rfl rfl
    rw [ha]
    split <;> rfl
  · cases hs

theorem seeOffCpu_kept (h : s.Kept) (hs : seeOffCpu s a = some t) : t.Kept := by
  unfold seeOffCpu at hs
  split at hs
  · rename_i p ha
    split at hs
    · cases hs
    · obtain rfl := Option.some.inj hs
      exact h.setAgent (a := a) rfl (by rw [ha]; rfl) rfl (fun _ hq => hq) rfl rfl rfl
  · cases hs

theorem lockRq_kept [DecidableEq C] (h : s.Kept) (hs : lockRq s a = some t) : t.Kept := by
  unfold lockRq at hs
  split at hs
  · rename_i p c ha
    split at hs
    · split at hs
      · obtain rfl := Option.some.inj hs
        exact h.setAgent (a := a) rfl (by rw [ha]; rfl) rfl (fun _ hq => hq) rfl rfl rfl
      · obtain rfl := Option.some.inj hs
        exact h.setAgent (a := a) rfl (by rw [ha]; rfl) rfl (fun _ hq => hq) rfl rfl rfl
    · cases hs
  · cases hs

variable [DecidableEq T]

/-- The promise is kept: the state of the task is set. -/
theorem State.Kept.wakes (h : s.Kept) {x : Agent T C} {v : TaskState} (hagent : t.agent = Function.update s.agent a x)
    (hstate : t.state = Function.update s.state p v) (hv : v ≠ .sleeping) (ha : ∀ q, (s.agent a).promises = some q → q = p)
    (hcond : t.condition = s.condition) (hloop : t.loop = s.loop) (hcurr : t.curr = s.curr) (hself : t.self = s.self) : t.Kept := by
  have hne : ∀ q, t.state q = .sleeping → q ≠ p := fun q hq hqp => hv (by rwa [hstate, hqp, Function.update_self] at hq)
  refine h.agent hagent (fun q hq hsleep => absurd (ha q hq) (hne q hsleep)) (fun _ hq => .inl (hcond ▸ hq))
    (fun q hq => ?_) hloop hcurr
    hself
  have hqp := hne q hq
  rwa [hstate, Function.update_of_ne hqp] at hq

/-- If the state does not match, the task is not to sleep, and has yet to test `CONDITION` before it sleeps. -/
theorem lockPi_kept (h : s.Kept) (hs : lockPi s a = some t) : t.Kept := by
  unfold lockPi at hs
  split at hs
  · rename_i p ha
    split at hs
    · split at hs
      · obtain rfl := Option.some.inj hs
        exact h.agent (a := a) rfl (fun q hq _ => by rwa [ha] at hq) (fun _ hq => .inl hq) (fun _ hq => hq) rfl rfl rfl
      · rename_i hstate
        obtain rfl := Option.some.inj hs
        refine h.agent (a := a) rfl (fun q hq hsleep => ?_) (fun _ hq => .inl hq) (fun _ hq => hq) rfl rfl rfl
        rw [ha] at hq
        obtain rfl := Option.some.inj hq
        exact absurd hsleep hstate
    · cases hs
  · cases hs

/-- A task that becomes `TASK_WAKING` is not to sleep any more. -/
theorem setWaking_kept (h : s.Kept) (hs : setWaking s a = some t) : t.Kept := by
  unfold setWaking at hs
  split at hs
  · rename_i p ha
    obtain rfl := Option.some.inj hs
    exact h.wakes (a := a) (p := p) rfl rfl (by simp)
      (fun q hq => by rw [ha] at hq; exact (Option.some.inj hq).symm) rfl rfl rfl rfl
  · cases hs

theorem select_kept (h : s.Kept) (hs : select s a c = some t) : t.Kept := by
  unfold select at hs
  split at hs
  · rename_i p ha
    obtain rfl := Option.some.inj hs
    exact h.setAgent (a := a) rfl (by rw [ha]; rfl) rfl (fun _ hq => hq) rfl rfl rfl
  · cases hs

variable [DecidableEq C]

/-- Who sets `CONDITION` promises to test the state. -/
theorem enter_kept (h : s.Kept) (hs : enter s a p = some t) : t.Kept := by
  unfold enter at hs
  split at hs
  · rename_i ha
    obtain rfl := Option.some.inj hs
    refine h.agent (a := a) rfl (fun q hq => by simp [ha, Agent.promises] at hq) (fun q hq => ?_) (fun _ hq => hq) rfl rfl rfl
    by_cases hqp : q = p
    · exact .inr (by rw [hqp]; rfl)
    · exact .inl (by simpa [State.setCondition, State.setAgent, hqp] using hq)
  · cases hs

/-- A task on its queue becomes `TASK_RUNNING`; otherwise the promise goes on. -/
theorem runnable_kept (h : s.Kept) (hs : runnable s a = some t) : t.Kept := by
  unfold runnable at hs
  split at hs
  · rename_i p c ha
    split at hs
    · obtain rfl := Option.some.inj hs
      exact h.wakes (a := a) (p := p) rfl rfl (by simp)
        (fun q hq => by rw [ha] at hq; exact (Option.some.inj hq).symm) rfl rfl rfl rfl
    · obtain rfl := Option.some.inj hs
      exact h.setAgent (a := a) rfl (by rw [ha]; rfl) rfl (fun _ hq => hq) rfl rfl rfl
  · cases hs

/-- A task that comes on a wake list is waking, and not to sleep any more. -/
theorem push_kept (h : s.Kept) (hs : push s a = some t) : t.Kept := by
  unfold push at hs
  split at hs
  · rename_i p c ha
    obtain rfl := Option.some.inj hs
    exact h.setAgent (a := a) rfl (by rw [ha]; rfl) rfl (fun _ hq => hq) rfl rfl rfl
  · rename_i p c ha
    obtain rfl := Option.some.inj hs
    exact h.setAgent (a := a) rfl (by rw [ha]; rfl) rfl (fun _ hq => hq) rfl rfl rfl
  · cases hs

/-- A task that `ttwu_queue` activates is waking already. -/
theorem activate_kept (h : s.Kept) (hs : activate s a = some t) : t.Kept := by
  unfold activate at hs
  split at hs
  · rename_i p c ha
    split at hs
    · obtain rfl := Option.some.inj hs
      exact h.setAgent (a := a) rfl (by rw [ha]; rfl) rfl (fun _ hq => hq) rfl rfl rfl
    · cases hs
  · cases hs

/-- `ttwu_do_wakeup` keeps the promise: the task is `TASK_RUNNING`. -/
theorem wakeup_kept (h : s.Kept) (hs : wakeup s a = some t) : t.Kept := by
  unfold wakeup at hs
  split at hs
  · rename_i p c ha
    obtain rfl := Option.some.inj hs
    exact h.setAgent (a := a) rfl (by rw [ha]; rfl) rfl (fun _ hq => setState_sleeping hq) rfl rfl rfl
  · cases hs

theorem move_kept (h : s.Kept) (hs : move s a p c = some t) : t.Kept := by
  unfold move at hs
  dsimp only at hs
  split at hs
  · rename_i hguard
    obtain rfl := Option.some.inj hs
    exact h.setAgent (a := a) rfl (by rw [hguard.1]; rfl) rfl (fun _ hq => hq) rfl rfl rfl
  · cases hs

theorem setTaskCpu_kept (h : s.Kept) (hs : setTaskCpu s a = some t) : t.Kept := by
  unfold setTaskCpu at hs
  split at hs
  · rename_i p c n ha
    obtain rfl := Option.some.inj hs
    exact h.setAgent (a := a) rfl (by rw [ha]; rfl) rfl (fun _ hq => hq) rfl rfl rfl
  · cases hs

theorem arrive_kept (h : s.Kept) (hs : arrive s a = some t) : t.Kept := by
  unfold arrive at hs
  split at hs
  · rename_i p n ha
    split at hs
    · obtain rfl := Option.some.inj hs
      exact h.setAgent (a := a) rfl (by rw [ha]; rfl) rfl (fun _ hq => hq) rfl rfl rfl
    · cases hs
  · cases hs

end Agents

/-! ### Steps of a CPU that change no task -/

section

variable [DecidableEq C]

/-- A wakeup that finds the task not asleep owes it nothing. -/
theorem selfMatch_kept (h : s.Kept) (hs : selfMatch s c = some t) : t.Kept := by
  unfold selfMatch at hs
  split at hs
  · rename_i p hcurr
    split at hs
    · obtain rfl := Option.some.inj hs
      refine h.cpu rfl rfl (fun _ hq => hq) (fun _ _ => rfl) fun d q hd hself hq => ⟨hd, ?_⟩
      by_cases hdc : d = c
      · subst hdc
        obtain rfl := Option.some.inj (hcurr.symm.trans hd)
        have hstate : s.state p = .sleeping := hq
        simp [State.setSelf, hstate]
      · simpa [State.setSelf, hdc] using hself
    · cases hs
  · cases hs

theorem readState_kept (h : s.Kept) (hs : readState s c = some t) : t.Kept := by
  unfold readState at hs
  split at hs
  · split at hs
    · obtain rfl := Option.some.inj hs
      exact h.quiet rfl rfl rfl rfl rfl fun _ hq => hq
    · obtain rfl := Option.some.inj hs
      exact h.quiet rfl rfl rfl rfl rfl fun _ hq => hq
  · cases hs

theorem pend_kept (h : s.Kept) (hs : pend s c = some t) : t.Kept := by
  unfold pend at hs
  split at hs
  · split at hs
    · obtain rfl := Option.some.inj hs
      exact h.quiet rfl rfl rfl rfl rfl fun _ hq => hq
    · cases hs
  · cases hs

theorem endPending_kept (h : s.Kept) (hs : endPending s c = some t) : t.Kept := by
  unfold endPending at hs
  split at hs
  · obtain rfl := Option.some.inj hs
    exact h.quiet rfl rfl rfl rfl rfl fun _ hq => hq
  · cases hs

end

/-! ### The task and its own wakeup -/

variable [DecidableEq T]

/-- `set_current_state` comes before the test. -/
theorem announce_kept (h : s.Kept) (hs : announce s c = some t) : t.Kept := by
  unfold announce at hs
  split at hs
  · rename_i p hpc hcurr
    split at hs
    · rename_i hfree
      obtain rfl := Option.some.inj hs
      intro q hc hq
      by_cases hqp : q = p
      · subst hqp
        exact .inl (.inl (Function.update_self ..))
      · have hstate : s.state q = .sleeping := by simpa [State.setState, State.setLoop, hqp] using hq
        rcases h q hc hstate with hl | hl
        · exact .inl (by simpa [State.setState, State.setLoop, hqp] using hl)
        · exact .inr hl
    · cases hs
  · cases hs

/-- The task goes to sleep only if it has not seen `CONDITION`. -/
theorem test_kept (h : s.Kept) (hs : test s c = some t) : t.Kept := by
  unfold test at hs
  split at hs
  · rename_i p hpc hcurr
    split at hs
    · obtain rfl := Option.some.inj hs
      intro q hc hq
      by_cases hqp : q = p
      · subst hqp
        have hc' : s.condition q = true := hc
        exact .inl (.inr (by simp [State.setLoop, hc']))
      · rcases h q hc hq with hl | hl
        · exact .inl (by simpa [State.setLoop, hqp] using hl)
        · exact .inr hl
    · cases hs
  · cases hs

/-- A task that leaves the loop is `TASK_RUNNING` again. -/
theorem leave_kept (h : s.Kept) (hs : leave s c = some t) : t.Kept := by
  unfold leave at hs
  split at hs
  · rename_i p hpc hcurr
    split at hs
    · obtain rfl := Option.some.inj hs
      intro q hc hq
      have hqp : q ≠ p := fun hqp => by simp [State.setState, State.setLoop, hqp] at hq
      have hstate : s.state q = .sleeping := by simpa [State.setState, State.setLoop, hqp] using hq
      rcases h q hc hstate with hl | hl
      · exact .inl (by simpa [State.setState, State.setLoop, hqp] using hl)
      · exact .inr hl
    · cases hs
  · cases hs

/-- Nobody is owed anything when `CONDITION` is reset. -/
theorem consume_kept (h : s.Kept) (hs : consume s c = some t) : t.Kept := by
  unfold consume at hs
  split at hs
  · rename_i p hpc hcurr
    split at hs
    · obtain rfl := Option.some.inj hs
      intro q hc hq
      have hqp : q ≠ p := fun hqp => by simp [State.setCondition, hqp] at hc
      exact h q (by simpa [State.setCondition, hqp] using hc) hq
    · cases hs
  · cases hs

variable [DecidableEq C]

/-- Who sets `CONDITION` on the CPU of the task promises too. -/
theorem selfEnter_kept (h : s.Kept) (hs : selfEnter s c = some t) : t.Kept := by
  unfold selfEnter at hs
  split at hs
  · rename_i p hpc hcurr
    split at hs
    · rename_i hnone
      obtain rfl := Option.some.inj hs
      intro q hc hq
      by_cases hqp : q = p
      · subst hqp
        exact .inr (.inr ⟨c, hcurr, by simp [State.setSelf]⟩)
      · have hcond : s.condition q = true := by simpa [State.setCondition, State.setSelf, hqp] using hc
        rcases h q hcond hq with hl | hl | ⟨d, hd, hl⟩
        · exact .inl hl
        · exact .inr (.inl hl)
        · have hdc : d ≠ c := fun hdc => hl (hdc ▸ hnone)
          exact .inr (.inr ⟨d, hd, by simpa [State.setCondition, State.setSelf, hdc] using hl⟩)
    · cases hs
  · cases hs

/-- `ttwu_do_wakeup` of the current task keeps the promise: the task is `TASK_RUNNING`. -/
theorem selfWakeup_kept (h : s.Kept) (hs : selfWakeup s c = some t) : t.Kept := by
  unfold selfWakeup at hs
  split at hs
  · rename_i p hcurr
    split at hs
    · obtain rfl := Option.some.inj hs
      have hne : ∀ q, ((s.setState p .running).setSelf c .none).state q = .sleeping → q ≠ p := fun q hq hqp => by
        simp [State.setState, State.setSelf, hqp] at hq
      refine h.cpu rfl rfl (fun q hq => ?_) (fun _ _ => rfl) fun d q hd hself hq => ⟨hd, ?_⟩
      · simpa [State.setState, State.setSelf, hne q hq] using hq
      · have hdc : d ≠ c := fun hdc => hne q hq (Option.some.inj ((hdc ▸ hd).symm.trans hcurr))
        simpa [State.setState, State.setSelf, hdc] using hself
    · cases hs
  · cases hs

/-! ### `__schedule` and the interrupt -/

/-- A task calls `schedule` when it is not in the loop, or has not seen `CONDITION`. -/
theorem schedule_kept (h : s.Kept) {preempt : Bool} (hs : schedule s c preempt = some t) : t.Kept := by
  unfold schedule at hs
  split at hs
  · rename_i hguard
    obtain ⟨-, -, -, hmay⟩ := hguard
    obtain rfl := Option.some.inj hs
    cases preempt with
    | true => exact h.quiet rfl rfl rfl rfl rfl fun _ hq => hq
    | false =>
      cases hcurr : s.curr c with
      | none => exact h.quiet rfl rfl rfl rfl rfl fun _ hq => hq
      | some p =>
        refine h.cpu rfl rfl (fun _ hq => hq) (fun q hq => ?_) fun _ _ hd hself _ => ⟨hd, hself⟩
        have hqp : q ≠ p := fun hqp => by
          subst hqp
          rcases hq with hq | hq <;> simp [mayCall, hcurr, hq] at hmay
        exact Function.update_of_ne hqp ..
  · cases hs

/-- A task that leaves its queue keeps its state, and a signal makes it `TASK_RUNNING`. -/
theorem block_kept (h : s.Kept) {outcome : Outcome} (hs : block s c outcome = some t) : t.Kept := by
  unfold block at hs
  split at hs
  · cases outcome with
    | signal =>
      obtain rfl := Option.some.inj hs
      exact h.quiet rfl rfl rfl rfl rfl fun _ hq => setState_sleeping hq
    | dequeued =>
      obtain rfl := Option.some.inj hs
      exact h.quiet rfl rfl rfl rfl rfl fun _ hq => hq
    | delayed =>
      obtain rfl := Option.some.inj hs
      exact h.quiet rfl rfl rfl rfl rfl fun _ hq => hq
  · cases hs

/-- A task that leaves its queue keeps its state. -/
theorem reap_kept (h : s.Kept) (hs : reap s c p = some t) : t.Kept := by
  unfold reap at hs
  split at hs
  · obtain rfl := Option.some.inj hs
    exact h.quiet rfl rfl rfl rfl rfl fun _ hq => hq
  · cases hs

theorem release_kept (h : s.Kept) (hs : release s c = some t) : t.Kept := by
  unfold release at hs
  split at hs
  · obtain rfl := Option.some.inj hs
    exact h.quiet rfl rfl rfl rfl rfl fun _ hq => hq
  · cases hs

theorem retake_kept (h : s.Kept) (hs : retake s c = some t) : t.Kept := by
  unfold retake at hs
  split at hs
  · obtain rfl := Option.some.inj hs
    exact h.quiet rfl rfl rfl rfl rfl fun _ hq => hq
  · cases hs

/-- The CPU that switches is not in a wakeup of its own task. -/
theorem pick_kept (hinv : Inv s) (h : s.Kept) {next : Option T} (hs : pick s c next = some t) : t.Kept := by
  unfold pick at hs
  split at hs
  · rename_i hguard
    split at hs
    · obtain rfl := Option.some.inj hs
      exact h.quiet rfl rfl rfl rfl rfl fun _ hq => hq
    · obtain rfl := Option.some.inj hs
      rw [prepareTask_eq]
      refine h.cpu rfl rfl (fun _ hq => hq) (fun _ _ => rfl) fun d q hd hself _ => ⟨?_, hself⟩
      have hdc : d ≠ c := fun hdc => by
        have := hinv.self d hself
        rw [hdc, hguard.1] at this
        cases this
      simpa [State.setPc, hdc] using hd
  · cases hs

theorem finish_kept (h : s.Kept) (hs : finish s c = some t) : t.Kept := by
  unfold finish at hs
  split at hs
  · obtain rfl := Option.some.inj hs
    rw [finishTask_eq]
    exact h.quiet rfl rfl rfl rfl rfl fun _ hq => hq
  · cases hs

theorem flush_kept (h : s.Kept) (hs : flush s c = some t) : t.Kept := by
  unfold flush at hs
  split at hs
  · obtain rfl := Option.some.inj hs
    exact h.quiet rfl rfl rfl rfl rfl fun _ hq => hq
  · cases hs

/-- `sched_ttwu_pending` puts the task on its queue, and its state stays. -/
theorem activatePending_kept (hinv : Inv s) (h : s.Kept) (hs : activatePending s c = some t) : t.Kept := by
  unfold activatePending at hs
  split at hs
  · rename_i p todo hpc
    obtain ⟨-, -, hcpu, -, hon⟩ := hinv.pending_off hpc
    rw [if_neg (by simp [hon])] at hs
    simp only [hcpu, ne_eq, not_true_eq_false, if_false] at hs
    obtain rfl := Option.some.inj hs
    exact h.quiet rfl rfl rfl rfl rfl fun _ hq => hq
  · cases hs

/-- `ttwu_do_wakeup` in `sched_ttwu_pending` makes the task `TASK_RUNNING`. -/
theorem wakeupPending_kept (h : s.Kept) (hs : wakeupPending s c = some t) : t.Kept := by
  unfold wakeupPending at hs
  split at hs
  · obtain rfl := Option.some.inj hs
    exact h.quiet rfl rfl rfl rfl rfl fun _ hq => setState_sleeping hq
  · cases hs

/-! ### The start -/

/-- The invariant holds when nothing has begun. -/
theorem Start.inv (h : Start s) : Inv s where
  lockCpu c := by simp [h.rqLock, h.pc, Pc.locks]
  lockAgent c a := by simp [h.rqLock, h.agent, Agent.rq]
  piLock p a := by simp [h.piLock, h.agent, Agent.wakes]
  queue := h.queue
  lists c p := by
    have hnw : s.state p ≠ .waking := by
      rcases h.state p with hp | hp <;> simp [hp]
    simp [h.wakeList, h.pc, Pc.todo, hnw]
  onCpu p := by simp [h.onCpu, h.curr, h.pc]
  curr c p hp := by simp [h.curr] at hp
  prev c p hp := by simp [h.pc] at hp
  apart c p hp := by simp [h.pc] at hp
  steady c p _ hp := by simp [h.curr] at hp
  blocking c hp := by simp [h.pc] at hp
  off p hp := by
    rcases h.state p with hq | hq <;> simp_all
  listed p hp := by
    rcases h.state p with hq | hq <;> simp_all
  activated c p hp := by simp [h.pc, Pc.activates] at hp
  delayed p hp := by simp [h.schedDelayed] at hp
  agents a := by
    rw [h.agent]
    trivial
  mover p hp := by
    rcases h.state p with hq | hq <;> simp_all
  movers p a b hp := by simp [h.agent, Agent.moves] at hp
  self c hp := by simp [h.self] at hp
  warned := h.warned

/-- Nobody is to sleep when nothing has begun. -/
theorem Start.kept (h : Start s) : s.Kept := fun p hc => by
  rw [h.condition] at hc
  cases hc

variable [DecidableEq A]

/-! ### Runs -/

/-- Every step keeps the invariant. -/
theorem next_inv (h : Inv s) {act : Act T C A} (hs : next s act = some t) : Inv t := by
  cases act with
  | announce c => exact announce_inv h hs
  | test c => exact test_inv h hs
  | leave c => exact leave_inv h hs
  | consume c => exact consume_inv h hs
  | selfEnter c => exact selfEnter_inv h hs
  | selfMatch c => exact selfMatch_inv h hs
  | selfWakeup c => exact selfWakeup_inv h hs
  | schedule c preempt => exact schedule_inv h hs
  | readState c => exact readState_inv h hs
  | block c outcome => exact block_inv h hs
  | reap c p => exact reap_inv h hs
  | release c => exact release_inv h hs
  | retake c => exact retake_inv h hs
  | pick c next => exact pick_inv h hs
  | finish c => exact finish_inv h hs
  | flush c => exact flush_inv h hs
  | pend c => exact pend_inv h hs
  | activatePending c => exact activatePending_inv h hs
  | wakeupPending c => exact wakeupPending_inv h hs
  | endPending c => exact endPending_inv h hs
  | enter a p => exact enter_inv h hs
  | lockPi a => exact lockPi_inv h hs
  | loadOnRq a => exact loadOnRq_inv h hs
  | readRq a => exact readRq_inv h hs
  | lockRq a => exact lockRq_inv h hs
  | runnable a => exact runnable_inv h hs
  | setWaking a => exact setWaking_inv h hs
  | loadOnCpu a wakelist => exact loadOnCpu_inv h hs
  | seeOffCpu a => exact seeOffCpu_inv h hs
  | select a cpu => exact select_inv h hs
  | push a => exact push_inv h hs
  | activate a => exact activate_inv h hs
  | wakeup a => exact wakeup_inv h hs
  | move a p newCpu => exact move_inv h hs
  | setTaskCpu a => exact setTaskCpu_inv h hs
  | arrive a => exact arrive_inv h hs

/-- Every step keeps the promises. -/
theorem next_kept (hinv : Inv s) (h : s.Kept) {act : Act T C A} (hs : next s act = some t) : t.Kept := by
  cases act with
  | announce c => exact announce_kept h hs
  | test c => exact test_kept h hs
  | leave c => exact leave_kept h hs
  | consume c => exact consume_kept h hs
  | selfEnter c => exact selfEnter_kept h hs
  | selfMatch c => exact selfMatch_kept h hs
  | selfWakeup c => exact selfWakeup_kept h hs
  | schedule c preempt => exact schedule_kept h hs
  | readState c => exact readState_kept h hs
  | block c outcome => exact block_kept h hs
  | reap c p => exact reap_kept h hs
  | release c => exact release_kept h hs
  | retake c => exact retake_kept h hs
  | pick c next => exact pick_kept hinv h hs
  | finish c => exact finish_kept h hs
  | flush c => exact flush_kept h hs
  | pend c => exact pend_kept h hs
  | activatePending c => exact activatePending_kept hinv h hs
  | wakeupPending c => exact wakeupPending_kept h hs
  | endPending c => exact endPending_kept h hs
  | enter a p => exact enter_kept h hs
  | lockPi a => exact lockPi_kept h hs
  | loadOnRq a => exact loadOnRq_kept h hs
  | readRq a => exact readRq_kept h hs
  | lockRq a => exact lockRq_kept h hs
  | runnable a => exact runnable_kept h hs
  | setWaking a => exact setWaking_kept h hs
  | loadOnCpu a wakelist => exact loadOnCpu_kept h hs
  | seeOffCpu a => exact seeOffCpu_kept h hs
  | select a cpu => exact select_kept h hs
  | push a => exact push_kept h hs
  | activate a => exact activate_kept h hs
  | wakeup a => exact wakeup_kept h hs
  | move a p newCpu => exact move_kept h hs
  | setTaskCpu a => exact setTaskCpu_kept h hs
  | arrive a => exact arrive_kept h hs

/-- What every run from a start keeps. -/
theorem run_inv (hinv : Inv s) (h : s.Kept) {acts : List (Act T C A)} (hs : run s acts = some t) : Inv t ∧ t.Kept := by
  induction acts generalizing s with
  | nil =>
    obtain rfl := Option.some.inj hs
    exact ⟨hinv, h⟩
  | cons act acts ih =>
    obtain ⟨u, hu, hrun⟩ := Option.bind_eq_some_iff.1 hs
    exact ih (next_inv hinv hu) (next_kept hinv h hu) hrun

end OsLab.Wakeup
