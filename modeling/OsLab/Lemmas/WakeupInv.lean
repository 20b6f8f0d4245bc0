import OsLab.Wakeup

/-!
# What holds between the steps of sleeping and waking up

The lock of a queue and `p->pi_lock` are with who is at a place where it has them. Then: a task on no queue is in the hands of one
`try_to_wake_up`, on one wake list, or sleeps.
-/

namespace OsLab.Wakeup

variable {T C A : Type} {s t : State T C A} {c d : C} {p q : T} {a b : A}

/-- The task whose `pi_lock` an agent has. -/
def Agent.wakes : Agent T C → Option T
  | .wake p _ => some p
  | _ => none

/-- The task an agent moves. -/
def Agent.moves : Agent T C → Option T
  | .moving p _ _ => some p
  | .moved p _ => some p
  | _ => none

/-- The queue whose lock an agent has. -/
def Agent.rq : Agent T C → Option C
  | .wake _ (.runnable c) => some c
  | .wake _ (.activated c) => some c
  | .moving _ c _ => some c
  | _ => none

/-- The CPU has the lock of its queue. -/
def Pc.locks : Pc T → Bool
  | .running => false
  | .flushing _ => false
  | .pending _ => true
  | .activated _ _ => true
  | .deciding _ => true
  | .blocking => true
  | .picking => true
  | .balancing => false
  | .switching _ => true

/-- The CPU is in `__schedule`. -/
def Pc.schedules : Pc T → Bool
  | .deciding _ => true
  | .blocking => true
  | .picking => true
  | .balancing => true
  | .switching _ => true
  | _ => false

/-- The CPU is in `pick_next_task`: its task may be off the queue. -/
def Pc.picks : Pc T → Bool
  | .running => false
  | .flushing _ => false
  | .pending _ => false
  | .activated _ _ => false
  | .deciding _ => false
  | .blocking => false
  | .picking => true
  | .balancing => true
  | .switching _ => false

/-- Outside `__schedule` nothing is picked. -/
theorem Pc.picks_of_schedules {x : Pc T} (h : x.schedules = false) : x.picks = false := by cases x <;> first | rfl | cases h

/-- Where a CPU is in `pick_next_task`. -/
theorem Pc.of_picks {x : Pc T} (h : x.picks = true) : x = .picking ∨ x = .balancing := by
  cases x with
  | picking => exact .inl rfl
  | balancing => exact .inr rfl
  | _ => cases h

/-- What is left of the wake list taken. -/
def Pc.todo : Pc T → List T
  | .flushing todo => todo
  | .pending todo => todo
  | .activated p todo => p :: todo
  | _ => []

/-- The task that is queued and not yet `TASK_RUNNING`. -/
def Pc.activates : Pc T → Option T
  | .activated p _ => some p
  | _ => none

/-- What agents read of a task. -/
structure View (C : Type) where
  state : TaskState
  onRq : OnRq
  onCpu : Bool
  cpu : C

def State.view (s : State T C A) (p : T) : View C := ⟨s.state p, s.onRq p, s.onCpu p, s.taskCpu p⟩

/-- What a `try_to_wake_up` can rely on. -/
def Stage.Ok (v : View C) : Stage C → Prop
  | .matched => v.state ≠ .waking
  | .toLock => v.state ≠ .waking
  | .reading _ => v.state ≠ .waking
  | .runnable c => v.state ≠ .waking ∧ v.cpu = c ∧ v.onRq ≠ .migrating
  | .blocked => v.state = .sleeping ∧ v.onRq = .none
  | .waking => v.state = .waking ∧ v.onRq = .none
  | .spinning => v.state = .waking ∧ v.onRq = .none
  | .selecting => v.state = .waking ∧ v.onRq = .none ∧ v.onCpu = false
  | .listing c => v.state = .waking ∧ v.onRq = .none ∧ v.cpu = c
  | .queueing c => v.state = .waking ∧ v.onRq = .none ∧ v.onCpu = false ∧ v.cpu = c
  | .activated c => v.state = .waking ∧ v.onRq = .queued ∧ v.onCpu = false ∧ v.cpu = c

/-- What an agent can rely on. -/
def State.AgentOk (s : State T C A) : Agent T C → Prop
  | .idle => True
  | .entered _ => True
  | .wake p stage => stage.Ok (s.view p)
  | .moving p c _ => s.onRq p = .migrating ∧ s.onCpu p = false ∧ s.taskCpu p = c
  | .moved p c => s.onRq p = .migrating ∧ s.onCpu p = false ∧ s.taskCpu p = c

/-- Who wakes up a task that is queued and on a CPU has not come to `TASK_WAKING`. -/
theorem Stage.Ok.of_curr {v v' : View C} {stage : Stage C} (h : stage.Ok v) (hqueued : v.onRq = .queued) (hon : v.onCpu = true)
    (hstate : v'.state ≠ .waking) (hcpu : v'.cpu = v.cpu) (hrq : v'.onRq ≠ .migrating) : stage.Ok v' := by
  cases stage <;> grind [Stage.Ok]

/-- Only the task an agent is about matters to it. -/
theorem State.AgentOk.congr {x : Agent T C} (h : s.AgentOk x)
    (hview : ∀ q, x.wakes = some q ∨ x.moves = some q → t.view q = s.view q) : t.AgentOk x := by
  cases x with
  | idle => trivial
  | entered p => trivial
  | wake p stage =>
    have := hview p (.inl rfl)
    simpa only [State.AgentOk, this] using h
  | moving p c n =>
    have := hview p (.inr rfl)
    simp only [State.view, View.mk.injEq] at this
    simpa only [State.AgentOk, this] using h
  | moved p n =>
    have := hview p (.inr rfl)
    simp only [State.view, View.mk.injEq] at this
    simpa only [State.AgentOk, this] using h

variable [DecidableEq T] [DecidableEq C]

/-- What holds between two steps. -/
structure Inv (s : State T C A) : Prop where
  lockCpu : ∀ c, s.rqLock c = some .cpu ↔ (s.pc c).locks = true
  lockAgent : ∀ c a, s.rqLock c = some (.agent a) ↔ (s.agent a).rq = some c
  piLock : ∀ p a, s.piLock p = some a ↔ (s.agent a).wakes = some p
  queue : ∀ c p, (s.queue c).count p = if s.onRq p = .queued ∧ s.taskCpu p = c then 1 else 0
  lists : ∀ c p, (s.wakeList c).count p + (s.pc c).todo.count p =
    if s.state p = .waking ∧ s.piLock p = none ∧ s.taskCpu p = c then 1 else 0
  onCpu : ∀ p, s.onCpu p = true ↔ s.curr (s.taskCpu p) = some p ∨ s.pc (s.taskCpu p) = .switching (some p)
  curr : ∀ c p, s.curr c = some p → s.taskCpu p = c
  prev : ∀ c p, s.pc c = .switching (some p) → s.taskCpu p = c
  apart : ∀ c p, s.pc c = .switching (some p) → s.curr c ≠ some p
  steady : ∀ c p, (s.pc c).picks = false → s.curr c = some p → s.onRq p = .queued ∧ s.schedDelayed p = false
  blocking : ∀ c, s.pc c = .blocking → ∃ p, s.curr c = some p ∧ s.state p = .sleeping
  off : ∀ p, s.onRq p = .none → s.state p ≠ .running
  listed : ∀ p, s.state p = .waking → s.piLock p = none → s.onRq p = .none ∨ (s.pc (s.taskCpu p)).activates = some p
  activated : ∀ c p, (s.pc c).activates = some p → s.onRq p = .queued ∧ s.onCpu p = false
  delayed : ∀ p, s.schedDelayed p = true → s.onRq p ≠ .none ∧ s.state p = .sleeping
  agents : ∀ a, s.AgentOk (s.agent a)
  mover : ∀ p, s.onRq p = .migrating → ∃ a, (s.agent a).moves = some p
  movers : ∀ p a b, (s.agent a).moves = some p → (s.agent b).moves = some p → a = b
  self : ∀ c, s.self c ≠ .none → (s.pc c).schedules = false
  warned : s.warned = false

/-! ## Consequences -/

namespace Inv

/-- The task on a CPU has `on_cpu` set. -/
theorem curr_onCpu (h : Inv s) (hcurr : s.curr c = some p) : s.onCpu p = true :=
  (h.onCpu p).2 (.inl ((h.curr c p hcurr).symm ▸ hcurr))

/-- A task runs on one CPU. -/
theorem curr_inj (h : Inv s) (hc : s.curr c = some p) (hd : s.curr d = some p) : c = d :=
  (h.curr c p hc).symm.trans (h.curr d p hd)

/-- What is on a wake list, or was, is waking and in nobody's hands. -/
theorem list_waking (h : Inv s) (hp : p ∈ s.wakeList c ∨ p ∈ (s.pc c).todo) :
    s.state p = .waking ∧ s.piLock p = none ∧ s.taskCpu p = c := by
  have hcount : 0 < (s.wakeList c).count p + (s.pc c).todo.count p := by
    rcases hp with hp | hp
    · exact Nat.add_pos_left (List.count_pos_iff.2 hp) _
    · exact Nat.add_pos_right _ (List.count_pos_iff.2 hp)
  rw [h.lists c p] at hcount
  by_contra hno
  rw [if_neg hno] at hcount
  exact Nat.lt_irrefl 0 hcount

/-- The task that `sched_ttwu_pending` activates is still counted with what is left of the list. -/
theorem activates_waking (h : Inv s) (hp : (s.pc c).activates = some p) :
    s.state p = .waking ∧ s.piLock p = none ∧ s.taskCpu p = c := by
  refine h.list_waking (.inr ?_)
  cases hpc : s.pc c <;> simp_all [Pc.activates, Pc.todo]

/-- A task that is waking is on no CPU when it is on a queue. -/
theorem waking_off (h : Inv s) (hw : s.state p = .waking) : s.onRq p = .none ∨ s.onRq p = .queued ∧ s.onCpu p = false := by
  cases hpi : s.piLock p with
  | none => exact (h.listed p hw hpi).imp_right (h.activated _ p)
  | some a =>
    have hok := h.agents a
    have hwakes := (h.piLock p a).1 hpi
    cases hagent : s.agent a with
    | wake q stage =>
      rw [hagent] at hok hwakes
      obtain rfl := Option.some.inj hwakes
      cases stage <;> grind [State.AgentOk, Stage.Ok, State.view]
    | _ =>
      rw [hagent] at hwakes
      cases hwakes

/-- The current task of a CPU is not waking. -/
theorem curr_not_waking (h : Inv s) (hpc : (s.pc c).picks = false) (hcurr : s.curr c = some p) : s.state p ≠ .waking := fun hw => by
  have hqueued := (h.steady c p hpc hcurr).1
  rcases h.waking_off hw with hoff | ⟨-, hoff⟩
  · cases hqueued.symm.trans hoff
  · cases (h.curr_onCpu hcurr).symm.trans hoff

/-- Nobody else has the lock of a queue. -/
theorem rq_ne (h : Inv s) (hlock : s.rqLock c = none ∨ s.rqLock c = some .cpu) (a : A) : (s.agent a).rq ≠ some c := fun ha => by
  have := (h.lockAgent c a).2 ha
  grind

/-- A CPU is nowhere where it has a lock that is free. -/
theorem locks_false (h : Inv s) (hlock : s.rqLock c = none) : (s.pc c).locks = false := by
  have := h.lockCpu c
  grind

/-- Nothing wakes up its own CPU's task in `__schedule`. -/
theorem self_none (h : Inv s) (hpc : (s.pc c).schedules = true) : s.self c = .none := by
  by_contra hself
  rw [h.self c hself] at hpc
  cases hpc

/-- One agent has the `pi_lock` of a task. -/
theorem wakes_inj (h : Inv s) (ha : (s.agent a).wakes = some p) (hb : (s.agent b).wakes = some p) : a = b :=
  Option.some.inj (((h.piLock p a).2 ha).symm.trans ((h.piLock p b).2 hb))

/-- A task that is moved is on no queue. -/
theorem moves_migrating (h : Inv s) (ha : (s.agent a).moves = some p) : s.onRq p = .migrating ∧ s.onCpu p = false := by
  have hok := h.agents a
  cases hagent : s.agent a with
  | moving q c n =>
    rw [hagent] at ha hok
    obtain rfl := Option.some.inj ha
    exact ⟨hok.1, hok.2.1⟩
  | moved q n =>
    rw [hagent] at ha hok
    obtain rfl := Option.some.inj ha
    exact ⟨hok.1, hok.2.1⟩
  | _ =>
    rw [hagent] at ha
    cases ha

/-- A task on a queue is counted there, and nowhere else. -/
theorem mem_queue (h : Inv s) : p ∈ s.queue c ↔ s.onRq p = .queued ∧ s.taskCpu p = c := by
  rw [← List.count_pos_iff, h.queue c p]
  split <;> simp_all

end Inv

/-! ## What other agents rely on -/

/-- One task changes, which nobody moves. -/
theorem Inv.agents_frame (h : Inv s) (hview : ∀ q, q ≠ p → t.view q = s.view q) (hmove : s.onRq p ≠ .migrating ∨ s.onCpu p = true)
    (hwake : ∀ b stage, s.agent b = .wake p stage → stage.Ok (s.view p) → stage.Ok (t.view p)) (b : A) : t.AgentOk (s.agent b) := by
  have hok := h.agents b
  by_cases hp : (s.agent b).wakes = some p
  · cases hb : s.agent b with
    | wake q stage =>
      rw [hb] at hp hok
      obtain rfl := Option.some.inj hp
      exact hwake b stage hb hok
    | _ => simp [hb, Agent.wakes] at hp
  · refine hok.congr fun q hq => hview q ?_
    rintro rfl
    rcases hq with hq | hq
    · exact hp hq
    · obtain ⟨hmigrating, hoff⟩ := h.moves_migrating hq
      simp [hmigrating, hoff] at hmove

/-! ## The task on a CPU -/

/-- The task on a CPU sets its state. -/
theorem Inv.setState_curr (h : Inv s) {x : TaskState} (hpc : (s.pc c).picks = false) (hcurr : s.curr c = some p) (hx : x ≠ .waking)
    (hblocking : s.pc c ≠ .blocking) : Inv (s.setState p x) := by
  have hnw := h.curr_not_waking hpc hcurr
  have hst := h.steady c p hpc hcurr
  have hon := h.curr_onCpu hcurr
  have hagents : ∀ b, (s.setState p x).AgentOk (s.agent b) :=
    h.agents_frame (p := p) (fun q hq => by simp [State.view, State.setState, hq]) (by simp [hst.1]) fun b stage _ hok =>
      hok.of_curr hst.1 hon (by simpa [State.view, State.setState] using hx) rfl (by simp [State.view, State.setState, hst.1])
  dsimp only [State.setState] at hagents ⊢
  exact { h with
    lists := by grind [h.lists, Function.update_apply]
    blocking := by grind [h.blocking, h.curr_inj, Function.update_apply]
    off := by grind [h.off, Function.update_apply]
    listed := by grind [h.listed, Function.update_apply]
    delayed := by grind [h.delayed, Function.update_apply]
    agents := hagents }

/-! ## `__schedule` and the interrupt: where the CPU is -/

/-- The CPU goes on, with or without the lock of its queue; the wake list it has taken stays, and it has finished a switch. -/
theorem Inv.setPc (h : Inv s) (x : Pc T) (lock : Option (Owner A)) (hlock : s.rqLock c = none ∨ s.rqLock c = some .cpu)
    (hx : lock = if x.locks then some .cpu else none) (htodo : x.todo = (s.pc c).todo)
    (hactivates : (s.pc c).activates = none ∧ x.activates = none)
    (hswitching : ∀ p, s.pc c ≠ .switching p ∧ x ≠ .switching p)
    (hsteady : x.picks = false → ∀ p, s.curr c = some p → s.onRq p = .queued ∧ s.schedDelayed p = false)
    (hblocking : x = .blocking → ∃ p, s.curr c = some p ∧ s.state p = .sleeping)
    (hself : x.schedules = true → s.self c = .none) : Inv ((s.setRqLock c lock).setPc c x) := by
  dsimp only [State.setRqLock, State.setPc]
  exact { h with
    lockCpu := by grind [h.lockCpu, Function.update_apply]
    lockAgent := by grind [h.lockAgent, h.rq_ne, Function.update_apply]
    lists := by grind [h.lists, Function.update_apply]
    onCpu := by grind [h.onCpu, Function.update_apply]
    prev := by grind [h.prev, Function.update_apply]
    apart := by grind [h.apart, Function.update_apply]
    steady := by grind [h.steady, Function.update_apply]
    blocking := by grind [h.blocking, Function.update_apply]
    listed := by grind [h.listed, Function.update_apply]
    activated := by grind [h.activated, Function.update_apply]
    self := by grind [h.self, Function.update_apply] }

end OsLab.Wakeup
