import OsLab.Lemmas.WakeupPromise

/-!
# Sleeping and waking up

Over every interleaving, with any number of tasks, CPUs and agents.
-/

namespace OsLab.Wakeup

variable {T C A : Type} {s s₀ : State T C A} {c d : C} {p q : T} {a b : A}

/-- A CPU has a task: it runs it, or has not finished to switch away from it. -/
def State.Has (s : State T C A) (c : C) (p : T) : Prop := s.curr c = some p ∨ s.pc c = .switching (some p)

/-- The task an agent is about. -/
def Agent.about : Agent T C → Option T
  | .idle => none
  | .entered p => some p
  | .wake p _ => some p
  | .moving p _ _ => some p
  | .moved p _ => some p

variable [DecidableEq T] [DecidableEq C]

/-- The CPU that has a task is that of `task_cpu`. -/
theorem Inv.has_cpu (h : Inv s) (hp : s.Has c p) : s.taskCpu p = c := hp.elim (h.curr c p) (h.prev c p)

variable [DecidableEq A]

/-- Two tasks are queued on CPU 0, all others sleep. -/
def twoQueued : State Nat Nat Nat where
  state p := if p < 2 then .running else .sleeping
  onRq p := if p < 2 then .queued else .none
  onCpu _ := false
  schedDelayed _ := false
  taskCpu _ := 0
  piLock _ := none
  loop _ := .free
  condition _ := false
  agent _ := .idle
  rqLock _ := none
  queue c := if c = 0 then [0, 1] else []
  curr _ := none
  wakeList _ := []
  pc _ := .running
  self _ := .none
  warned := false

/-- Nothing is going on there. -/
theorem twoQueued_start : Start twoQueued where
  state p := by
    by_cases hp : p < 2
    · exact .inr ⟨if_pos hp, if_pos hp⟩
    · exact .inl ⟨if_neg hp, if_neg hp⟩
  onCpu _ := rfl
  schedDelayed _ := rfl
  piLock _ := rfl
  loop _ := rfl
  condition _ := rfl
  agent _ := rfl
  rqLock _ := rfl
  queue c p := by
    rcases c with _ | c
    · rcases p with _ | _ | p <;> simp [twoQueued]
    · simp [twoQueued]
  curr _ := rfl
  wakeList _ := rfl
  pc _ := rfl
  self _ := rfl
  warned := rfl

/-- CPU 0 runs task 0, which finds no `CONDITION` and is taken off the queue. -/
def goesToSleep : List (Act Nat Nat Nat) :=
  [.schedule 0 true, .readState 0, .pick 0 (some 0), .finish 0, .announce 0, .test 0,
    .schedule 0 false, .readState 0, .block 0 .dequeued]

/-- CPU 0 balances, and the agent wakes the task up: it is to wait for `p->on_cpu`. -/
def waits : List (Act Nat Nat Nat) :=
  goesToSleep ++ [.release 0, .enter 0 0, .lockPi 0, .loadOnRq 0, .setWaking 0, .loadOnCpu 0 false]

/-- It has waited, and the task runs on CPU 1. -/
def movesOn : List (Act Nat Nat Nat) :=
  waits ++ [.retake 0, .pick 0 (some 1), .finish 0, .seeOffCpu 0, .select 0 1, .activate 0, .wakeup 0,
    .schedule 1 true, .readState 1, .pick 1 (some 0), .finish 1]

/-- It leaves the task on the wake list of CPU 0 instead. -/
def isListed : List (Act Nat Nat Nat) :=
  goesToSleep ++ [.enter 0 0, .lockPi 0, .loadOnRq 0, .setWaking 0, .loadOnCpu 0 true, .push 0]

end OsLab.Wakeup
