import Mathlib.Logic.Function.Basic

/-!
# The preemptive coroutines of `os_lab3/coroutine.c`

Control is a continuation: a place in `main`, or a place on the stack of a slot. A statement is one step, and `SIGALRM` may be
delivered before any statement; the handler runs as one step, as the signal is blocked while it runs. `swapcontext` stores the
continuation of the statement after it and goes to a stored one. The handler has nothing left to do after its own `swapcontext`, so
what it stores is the place it interrupted.

A context that was never stored, or `coroutines[-1]`, leads to no next state.
-/

namespace OsLab.Coroutine

/-- `MAX_COROUTINES`. -/
def maxCoroutines : Nat := 10

/-- There is a slot. -/
theorem maxCoroutines_pos : 0 < maxCoroutines := by decide

abbrev Slot := Fin maxCoroutines

/-- The enumeration `State`. -/
inductive State where
  | free
  | runnable
  | running
  | suspend
  deriving DecidableEq, Repr

/-- What a coroutine is to do: plain steps, each with a number to tell it by, `coroutine_yield` and `coroutine_spawn`. -/
inductive Body where
  | ret
  | step (tag : Nat) (rest : Body)
  | yield (rest : Body)
  | spawn (f : Body) (rest : Body)
  deriving DecidableEq, Repr

namespace Body

/-- The plain steps, in order. -/
def steps : Body → List Nat
  | ret => []
  | step tag rest => tag :: rest.steps
  | yield rest => rest.steps
  | spawn _ rest => rest.steps

/-- The body is a sequence of plain steps and yields. -/
def Plain : Body → Prop
  | ret => True
  | step _ rest => rest.Plain
  | yield rest => rest.Plain
  | spawn _ _ => False

end Body

/-! ## Places in the program -/

/-- A place in `coroutine_spawn`. The four assignments to fields of `co->ctx` are one statement. -/
inductive SpawnPc where
  | scan (i : Slot)
  | claim (id : Slot)
  | bind (id : Slot)
  | getContext (id : Slot)
  | link (id : Slot)
  | makeContext (id : Slot)

/-- A place in `coroutine_yield`, with what it has read of `current_id`. -/
inductive YieldPc where
  | read
  | test (id : Option Slot)
  | suspend (id : Slot)
  | clear (id : Slot)
  | swap (id : Slot)

/-- A place in `coroutine_resume`. -/
inductive ResumePc where
  | check
  | setState
  | setCurrent
  | leave
  | swap
  | enter

/-- A place in `coroutine_wrapper` and what it calls, with what it has read of `current_id`. -/
inductive CoPc where
  | entry
  | call (id : Option Slot)
  | body (id : Slot) (rest : Body)
  | yielding (id : Slot) (rest : Body) (pc : YieldPc)
  | spawning (id : Slot) (rest : Body) (f : Body) (pc : SpawnPc)
  | finish (id : Slot)
  | clear (id : Slot)
  | exit (id : Slot)

/-- A place in `main`: a call of `coroutine_spawn`, with the bodies that are still to be spawned, or a place in the loop, with
`all_done` where it is not known to be 0. -/
inductive MainPc where
  | spawning (f : Body) (rest : List Body) (pc : SpawnPc)
  | start
  | test (i : Slot) (allDone : Bool)
  | mark (i : Slot)
  | resuming (i : Slot) (pc : ResumePc)
  | decide (allDone : Bool)
  | done

/-- A continuation: a place in `main`, or on the stack of a slot. -/
inductive Cont where
  | main (pc : MainPc)
  | co (stack : Slot) (pc : CoPc)

/-! ## The machine -/

/-- A plain step that was executed: `current_id` at the time, the stack it was executed on, and its number. -/
structure Ran where
  id : Option Slot
  stack : Slot
  tag : Nat

/-- The variable `scheduler`, with the coroutines field by field and `none` for -1 and for a context not stored; the
continuation that has control; and the plain steps executed so far. -/
structure Machine where
  mainCtx : Option Cont
  ctx : Slot → Option Cont
  state : Slot → State
  func : Slot → Option Body
  currentId : Option Slot
  inScheduler : Bool
  control : Cont
  log : List Ran

namespace Machine

def goto (m : Machine) (k : Cont) : Machine := { m with control := k }

def setState (m : Machine) (i : Slot) (x : State) : Machine := { m with state := Function.update m.state i x }

def setCtx (m : Machine) (i : Slot) (k : Cont) : Machine := { m with ctx := Function.update m.ctx i (some k) }

/-- `setcontext(&scheduler.main_ctx)`. -/
def toMain (m : Machine) : Option Machine :=
  match m.mainCtx with
  | none => none
  | some k => some (m.goto k)

/-- `swapcontext(&scheduler.main_ctx, &co->ctx)`, with the continuation it stores. -/
def toCo (m : Machine) (i : Slot) (k : Cont) : Option Machine :=
  match m.ctx i with
  | none => none
  | some k' => some ({ m with mainCtx := some k }.goto k')

end Machine

/-- The handler of `SIGALRM`. -/
def haddlePreemptiveScheduling (m : Machine) : Option Machine :=
  if m.inScheduler then some m
  else
    match m.currentId with
    | none => some m
    | some id =>
      if m.state id = .running then
        Machine.toMain ({ m.setState id .runnable with currentId := none }.setCtx id m.control)
      else some m

/-! ## Statements -/

/-- A statement of `coroutine_spawn(f)`; `k` is the continuation of a place in it, `ret` that of its return. -/
def coroutineSpawn (m : Machine) (f : Body) (k : SpawnPc → Cont) (ret : Cont) : SpawnPc → Machine
  | .scan i =>
    if m.state i = .free then m.goto (k (.claim i))
    else if h : i.val + 1 < maxCoroutines then m.goto (k (.scan ⟨i.val + 1, h⟩))
    else m.goto ret
  | .claim id => (m.setState id .runnable).goto (k (.bind id))
  | .bind id => { m with func := Function.update m.func id (some f) }.goto (k (.getContext id))
  | .getContext id => (m.setCtx id (k (.link id))).goto (k (.link id))
  | .link id => m.goto (k (.makeContext id))
  | .makeContext id => (m.setCtx id (.co id .entry)).goto ret

/-- A statement of `coroutine_yield`, on a stack; `k` is the continuation of a place in it, `ret` that of its return. -/
def coroutineYield (m : Machine) (k : YieldPc → Cont) (ret : Cont) : YieldPc → Option Machine
  | .read => some (m.goto (k (.test m.currentId)))
  | .test none => some (m.goto ret)
  | .test (some id) => some (m.goto (k (.suspend id)))
  | .suspend id => some ((m.setState id .suspend).goto (k (.clear id)))
  | .clear id => some ({ m with currentId := none }.goto (k (.swap id)))
  | .swap id => (m.setCtx id ret).toMain

/-- A statement of `coroutine_wrapper` or of the body it calls, on the stack of slot `j`. -/
def coroutineWrapper (m : Machine) (j : Slot) : CoPc → Option Machine
  | .entry => some (m.goto (.co j (.call m.currentId)))
  | .call none => none
  | .call (some id) =>
    match m.func id with
    | none => none
    | some f => some (m.goto (.co j (.body id f)))
  | .body id .ret => some (m.goto (.co j (.finish id)))
  | .body id (.step tag rest) =>
    some ({ m with log := m.log ++ [Ran.mk m.currentId j tag] }.goto (.co j (.body id rest)))
  | .body id (.yield rest) => some (m.goto (.co j (.yielding id rest .read)))
  | .body id (.spawn f rest) => some (m.goto (.co j (.spawning id rest f (.scan ⟨0, by decide⟩))))
  | .yielding id rest pc => coroutineYield m (fun pc => .co j (.yielding id rest pc)) (.co j (.body id rest)) pc
  | .spawning id rest f pc =>
    some (coroutineSpawn m f (fun pc => .co j (.spawning id rest f pc)) (.co j (.body id rest)) pc)
  | .finish id => some ((m.setState id .free).goto (.co j (.clear id)))
  | .clear id => some ({ m with currentId := none }.goto (.co j (.exit id)))
  | .exit _ => m.toMain

/-- The end of an iteration of the loop over the slots. -/
def MainPc.next (i : Slot) (allDone : Bool) : MainPc :=
  if h : i.val + 1 < maxCoroutines then .test ⟨i.val + 1, h⟩ allDone else .decide allDone

/-- The next call of `coroutine_spawn` in `main`, or the loop. -/
def MainPc.spawnNext : List Body → MainPc
  | [] => .start
  | f :: rest => .spawning f rest (.scan ⟨0, by decide⟩)

/-- A statement of `coroutine_resume(i)`. -/
def coroutineResume (m : Machine) (i : Slot) : ResumePc → Option Machine
  | .check =>
    if m.state i = .runnable ∨ m.state i = .suspend then some (m.goto (.main (.resuming i .setState)))
    else some (m.goto (.main (.next i false)))
  | .setState => some ((m.setState i .running).goto (.main (.resuming i .setCurrent)))
  | .setCurrent => some ({ m with currentId := some i }.goto (.main (.resuming i .leave)))
  | .leave => some ({ m with inScheduler := false }.goto (.main (.resuming i .swap)))
  | .swap => m.toCo i (.main (.resuming i .enter))
  | .enter => some ({ m with inScheduler := true }.goto (.main (.next i false)))

/-- A statement of `main`. -/
def main (m : Machine) : MainPc → Option Machine
  | .spawning f rest pc =>
    some (coroutineSpawn m f (fun pc => .main (.spawning f rest pc)) (.main (.spawnNext rest)) pc)
  | .start => some (m.goto (.main (.test ⟨0, by decide⟩ true)))
  | .test i allDone =>
    if m.state i ≠ .free then some (m.goto (.main (.mark i))) else some (m.goto (.main (.next i allDone)))
  | .mark i => some (m.goto (.main (.resuming i .check)))
  | .resuming i pc => coroutineResume m i pc
  | .decide allDone => if allDone then some (m.goto (.main .done)) else some (m.goto (.main .start))
  | .done => some m

/-! ## Runs -/

/-- What happens next: the statement that has control, or a delivery of `SIGALRM`. -/
inductive Label where
  | statement
  | signal
  deriving DecidableEq

/-- The next state; none where the program goes to a context that was never stored. -/
def step (m : Machine) : Label → Option Machine
  | .statement =>
    match m.control with
    | .main pc => main m pc
    | .co j pc => coroutineWrapper m j pc
  | .signal => haddlePreemptiveScheduling m

/-- The machine after `scheduler_init`, with the bodies that `main` is to spawn. -/
def schedulerInit (fs : List Body) : Machine where
  mainCtx := none
  ctx := fun _ => none
  state := fun _ => .free
  func := fun _ => none
  currentId := none
  inScheduler := true
  control := .main (.spawnNext fs)
  log := []

/-! ## What is said of a run -/

namespace Machine

/-- The handler would switch away from coroutine `i`. -/
def Preempts (m : Machine) (i : Slot) : Prop :=
  m.inScheduler = false ∧ m.currentId = some i ∧ m.state i = .running

/-- A signal is not delivered between `in_scheduler = 0` and `swapcontext` in `coroutine_resume`. -/
def Quiet (m : Machine) (l : Label) : Prop := l = .signal → ∀ i, m.control ≠ .main (.resuming i .swap)

/-- The plain steps executed on the stack of a slot. -/
def tags (m : Machine) (i : Slot) : List Nat := (m.log.filter (fun e => decide (e.stack = i))).map Ran.tag

/-- The continuation of the coroutine of a slot: the one that has control if it is on the slot's stack, else the one stored. -/
def cont (m : Machine) (i : Slot) : Option Cont :=
  match m.control with
  | .co j pc => if j = i then some (.co j pc) else m.ctx i
  | .main _ => m.ctx i

end Machine

/-- The plain steps that are left at a place of a coroutine with the body `f`. -/
def CoPc.steps (f : Body) : CoPc → List Nat
  | .entry => f.steps
  | .call _ => f.steps
  | .body _ rest => rest.steps
  | .yielding _ rest _ => rest.steps
  | .spawning _ rest _ _ => rest.steps
  | .finish _ => []
  | .clear _ => []
  | .exit _ => []

/-- The slot that `coroutine_spawn` is making. -/
def SpawnPc.slot : SpawnPc → Option Slot
  | .scan _ => none
  | .claim id => some id
  | .bind id => some id
  | .getContext id => some id
  | .link id => some id
  | .makeContext id => some id

/-- A step, as a relation. -/
def Step (m : Machine) (l : Label) (m' : Machine) : Prop := step m l = some m'

/-- A step in a run in which every signal is delivered outside that window. -/
def QuietStep (m : Machine) (l : Label) (m' : Machine) : Prop := m.Quiet l ∧ Step m l m'

end OsLab.Coroutine
