import OsLab.Lib.Word
import Mathlib.Logic.Function.Basic
import Mathlib.Data.Fin.Basic

/-!
# The sleeping coroutines of `os_lab3/coroutine.cpp`

Nothing interrupts a coroutine here, so a call of a function of the scheduler is one step, up to the context switch it ends in.
Control is a continuation: a place in `main`, or a place on the stack of a slot. A step may read the clock once; what it reads is
given to it. What a step did is its event, and a run is described by its events.

A context that was never stored, or `coroutines[-1]`, leads to no next state.
-/

namespace OsLab.Cooperative

/-- `MAX_COROUTINES`. -/
def maxCoroutines : Nat := 10

abbrev Slot := Fin maxCoroutines

/-- The enumeration `State`. -/
inductive State where
  | free
  | runnable
  | running
  | suspend
  | sleeping
  deriving DecidableEq, Repr

/-- What a coroutine is to do: plain steps, each with a number to tell it by, `coroutine_yield`, `coroutine_sleep` and
`coroutine_spawn`. -/
inductive Body where
  | ret
  | step (tag : Nat) (rest : Body)
  | yield (rest : Body)
  | sleep (seconds : Int) (rest : Body)
  | spawn (f : Body) (rest : Body)
  deriving DecidableEq, Repr

/-- The plain steps of a body, in order. -/
def Body.steps : Body → List Nat
  | .ret => []
  | .step tag rest => tag :: rest.steps
  | .yield rest => rest.steps
  | .sleep _ rest => rest.steps
  | .spawn _ rest => rest.steps

/-! ## Places in the program -/

/-- A place in `coroutine_wrapper`: its start, or what is left of the body it calls, with what it has read of `current_id`. -/
inductive CoPc where
  | entry
  | body (id : Slot) (rest : Body)

/-- A place in `main`: the bodies that are still to be spawned, or a place in the loop, with `all_done`. -/
inductive MainPc where
  | spawning (fs : List Body)
  | scan (i : Slot) (allDone : Bool)
  | decide (allDone : Bool)
  | done

/-- A continuation: a place in `main`, or on the stack of a slot. -/
inductive Cont where
  | main (pc : MainPc)
  | co (stack : Slot) (pc : CoPc)

/-- The end of an iteration of the loop over the slots. -/
def MainPc.next (i : Slot) (allDone : Bool) : MainPc :=
  if h : i.val + 1 < maxCoroutines then .scan ⟨i.val + 1, h⟩ allDone else .decide allDone

/-! ## The machine -/

/-- The variable `scheduler`, with the coroutines field by field and `none` for -1 and for a context not stored, and the
continuation that has control. -/
structure Machine where
  mainCtx : Option Cont
  ctx : Slot → Option Cont
  state : Slot → State
  func : Slot → Option Body
  wakeUpTime : Slot → Int
  currentId : Option Slot
  control : Cont

/-- What a step did. -/
inductive Event where
  /-- `coroutine_spawn(f)` returned the slot, or -1. -/
  | spawned (f : Body) (id : Option Slot)
  /-- The loop found the slot free. -/
  | passed (i : Slot)
  /-- The loop found the slot sleeping at a time before `wake_up_time`. -/
  | early (i : Slot) (now : Int)
  /-- `coroutine_resume(i)` returned without a switch. -/
  | refused (i : Slot)
  /-- `coroutine_resume(i)` switched to the slot; the time is what the loop read of the clock, if the slot was sleeping. -/
  | resumed (i : Slot) (now : Option Int)
  /-- The loop over the slots has ended, with `all_done`. -/
  | scanned (allDone : Bool)
  /-- `main` enters the loop. -/
  | began
  /-- `coroutine_wrapper` called its function. -/
  | called (id stack : Slot)
  /-- A plain step was executed on a stack, under an id. -/
  | ran (id : Option Slot) (stack : Slot) (tag : Nat)
  | yielded (stack : Slot)
  | slept (stack : Slot) (seconds now : Int)
  /-- The body on a stack returned. -/
  | finished (stack : Slot)
  deriving DecidableEq

namespace Machine

def goto (m : Machine) (k : Cont) : Machine := { m with control := k }

def setState (m : Machine) (i : Slot) (x : State) : Machine := { m with state := Function.update m.state i x }

def setCtx (m : Machine) (i : Slot) (k : Cont) : Machine := { m with ctx := Function.update m.ctx i (some k) }

/-- `setcontext(&scheduler.main_ctx)`. -/
def toMain (m : Machine) : Option Machine :=
  match m.mainCtx with
  | none => none
  | some k => some (m.goto k)

/-- `swapcontext(&scheduler.main_ctx, &co->ctx)`, with the continuation it stores. -/
def toCo (m : Machine) (i : Slot) (k : Cont) : Option Machine :=
  match m.ctx i with
  | none => none
  | some k' => some ({ m with mainCtx := some k }.goto k')

/-- The first slot whose state is `FREE`. -/
def findFree (m : Machine) : Option Slot := (List.finRange maxCoroutines).find? (fun i => decide (m.state i = .free))

end Machine

/-! ## Functions of the scheduler -/

/-- The machine after `scheduler_init`, with the bodies that `main` is to spawn. -/
def schedulerInit (fs : List Body) : Machine where
  mainCtx := none
  ctx := fun _ => none
  state := fun _ => .free
  func := fun _ => none
  wakeUpTime := fun _ => 0
  currentId := none
  control := .main (.spawning fs)

/-- `coroutine_spawn(f)`: what it returns, and the machine then. `makecontext` makes a context that starts on the slot's own stack,
in `coroutine_wrapper`. -/
def coroutineSpawn (m : Machine) (f : Body) : Option Slot × Machine :=
  match m.findFree with
  | none => (none, m)
  | some id =>
    (some id, { (m.setState id .runnable) with func := Function.update m.func id (some f) }.setCtx id (.co id .entry))

/-- `coroutine_resume(i)`, called where `k` is what follows; `now` is what the loop read of the clock before. -/
def coroutineResume (m : Machine) (i : Slot) (now : Option Int) (k : Cont) : Option (Event × Machine) :=
  if m.state i = .runnable ∨ m.state i = .suspend then
    ({ m.setState i .running with currentId := some i }.toCo i k).map (Prod.mk (.resumed i now))
  else some (.refused i, m.goto k)

/-- `coroutine_yield()`, called on the stack `j` where `k` is what follows. -/
def coroutineYield (m : Machine) (j : Slot) (k : Cont) : Option (Event × Machine) :=
  match m.currentId with
  | none => some (.yielded j, m.goto k)
  | some id => ({ m.setState id .suspend with currentId := none }.setCtx id k).toMain.map (Prod.mk (.yielded j))

/-- `coroutine_sleep(seconds)`, called on the stack `j` at the time `now`. -/
def coroutineSleep (m : Machine) (j : Slot) (seconds now : Int) (k : Cont) : Option (Event × Machine) :=
  match m.currentId with
  | none => some (.slept j seconds now, m.goto k)
  | some id =>
    ({ m.setState id .sleeping with
        wakeUpTime := Function.update m.wakeUpTime id (Word.addInt seconds now)
        currentId := none }.setCtx id k).toMain.map (Prod.mk (.slept j seconds now))

/-- The next call or plain step in `coroutine_wrapper`, on the stack of slot `j`. -/
def coroutineWrapper (m : Machine) (j : Slot) (now : Int) : CoPc → Option (Event × Machine)
  | .entry =>
    match m.currentId with
    | none => none
    | some id =>
      match m.func id with
      | none => none
      | some f => some (.called id j, m.goto (.co j (.body id f)))
  | .body id (.step tag rest) => some (.ran m.currentId j tag, m.goto (.co j (.body id rest)))
  | .body id (.yield rest) => coroutineYield m j (.co j (.body id rest))
  | .body id (.sleep seconds rest) => coroutineSleep m j seconds now (.co j (.body id rest))
  | .body id (.spawn f rest) =>
    some (.spawned f (coroutineSpawn m f).1, (coroutineSpawn m f).2.goto (.co j (.body id rest)))
  | .body id .ret => ({ m.setState id .free with currentId := none }.toMain).map (Prod.mk (.finished j))

/-- The next iteration or test in `main`. -/
def main (m : Machine) (now : Int) : MainPc → Option (Event × Machine)
  | .spawning [] => some (.began, m.goto (.main (.scan ⟨0, by decide⟩ true)))
  | .spawning (f :: fs) => some (.spawned f (coroutineSpawn m f).1, (coroutineSpawn m f).2.goto (.main (.spawning fs)))
  | .scan i allDone =>
    match m.state i with
    | .free => some (.passed i, m.goto (.main (.next i allDone)))
    | .sleeping =>
      if m.wakeUpTime i ≤ now then coroutineResume (m.setState i .runnable) i (some now) (.main (.next i false))
      else some (.early i now, m.goto (.main (.next i false)))
    | _ => coroutineResume m i none (.main (.next i false))
  | .decide true => some (.scanned true, m.goto (.main .done))
  | .decide false => some (.scanned false, m.goto (.main (.scan ⟨0, by decide⟩ true)))
  | .done => none

/-! ## Runs -/

/-- The next step, when the clock reads `now`; none after the end, and where the program goes to a context that was never
stored. -/
def step (m : Machine) (now : Int) : Option (Event × Machine) :=
  match m.control with
  | .main pc => main m now pc
  | .co j pc => coroutineWrapper m j now pc

/-- A step at some time. -/
def Step (m : Machine) (e : Event) (m' : Machine) : Prop := ∃ now, step m now = some (e, m')

/-! ## What is said of a run -/

/-- A body that was spawned: the plain steps executed of it, and whether it has returned. -/
structure Life where
  body : Body
  ran : List Nat
  finished : Bool
  deriving DecidableEq

/-- What an event adds to the bodies spawned into slot `i`, the last one first. -/
def Event.live (i : Slot) (ls : List Life) : Event → List Life
  | .spawned f (some id) => if id = i then ⟨f, [], false⟩ :: ls else ls
  | .ran _ stack tag => if stack = i then ls.modifyHead (fun l => { l with ran := l.ran ++ [tag] }) else ls
  | .finished stack => if stack = i then ls.modifyHead (fun l => { l with finished := true }) else ls
  | _ => ls

/-- The bodies spawned into slot `i` by the events, the last one first. -/
def lives (i : Slot) (es : List Event) : List Life := es.foldl (Event.live i) []

/-- The slot the loop came to. -/
def Event.visited : Event → Option Slot
  | .passed i => some i
  | .early i _ => some i
  | .refused i => some i
  | .resumed i _ => some i
  | _ => none

/-- The loop switched to slot `j`. -/
def Event.resumes (j : Slot) : Event → Bool
  | .resumed i _ => decide (i = j)
  | _ => false

/-- `main` has control. -/
def Machine.InMain (m : Machine) : Prop := ∃ pc, m.control = .main pc

/-- The slot is neither `FREE` nor `SLEEPING`. -/
def Machine.Ready (m : Machine) (j : Slot) : Prop := m.state j ≠ .free ∧ m.state j ≠ .sleeping

instance (m : Machine) : Decidable m.InMain :=
  match h : m.control with
  | .main pc => .isTrue ⟨pc, h⟩
  | .co _ _ => .isFalse fun ⟨_, hm⟩ => nomatch h.symm.trans hm

instance (m : Machine) (j : Slot) : Decidable (m.Ready j) :=
  inferInstanceAs (Decidable (_ ∧ _))

/-- The body has run to its end. -/
def Life.Complete (l : Life) : Prop := l.finished = true ∧ l.ran = l.body.steps

end OsLab.Cooperative
