import OsLab.Lib.Run
import OsLab.Lib.Seg
import Mathlib.Logic.Function.Basic

/-!
# The thread pool of `os_lab2/thread_pooling.cpp`

Any number of calls of `thread_pool_submit` and `thread_pool_destroy` run beside `n` workers. A section under the lock is one
step, and so is what a thread does between two sections. The queue is the linked list of the source, over a store of `Task`
structures; pointers are numbers, and `0` is the null pointer.

A function and its argument are named by the number of the submit call that brought them. A call with a null argument, or whose
`malloc` fails, returns at once. A task that submits does so while its worker is `running`. `pthread_cond_signal` wakes at least
one waiter if there is one, and a waiter may wake with no signal.

Once `thread_pool_destroy` has destroyed the lock and freed the pool, whoever still locks, reads or writes it does so without
meaning: from there every state may follow (`misuse`).
-/

namespace OsLab.Pool

/-- `Task`: what is to be done, and the next task. -/
structure Task where
  work : Nat
  next : Nat

/-- Where a worker is: before `pthread_mutex_lock`; in `pthread_cond_wait`; woken, before the lock is its own again; with a task
taken from the queue; in the task's function; gone. -/
inductive Worker where
  | ready
  | waiting
  | woken
  | taken (task : Nat)
  | running (task : Nat)
  | exited
  deriving DecidableEq

/-- Where a call of `thread_pool_submit` is: not made; before `pthread_mutex_lock`, with its task; refused under the lock, with
its task still to be freed; returned. -/
inductive Submit where
  | idle
  | began (task : Nat)
  | rejected (task : Nat)
  | returned (code : Int)
  deriving DecidableEq

/-- Where a call of `thread_pool_destroy` is: not made; before `pthread_mutex_lock`; joining, with so many workers joined;
returned. -/
inductive Destroy where
  | idle
  | began
  | joining (joined : Nat)
  | returned
  deriving DecidableEq

/-- The pool, its tasks, and where the threads are. -/
structure State (n : Nat) where
  head : Nat
  tail : Nat
  shutdown : Bool
  freed : Bool
  misused : Bool
  tasks : Nat → Option Task
  worker : Fin n → Worker
  submit : Nat → Submit
  destroy : Nat → Destroy

variable {n : Nat}

/-- A pool whose workers have started. -/
def State.init (n : Nat) : State n where
  head := 0
  tail := 0
  shutdown := false
  freed := false
  misused := false
  tasks := fun _ => none
  worker := fun _ => .ready
  submit := fun _ => .idle
  destroy := fun _ => .idle

namespace State

def setWorker (s : State n) (w : Fin n) (x : Worker) : State n := { s with worker := Function.update s.worker w x }

def setSubmit (s : State n) (i : Nat) (x : Submit) : State n := { s with submit := Function.update s.submit i x }

def setDestroy (s : State n) (d : Nat) (x : Destroy) : State n := { s with destroy := Function.update s.destroy d x }

def setTask (s : State n) (a : Nat) (x : Option Task) : State n := { s with tasks := Function.update s.tasks a x }

end State

/-- A step: a submit call is refused before the lock, begins, is rejected or accepted under the lock, frees its rejected task; a
worker waits, exits, takes a task, wakes with no signal, runs its task, frees it; a destroy call begins, finds the pool shut
down, shuts it down, joins a worker, frees the pool; the freed pool is used. -/
inductive Label (n : Nat) where
  | refuse (i : Nat)
  | callSubmit (i : Nat)
  | reject (i : Nat)
  | accept (i : Nat)
  | drop (i : Nat)
  | wait (w : Fin n)
  | exit (w : Fin n)
  | take (w : Fin n) (work : Nat)
  | wake (w : Fin n)
  | execute (w : Fin n) (work : Nat)
  | release (w : Fin n)
  | callDestroy (d : Nat)
  | again (d : Nat)
  | close (d : Nat)
  | join (d : Nat)
  | free (d : Nat)
  | misuse
  deriving DecidableEq

/-! ## Sections under the lock -/

/-- The section of `thread_pool_worker`, from the test of the loop around `pthread_cond_wait` on. -/
def workerSection (s : State n) (w : Fin n) : Option (State n × Label n) :=
  if s.head = 0 ∧ s.shutdown = false then some (s.setWorker w .waiting, .wait w)
  else if s.shutdown = true ∧ s.head = 0 then some (s.setWorker w .exited, .exit w)
  else
    match s.tasks s.head with
    | none => none
    | some task =>
      some ({ s with head := task.next, tail := if task.next = 0 then 0 else s.tail }.setWorker w (.taken s.head),
        .take w task.work)

/-- The tail insertion of `thread_pool_submit`. -/
def enqueue (s : State n) (a : Nat) : Option (State n) :=
  if s.head = 0 then some { s with head := a, tail := a }
  else
    match s.tasks s.tail with
    | none => none
    | some last => some { s.setTask s.tail (some { last with next := a }) with tail := a }

/-- `pthread_cond_signal`: some waiters wake, at least one if there is one. -/
def Signalled (ws ws' : Fin n → Worker) : Prop :=
  (∀ w, ws' w = ws w ∨ (ws w = .waiting ∧ ws' w = .woken)) ∧
    ((∃ w, ws w = .waiting) → ∃ w, ws w = .waiting ∧ ws' w = .woken)

/-- `pthread_cond_broadcast`: all waiters wake. -/
def broadcast (ws : Fin n → Worker) : Fin n → Worker := fun w => if ws w = .waiting then .woken else ws w

/-! ## Steps -/

/-- Some thread's next step locks, reads or writes the pool. -/
def State.Touches (s : State n) : Prop :=
  (∃ w, s.worker w = .ready ∨ s.worker w = .woken) ∨ (∃ i a, s.submit i = .began a) ∨
    ∃ d, s.destroy d = .began ∨ ∃ k, s.destroy d = .joining k

/-- The steps of the threads. -/
inductive Step : State n → Label n → State n → Prop where
  | refuse {s : State n} {i : Nat} : s.submit i = .idle → Step s (.refuse i) (s.setSubmit i (.returned (-1)))
  | callSubmit {s : State n} {i a : Nat} : s.submit i = .idle → a ≠ 0 → s.tasks a = none →
      Step s (.callSubmit i) ((s.setTask a (some { work := i, next := 0 })).setSubmit i (.began a))
  | reject {s : State n} {i a : Nat} : s.freed = false → s.submit i = .began a → s.shutdown = true →
      Step s (.reject i) (s.setSubmit i (.rejected a))
  | accept {s s' : State n} {i a : Nat} {ws : Fin n → Worker} : s.freed = false → s.submit i = .began a →
      s.shutdown = false → enqueue s a = some s' → Signalled s'.worker ws →
      Step s (.accept i) ({ s' with worker := ws }.setSubmit i (.returned 0))
  | drop {s : State n} {i a : Nat} : s.submit i = .rejected a →
      Step s (.drop i) ((s.setTask a none).setSubmit i (.returned (-1)))
  | section {s s' : State n} {w : Fin n} {l : Label n} : s.freed = false → s.worker w = .ready ∨ s.worker w = .woken →
      workerSection s w = some (s', l) → Step s l s'
  | wake {s : State n} {w : Fin n} : s.worker w = .waiting → Step s (.wake w) (s.setWorker w .woken)
  | execute {s : State n} {w : Fin n} {a : Nat} {task : Task} : s.worker w = .taken a → s.tasks a = some task →
      Step s (.execute w task.work) (s.setWorker w (.running a))
  | release {s : State n} {w : Fin n} {a : Nat} : s.worker w = .running a →
      Step s (.release w) ((s.setTask a none).setWorker w .ready)
  | callDestroy {s : State n} {d : Nat} : s.destroy d = .idle → Step s (.callDestroy d) (s.setDestroy d .began)
  | again {s : State n} {d : Nat} : s.freed = false → s.destroy d = .began → s.shutdown = true →
      Step s (.again d) (s.setDestroy d .returned)
  | close {s : State n} {d : Nat} : s.freed = false → s.destroy d = .began → s.shutdown = false →
      Step s (.close d) ({ s with shutdown := true, worker := broadcast s.worker }.setDestroy d (.joining 0))
  | join {s : State n} {d : Nat} {k : Fin n} : s.freed = false → s.destroy d = .joining k → s.worker k = .exited →
      Step s (.join d) (s.setDestroy d (.joining (k + 1)))
  | free {s : State n} {d : Nat} : s.freed = false → s.destroy d = .joining n →
      Step s (.free d) ({ s with freed := true }.setDestroy d .returned)
  | misuse {s s' : State n} : s.freed = true → s.Touches → s'.misused = true → Step s .misuse s'

/-! ## What a run did -/

/-- The calls accepted, in order. -/
def accepted (tr : List (Label n)) : List Nat := tr.filterMap (fun l => match l with | .accept i => some i | _ => none)

/-- The calls whose tasks were taken from the queue, in order. -/
def taken (tr : List (Label n)) : List Nat := tr.filterMap (fun l => match l with | .take _ i => some i | _ => none)

/-- The calls whose tasks were executed, in order. -/
def executed (tr : List (Label n)) : List Nat := tr.filterMap (fun l => match l with | .execute _ i => some i | _ => none)

/-- The destroy calls that freed the pool. -/
def frees (tr : List (Label n)) : List Nat := tr.filterMap (fun l => match l with | .free d => some d | _ => none)

/-- The next pointer of the task a pointer leads to. -/
def State.nextOf (s : State n) (a : Nat) : Nat :=
  match s.tasks a with
  | some task => task.next
  | none => 0

/-- The queue is the list `q` of task pointers: the links lead from `head` through `q` to null, and `tail` is the last of `q`. -/
def State.Queue (s : State n) (q : List Nat) : Prop :=
  Seg id (fun a => a ≠ 0 ∧ (s.tasks a).isSome = true) s.nextOf s.head q 0 ∧ s.tail = q.getLast?.getD 0

/-- The pool is not freed while another call is before its section, and no call is made after. -/
def SafeStep (s : State n) (l : Label n) (s' : State n) : Prop :=
  Step s l s' ∧
    match l with
    | .free d => (∀ i a, s.submit i ≠ .began a) ∧ ∀ d', d' ≠ d → s.destroy d' ≠ .began
    | .callSubmit _ => s.freed = false
    | .callDestroy _ => s.freed = false
    | _ => True

end OsLab.Pool
