import OsLab.Lemmas.PoolQueue
import OsLab.Lib.Dispatch

/-!
# The pool dispatches jobs first come, first served

`State.dispatch` forgets the pointers: what is left of a pool is the jobs that wait and the job each worker has yet to execute.
Accepting, taking and executing are the operations of `Dispatch`, and no other step of a thread moves a job (`Linked.step`).
-/

namespace OsLab.Pool

variable {n : Nat}

/-- The job a worker has taken and not executed. -/
def State.heldBy (s : State n) (w : Fin n) : Option Nat :=
  match s.worker w with
  | .taken a => some (s.workOf a)
  | _ => none

/-- The pool, with its pointers forgotten. -/
def State.dispatch (s : State n) (q : List Nat) : Dispatch (Fin n) Nat where
  queued := q.map s.workOf
  held := s.heldBy

/-- The operation on jobs a step of a thread is. -/
def Label.op : Label n → Option (Dispatch.Op (Fin n) Nat)
  | .accept i => some (.accept i)
  | .take w i => some (.take w i)
  | .execute w i => some (.execute w i)
  | _ => none

/-- A step of a thread moves the jobs as its operation does, or not at all. -/
def Flows (d : Dispatch (Fin n) Nat) (l : Label n) (d' : Dispatch (Fin n) Nat) : Prop :=
  match l.op with
  | some op => Dispatch.Step d op d'
  | none => d' = d

namespace FlowAux

variable {s s' : State n} {q : List Nat} {w : Fin n} {l : Label n} {i : Nat}

/-! ## When jobs stay where they are -/

/-- What a worker holds depends on the worker and its task. -/
theorem heldBy_congr (hw : s'.worker w = s.worker w) (ht : ∀ a, s.worker w = .taken a → s'.workOf a = s.workOf a) :
    s'.heldBy w = s.heldBy w := by
  unfold State.heldBy
  rw [hw]
  cases h : s.worker w with
  | taken a => exact congrArg some (ht a h)
  | _ => rfl

theorem heldBy_eq_none (h : ∀ a, s.worker w ≠ .taken a) : s.heldBy w = none := by
  unfold State.heldBy
  cases hw : s.worker w with
  | taken a => exact absurd hw (h a)
  | _ => rfl

/-- What is dispatched depends on the tasks queued and held. -/
theorem dispatch_congr (hq : ∀ a ∈ q, s'.workOf a = s.workOf a) (hw : ∀ w, s'.heldBy w = s.heldBy w) :
    s'.dispatch q = s.dispatch q := by
  unfold State.dispatch
  rw [List.map_congr_left hq, funext hw]

/-- A worker without a task comes to be another worker without a task. -/
theorem dispatch_setWorker {x : Worker} (h : ∀ a, s.worker w ≠ .taken a) (hx : ∀ a, x ≠ .taken a) :
    (s.setWorker w x).dispatch q = s.dispatch q := by
  refine dispatch_congr (fun _ _ => rfl) ?_
  intro v
  by_cases hv : v = w
  · subst hv
    rw [heldBy_eq_none h, heldBy_eq_none]
    rw [State.worker_setWorker_self]
    exact hx
  · exact heldBy_congr (State.worker_setWorker_of_ne hv) (fun _ _ => rfl)

/-- Waiters wake: no job moves. -/
theorem dispatch_woken {ws : Fin n → Worker} (h : ∀ w, ws w = s.worker w ∨ (s.worker w = .waiting ∧ ws w = .woken)) :
    { s with worker := ws }.dispatch q = s.dispatch q := by
  refine dispatch_congr (fun _ _ => rfl) ?_
  intro w
  rcases h w with hw | ⟨hw, hw'⟩
  · exact heldBy_congr hw (fun _ _ => rfl)
  · rw [heldBy_eq_none (s := s) (by rw [hw]; nofun)]
    refine heldBy_eq_none (fun a ha => ?_)
    exact nomatch hw'.symm.trans ha

/-- Memory changes at a task that is neither queued nor held. -/
theorem dispatch_setTask {x : Nat} {y : Option Task} (hq : x ∉ q) (hw : ∀ w, s.worker w ≠ .taken x) :
    (s.setTask x y).dispatch q = s.dispatch q := by
  have hsame : ∀ a, a ≠ x → (s.setTask x y).workOf a = s.workOf a :=
    fun a ha => QueueAux.workOf_congr (Function.update_of_ne ha _ _)
  refine dispatch_congr (fun a ha => hsame a (fun he => hq (he ▸ ha))) ?_
  intro w
  exact heldBy_congr rfl (fun a ha => hsame a (fun he => hw w (he ▸ ha)))

/-! ## Workers with no task -/

/-- Waking waiters gives no one a task. -/
theorem node_woken {ws : Fin n → Worker} (h : ∀ w, ws w = s.worker w ∨ (s.worker w = .waiting ∧ ws w = .woken)) (w : Fin n) :
    (ws w).node = (s.worker w).node := by
  rcases h w with hw | ⟨hw, hw'⟩
  · rw [hw]
  · rw [hw, hw']
    rfl

theorem not_taken_of_ready (h : s.worker w = .ready ∨ s.worker w = .woken) (a : Nat) : s.worker w ≠ .taken a := by
  rcases h with h | h <;> rw [h] <;> nofun

/-! ## The steps that move a job -/

/-- A task that is enqueued is accepted, behind those that wait. -/
theorem flows_accept {a : Nat} (h : Linked s q) (hi : s.submit i = .began a) (he : enqueue s a = some s')
    {ws : Fin n → Worker} (hws : ∀ w, ws w = s.worker w ∨ (s.worker w = .waiting ∧ ws w = .woken)) :
    Flows (s.dispatch q) (.accept i) (({ s' with worker := ws }.setSubmit i (.returned 0)).dispatch (q ++ [a])) := by
  obtain ⟨s₁, he₁, _, hwork, _, _⟩ := h.enqueue hi
  obtain rfl : s₁ = s' := Option.some.inj (he₁.symm.trans he)
  have hheld : ∀ w, ({ s₁ with worker := ws }.setSubmit i (.returned 0)).heldBy w = s.heldBy w := by
    intro w
    rcases hws w with hw | ⟨hw, hw'⟩
    · exact heldBy_congr hw (fun b _ => hwork b)
    · rw [heldBy_eq_none (s := s) (by rw [hw]; nofun)]
      refine heldBy_eq_none (fun b hb => ?_)
      exact nomatch hw'.symm.trans hb
  have hlast : s.workOf a = i := by simp only [State.workOf, h.fresh i a hi]
  have hd : ({ s₁ with worker := ws }.setSubmit i (.returned 0)).dispatch (q ++ [a]) =
      { s.dispatch q with queued := (s.dispatch q).queued ++ [i] } := by
    unfold State.dispatch
    rw [funext hheld]
    have hmap : ∀ r : List Nat, r.map ({ s₁ with worker := ws }.setSubmit i (.returned 0)).workOf = r.map s.workOf :=
      fun r => List.map_congr_left (fun b _ => hwork b)
    rw [hmap, List.map_append, List.map_singleton, hlast]
  rw [hd]
  exact Dispatch.Step.accept

/-- A worker takes the task that has waited longest. -/
theorem flows_take {r : List Nat} {task : Task} (hw : ∀ a, s.worker w ≠ .taken a) (ht : s.tasks s.head = some task) :
    Flows (s.dispatch (s.head :: r)) (.take w task.work)
      (({ s with head := task.next, tail := if task.next = 0 then 0 else s.tail }.setWorker w (.taken s.head)).dispatch r) := by
  have hwork : s.workOf s.head = task.work := by simp only [State.workOf, ht]
  have hheld : ({ s with head := task.next, tail := if task.next = 0 then 0 else s.tail }.setWorker w
      (.taken s.head)).heldBy = Function.update s.heldBy w (some task.work) := by
    funext v
    by_cases hv : v = w
    · subst hv
      rw [Function.update_self, ← hwork]
      unfold State.heldBy
      rw [State.worker_setWorker_self]
      rfl
    · rw [Function.update_of_ne hv]
      exact heldBy_congr (State.worker_setWorker_of_ne hv) (fun _ _ => rfl)
  have hstep := Dispatch.Step.take (d := s.dispatch (s.head :: r)) (w := w) (i := task.work) (r := r.map s.workOf)
    (heldBy_eq_none hw) (by simp only [State.dispatch, List.map_cons, hwork])
  have hd : ({ s with head := task.next, tail := if task.next = 0 then 0 else s.tail }.setWorker w
      (.taken s.head)).dispatch r = ⟨r.map s.workOf, Function.update s.heldBy w (some task.work)⟩ := by
    unfold State.dispatch
    rw [hheld]
    rfl
  rw [hd]
  exact hstep

/-- A worker executes the task it has taken. -/
theorem flows_execute {a : Nat} {task : Task} (hw : s.worker w = .taken a) (ht : s.tasks a = some task) :
    Flows (s.dispatch q) (.execute w task.work) ((s.setWorker w (.running a)).dispatch q) := by
  have hheld : (s.setWorker w (.running a)).heldBy = Function.update s.heldBy w none := by
    funext v
    by_cases hv : v = w
    · subst hv
      rw [Function.update_self]
      refine heldBy_eq_none ?_
      rw [State.worker_setWorker_self]
      nofun
    · rw [Function.update_of_ne hv]
      exact heldBy_congr (State.worker_setWorker_of_ne hv) (fun _ _ => rfl)
  have hstep := Dispatch.Step.execute (d := s.dispatch q) (w := w) (i := task.work)
    (by simp only [State.dispatch, State.heldBy, hw, State.workOf, ht])
  have hd : (s.setWorker w (.running a)).dispatch q = { s.dispatch q with held := Function.update s.heldBy w none } := by
    unfold State.dispatch
    rw [hheld]
    rfl
  rw [hd]
  exact hstep

end FlowAux

open FlowAux QueueAux

/-- Every step of a thread keeps the queue linked and moves the jobs as its operation does. -/
theorem Linked.step {s s' : State n} {q : List Nat} {l : Label n} (h : Linked s q) (hs : Step s l s') (hl : l ≠ .misuse) :
    ∃ q', Linked s' q' ∧ Flows (s.dispatch q) l (s'.dispatch q') := by
  cases hs with
  | @callSubmit i a hi ha hn =>
    refine ⟨q, h.call hi ha hn, ?_⟩
    have hfree : ∀ o, ¬ s.Owns q o a := by
      intro o ho
      obtain ⟨_, task, ht⟩ := h.exist o a ho
      rw [hn] at ht
      cases ht
    exact dispatch_setTask (hfree .queue) (fun w hw => hfree (.worker w) (owns_worker hw rfl))
  | refuse hi | reject _ hi _ =>
    refine ⟨q, Linked.setSubmit_frame h ?_ (by simp), rfl⟩
    rw [hi]
    rfl
  | @accept s₁ i a ws _ hi _ he hsig =>
    have hworker : s₁.worker = s.worker := by rw [enqueue_eq he]
    have hws : ∀ w, ws w = s.worker w ∨ (s.worker w = .waiting ∧ ws w = .woken) := by
      intro w
      have hw := hsig.1 w
      rw [hworker] at hw
      exact hw
    exact ⟨q ++ [a], h.accept hi he (node_woken hws), flows_accept h hi he hws⟩
  | @drop i a hi =>
    have ho : s.Owns q (.submit i) a := owns_submit hi rfl
    refine ⟨q, h.drop hi, dispatch_setTask (fun hq => ?_) (fun w hw => ?_)⟩
    · cases h.unique (.submit i) .queue a ho hq
    · cases h.unique (.submit i) (.worker w) a ho (owns_worker hw rfl)
  | @«section» _ w _ _ hr hsec =>
    have hnode : (s.worker w).node = none := by rcases hr with hr | hr <;> rw [hr] <;> rfl
    rcases workerSection_cases hsec with ⟨_, _, rfl, rfl⟩ | ⟨_, _, rfl, rfl⟩ | ⟨task, h0, ht, rfl, rfl⟩
    · exact ⟨q, Linked.setWorker_frame h hnode.symm, dispatch_setWorker (not_taken_of_ready hr) (by simp)⟩
    · exact ⟨q, Linked.setWorker_frame h hnode.symm, dispatch_setWorker (not_taken_of_ready hr) (by simp)⟩
    · obtain ⟨r, rfl, hlinked⟩ := h.take (w := w) h0 ht
      exact ⟨r, hlinked, flows_take (not_taken_of_ready hr) ht⟩
  | wake hw =>
    refine ⟨q, Linked.setWorker_frame h ?_, dispatch_setWorker ?_ (by simp)⟩
    · rw [hw]
      rfl
    · simp [hw]
  | execute hw ht =>
    refine ⟨q, Linked.setWorker_frame h ?_, flows_execute hw ht⟩
    rw [hw]
    rfl
  | @release w a hw =>
    have ho : s.Owns q (.worker w) a := owns_worker hw rfl
    refine ⟨q, h.release hw, ?_⟩
    have hd : (s.setTask a none).dispatch q = s.dispatch q := by
      refine dispatch_setTask (fun hq => ?_) (fun v hv => ?_)
      · cases h.unique (.worker w) .queue a ho hq
      · obtain rfl := Owner.worker.inj (h.unique (.worker w) (.worker v) a ho (owns_worker hv rfl))
        cases hw.symm.trans hv
    refine (dispatch_setWorker (s := s.setTask a none) (x := .ready) (fun b hb => ?_) (by simp)).trans hd
    cases hw.symm.trans hb
  | callDestroy | again | join | free =>
    exact ⟨q, Linked.frame h rfl rfl rfl (fun _ => rfl) (fun _ => rfl) (fun _ _ hi => hi), rfl⟩
  | close _ _ _ =>
    have hws := broadcast_cases s.worker
    refine ⟨q, Linked.frame h rfl rfl rfl (node_woken hws) (fun _ => rfl) (fun _ _ hi => hi), ?_⟩
    exact dispatch_woken hws
  | misuse _ _ _ => exact absurd rfl hl

/-- The empty queue is linked. -/
theorem linked_init : Linked (State.init n) [] := by
  refine ⟨⟨rfl, rfl⟩, List.nodup_nil, ?_, ?_, nofun⟩
  · intro o o' a ho
    cases o <;> cases ho
  · intro o a ho
    cases o <;> cases ho

end OsLab.Pool
