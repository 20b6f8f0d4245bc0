import OsLab.Pool
import Mathlib.Data.List.Nodup

/-!
# The queue of the pool, at the level of pointers

Every task structure has one owner: the queue, the worker that took it, or the submit call that made it (`Owns`). So whoever
writes to a task or frees it disturbs no one else, and the links from `head` always spell a finite list that ends in `tail`
(`Linked`).
-/

namespace OsLab.Pool

variable {n : Nat}

/-- The task a worker has. -/
def Worker.node : Worker → Option Nat
  | .taken a => some a
  | .running a => some a
  | _ => none

/-- The task a submit call has. -/
def Submit.node : Submit → Option Nat
  | .began a => some a
  | .rejected a => some a
  | _ => none

/-- Who has a task. -/
inductive Owner (n : Nat) where
  | queue
  | worker (w : Fin n)
  | submit (i : Nat)

/-- The owner has the task. -/
def State.Owns (s : State n) (q : List Nat) : Owner n → Nat → Prop
  | .queue, a => a ∈ q
  | .worker w, a => (s.worker w).node = some a
  | .submit i, a => (s.submit i).node = some a

/-- What the task a pointer leads to is to do. -/
def State.workOf (s : State n) (a : Nat) : Nat :=
  match s.tasks a with
  | some task => task.work
  | none => 0

/-- The queue is the list `q`, every task has one owner and exists, and the task of a call that has begun is as it made it. -/
structure Linked (s : State n) (q : List Nat) : Prop where
  queue : s.Queue q
  nodup : q.Nodup
  unique : ∀ o o' a, s.Owns q o a → s.Owns q o' a → o = o'
  exist : ∀ o a, s.Owns q o a → a ≠ 0 ∧ ∃ task, s.tasks a = some task
  fresh : ∀ i a, s.submit i = .began a → s.tasks a = some { work := i, next := 0 }

namespace State

variable {s : State n} {v w : Fin n} {i j d e : Nat}

theorem worker_setWorker_self {x : Worker} : (s.setWorker w x).worker w = x := by
  simp only [setWorker, Function.update_self]

theorem worker_setWorker_of_ne {x : Worker} (h : v ≠ w) : (s.setWorker w x).worker v = s.worker v := by
  simp only [setWorker, Function.update_of_ne h]

theorem submit_setSubmit_self {x : Submit} : (s.setSubmit i x).submit i = x := by
  simp only [setSubmit, Function.update_self]

theorem submit_setSubmit_of_ne {x : Submit} (h : j ≠ i) : (s.setSubmit i x).submit j = s.submit j := by
  simp only [setSubmit, Function.update_of_ne h]

theorem destroy_setDestroy_self {x : Destroy} : (s.setDestroy d x).destroy d = x := by
  simp only [setDestroy, Function.update_self]

theorem destroy_setDestroy_of_ne {x : Destroy} (h : e ≠ d) : (s.setDestroy d x).destroy e = s.destroy e := by
  simp only [setDestroy, Function.update_of_ne h]

end State

namespace QueueAux

variable {s s' : State n} {q q' : List Nat} {a : Nat} {w : Fin n} {i : Nat} {l : Label n}

/-! ## Sections under the lock -/

/-- What a worker does under the lock: it waits, exits, or takes the first task. -/
theorem workerSection_cases (h : workerSection s w = some (s', l)) :
    (s.head = 0 ∧ s.shutdown = false ∧ s' = s.setWorker w .waiting ∧ l = .wait w) ∨
      (s.head = 0 ∧ s.shutdown = true ∧ s' = s.setWorker w .exited ∧ l = .exit w) ∨
      ∃ task, s.head ≠ 0 ∧ s.tasks s.head = some task ∧ l = .take w task.work ∧
        s' = { s with head := task.next, tail := if task.next = 0 then 0 else s.tail }.setWorker w (.taken s.head) := by
  unfold workerSection at h
  by_cases h1 : s.head = 0 ∧ s.shutdown = false
  · rw [if_pos h1] at h
    cases h
    exact Or.inl ⟨h1.1, h1.2, rfl, rfl⟩
  · rw [if_neg h1] at h
    by_cases h2 : s.shutdown = true ∧ s.head = 0
    · rw [if_pos h2] at h
      cases h
      exact Or.inr (Or.inl ⟨h2.2, h2.1, rfl, rfl⟩)
    · rw [if_neg h2] at h
      have h0 : s.head ≠ 0 := by
        intro h0
        cases hs : s.shutdown with
        | false => exact h1 ⟨h0, hs⟩
        | true => exact h2 ⟨hs, h0⟩
      cases ht : s.tasks s.head with
      | none => rw [ht] at h; cases h
      | some task =>
        rw [ht] at h
        cases h
        exact Or.inr (Or.inr ⟨task, h0, rfl, rfl, rfl⟩)

/-- A broadcast wakes the waiters and no one else. -/
theorem broadcast_cases (ws : Fin n → Worker) (w : Fin n) :
    broadcast ws w = ws w ∨ (ws w = .waiting ∧ broadcast ws w = .woken) := by
  unfold broadcast
  by_cases hw : ws w = .waiting
  · exact Or.inr ⟨hw, if_pos hw⟩
  · exact Or.inl (if_neg hw)

/-- After a broadcast no worker waits. -/
theorem broadcast_ne_waiting (ws : Fin n → Worker) (w : Fin n) : broadcast ws w ≠ .waiting := by
  unfold broadcast
  split
  · nofun
  · assumption

/-- The tail insertion changes `head`, `tail` and links only. -/
theorem enqueue_eq (h : enqueue s a = some s') :
    s' = { s with head := s'.head, tail := s'.tail, tasks := s'.tasks } := by
  unfold enqueue at h
  by_cases h0 : s.head = 0
  · rw [if_pos h0] at h
    cases h
    rfl
  · rw [if_neg h0] at h
    cases ht : s.tasks s.tail with
    | none => rw [ht] at h; cases h
    | some last =>
      rw [ht] at h
      cases h
      rfl

/-! ## Pointers into the queue -/

theorem nextOf_congr (h : s'.tasks a = s.tasks a) : s'.nextOf a = s.nextOf a := by
  unfold State.nextOf
  rw [h]

theorem workOf_congr (h : s'.tasks a = s.tasks a) : s'.workOf a = s.workOf a := by
  unfold State.workOf
  rw [h]

/-- The queue stays when `head`, `tail` and its tasks do. -/
theorem queue_congr (h : s.Queue q) (hh : s'.head = s.head) (ht : s'.tail = s.tail)
    (hq : ∀ a ∈ q, s'.tasks a = s.tasks a) : s'.Queue q := by
  refine ⟨?_, ht.trans h.2⟩
  rw [hh]
  refine h.1.congr ?_ (fun a ha => nextOf_congr (hq a ha))
  intro a ha hold
  rw [hq a ha]
  exact hold

/-- Links that end in null start there exactly when there is no task on the way. -/
theorem start_eq_zero_iff {p : Nat} (h : Seg id (fun a => a ≠ 0 ∧ (s.tasks a).isSome = true) s.nextOf p q 0) :
    p = 0 ↔ q = [] := by
  cases q with
  | nil => exact ⟨fun _ => rfl, fun _ => h⟩
  | cons a q =>
    refine ⟨fun h0 => ?_, fun hq => nomatch hq⟩
    exact absurd (h.1.symm.trans h0) h.2.1.1

/-- The head is NULL when the queue is empty. -/
theorem queue_nil_iff (h : s.Queue q) : s.head = 0 ↔ q = [] := start_eq_zero_iff h.1

/-- The queue without its first task, when `tail` is reset with the last one. -/
theorem queue_pop {task : Task} (h : s.Queue (a :: q)) (ht : s.tasks a = some task) :
    State.Queue { s with head := task.next, tail := if task.next = 0 then 0 else s.tail } q := by
  obtain ⟨⟨_, _, hseg⟩, htail⟩ := h
  have hnext : s.nextOf a = task.next := by simp only [State.nextOf, ht]
  rw [hnext] at hseg
  refine ⟨hseg.congr (fun _ _ hc => hc) (fun _ _ => rfl), ?_⟩
  show (if task.next = 0 then 0 else s.tail) = q.getLast?.getD 0
  have hempty := start_eq_zero_iff hseg
  by_cases hn : task.next = 0
  · rw [if_pos hn, hempty.1 hn]
    rfl
  · rw [if_neg hn, htail]
    cases q with
    | nil => exact absurd (hempty.2 rfl) hn
    | cons c r => rw [List.getLast?_cons_cons]

/-- `head` is null exactly when `tail` is. -/
theorem head_iff_tail (h : s.Queue q) : s.head = 0 ↔ s.tail = 0 := by
  rw [queue_nil_iff h, h.2]
  rcases List.eq_nil_or_concat q with rfl | ⟨r, b, rfl⟩
  · exact ⟨fun _ => rfl, fun _ => rfl⟩
  · have hb := (h.1.holds_of_mem b (by simp)).1
    refine ⟨fun hq => absurd hq (by simp), fun hq => ?_⟩
    rw [List.concat_eq_append, List.getLast?_append, List.getLast?_singleton] at hq
    exact absurd hq hb

/-! ## Owners -/

theorem owns_worker {x : Worker} (hw : s.worker w = x) (hx : x.node = some a) : s.Owns q (.worker w) a :=
  (congrArg Worker.node hw).trans hx

theorem owns_submit {x : Submit} (hi : s.submit i = x) (hx : x.node = some a) : s.Owns q (.submit i) a :=
  (congrArg Submit.node hi).trans hx

/-- The task of a call that has begun is not in the queue. -/
theorem Linked.not_queued (h : Linked s q) (hi : s.submit i = .began a) : a ∉ q :=
  fun hm => nomatch h.unique (.submit i) .queue a (owns_submit hi rfl) hm

/-- One task changes hands, or appears: every task still has one owner. -/
theorem unique_of_move {x : Nat} {o₁ : Owner n} (h : ∀ o o' a, s.Owns q o a → s.Owns q o' a → o = o')
    (hm : ∀ o a, s'.Owns q' o a → (a = x ∧ o = o₁) ∨ (a ≠ x ∧ s.Owns q o a)) :
    ∀ o o' a, s'.Owns q' o a → s'.Owns q' o' a → o = o' := by
  intro o o' a ho ho'
  rcases hm o a ho with ⟨hx, h1⟩ | ⟨hx, h1⟩
  · rcases hm o' a ho' with ⟨_, h2⟩ | ⟨hx', _⟩
    · rw [h1, h2]
    · exact absurd hx hx'
  · rcases hm o' a ho' with ⟨hx', _⟩ | ⟨_, h2⟩
    · exact absurd hx' hx
    · exact h o o' a h1 h2

/-- Tasks are only given up: every task still has one owner. -/
theorem unique_of_subset (h : ∀ o o' a, s.Owns q o a → s.Owns q o' a → o = o')
    (hm : ∀ o a, s'.Owns q' o a → s.Owns q o a) : ∀ o o' a, s'.Owns q' o a → s'.Owns q' o' a → o = o' :=
  fun o o' a ho ho' => h o o' a (hm o a ho) (hm o' a ho')

/-- When a worker goes on, only what it owns changes. -/
theorem owns_setWorker {x : Worker} {o : Owner n} (h : (s.setWorker w x).Owns q o a) :
    (o = .worker w ∧ x.node = some a) ∨ (o ≠ .worker w ∧ s.Owns q o a) := by
  cases o with
  | queue => exact Or.inr ⟨nofun, h⟩
  | submit j => exact Or.inr ⟨nofun, h⟩
  | worker v =>
    by_cases hv : v = w
    · subst hv
      rw [State.Owns, State.worker_setWorker_self] at h
      exact Or.inl ⟨rfl, h⟩
    · rw [State.Owns, State.worker_setWorker_of_ne hv] at h
      exact Or.inr ⟨fun he => hv (Owner.worker.inj he), h⟩

/-- When a submission goes on, only what it owns changes. -/
theorem owns_setSubmit {x : Submit} {o : Owner n} (h : (s.setSubmit i x).Owns q o a) :
    (o = .submit i ∧ x.node = some a) ∨ (o ≠ .submit i ∧ s.Owns q o a) := by
  cases o with
  | queue => exact Or.inr ⟨nofun, h⟩
  | worker v => exact Or.inr ⟨nofun, h⟩
  | submit j =>
    by_cases hj : j = i
    · subst hj
      rw [State.Owns, State.submit_setSubmit_self] at h
      exact Or.inl ⟨rfl, h⟩
    · rw [State.Owns, State.submit_setSubmit_of_ne hj] at h
      exact Or.inr ⟨fun he => hj (Owner.submit.inj he), h⟩

/-- The books of the queue stay when the memory does and no task changes hands. -/
theorem Linked.frame (h : Linked s q) (hh : s'.head = s.head) (ht : s'.tail = s.tail) (hn : s'.tasks = s.tasks)
    (hw : ∀ w, (s'.worker w).node = (s.worker w).node) (hs : ∀ i, (s'.submit i).node = (s.submit i).node)
    (hb : ∀ i a, s'.submit i = .began a → s.submit i = .began a) : Linked s' q := by
  have howns : ∀ o a, s'.Owns q o a → s.Owns q o a := by
    intro o a ho
    cases o with
    | queue => exact ho
    | worker w => exact (hw w).symm.trans ho
    | submit i => exact (hs i).symm.trans ho
  refine ⟨queue_congr h.queue hh ht (fun a _ => by rw [hn]), h.nodup, unique_of_subset h.unique howns, ?_, ?_⟩
  · intro o a ho
    rw [hn]
    exact h.exist o a (howns o a ho)
  · intro i a hi
    rw [hn]
    exact h.fresh i a (hb i a hi)

/-- A worker that keeps its node leaves the queue linked. -/
theorem Linked.setWorker_frame (h : Linked s q) {x : Worker} (hx : x.node = (s.worker w).node) :
    Linked (s.setWorker w x) q := by
  refine Linked.frame h rfl rfl rfl ?_ (fun _ => rfl) (fun _ _ hi => hi)
  intro v
  by_cases hv : v = w
  · rw [hv, State.worker_setWorker_self, hx]
  · rw [State.worker_setWorker_of_ne hv]

/-- A submission that keeps its node leaves the queue linked. -/
theorem Linked.setSubmit_frame (h : Linked s q) {x : Submit} (hx : x.node = (s.submit i).node)
    (hb : ∀ a, x ≠ .began a) : Linked (s.setSubmit i x) q := by
  refine Linked.frame h rfl rfl rfl (fun _ => rfl) ?_ ?_
  · intro j
    by_cases hj : j = i
    · rw [hj, State.submit_setSubmit_self, hx]
    · rw [State.submit_setSubmit_of_ne hj]
  · intro j a hj
    by_cases hji : j = i
    · rw [hji, State.submit_setSubmit_self] at hj
      exact absurd hj (hb a)
    · rw [State.submit_setSubmit_of_ne hji] at hj
      exact hj

/-- A task is freed by its owner. -/
theorem Linked.free (h : Linked s q) {x : Nat} {o₀ : Owner n} (hx : s.Owns q o₀ x)
    (hh : s'.head = s.head) (ht : s'.tail = s.tail) (hn : s'.tasks = Function.update s.tasks x none)
    (howns : ∀ o a, s'.Owns q o a → o ≠ o₀ ∧ s.Owns q o a) (hb : ∀ i a, s'.submit i = .began a → s.submit i = .began a) :
    Linked s' q := by
  have hne : ∀ o a, s'.Owns q o a → a ≠ x := by
    rintro o a ho rfl
    obtain ⟨hne, ho⟩ := howns o a ho
    exact hne (h.unique o o₀ a ho hx)
  have hsame : ∀ a, a ≠ x → s'.tasks a = s.tasks a := by
    intro a ha
    rw [hn, Function.update_of_ne ha]
  refine ⟨queue_congr h.queue hh ht (fun a ha => hsame a (hne .queue a ha)), h.nodup,
    unique_of_subset h.unique (fun o a ho => (howns o a ho).2), ?_, ?_⟩
  · intro o a ho
    rw [hsame a (hne o a ho)]
    exact h.exist o a (howns o a ho).2
  · intro i a hi
    rw [hsame a (hne _ a (owns_submit hi rfl))]
    exact h.fresh i a (hb i a hi)

end QueueAux

open QueueAux

variable {s s' : State n} {q : List Nat} {a : Nat} {w : Fin n} {i : Nat}

/-! ## The steps that move a task -/

/-- A submit call makes its task. -/
theorem Linked.call (h : Linked s q) (hi : s.submit i = .idle) (ha : a ≠ 0) (hn : s.tasks a = none) :
    Linked ((s.setTask a (some { work := i, next := 0 })).setSubmit i (.began a)) q := by
  have hold : ∀ o b, s.Owns q o b → b ≠ a := by
    rintro o b ho rfl
    obtain ⟨_, task, ht⟩ := h.exist o b ho
    rw [hn] at ht
    cases ht
  have hmove : ∀ o b, ((s.setTask a (some { work := i, next := 0 })).setSubmit i (.began a)).Owns q o b →
      (b = a ∧ o = .submit i) ∨ (b ≠ a ∧ s.Owns q o b) := by
    intro o b ho
    rcases owns_setSubmit ho with ⟨rfl, hb⟩ | ⟨_, hb⟩
    · exact Or.inl ⟨(Option.some.inj hb).symm, rfl⟩
    · have hb' : s.Owns q o b := by cases o <;> exact hb
      exact Or.inr ⟨hold o b hb', hb'⟩
  have htasks : ∀ b, b ≠ a → ((s.setTask a (some { work := i, next := 0 })).setSubmit i (.began a)).tasks b = s.tasks b :=
    fun b hb => Function.update_of_ne hb _ _
  have hself : ((s.setTask a (some { work := i, next := 0 })).setSubmit i (.began a)).tasks a =
      some { work := i, next := 0 } := Function.update_self a _ _
  refine ⟨queue_congr h.queue rfl rfl (fun b hb => htasks b (hold .queue b hb)), h.nodup, unique_of_move h.unique hmove,
    ?_, ?_⟩
  · intro o b ho
    rcases hmove o b ho with ⟨rfl, _⟩ | ⟨hb, ho⟩
    · exact ⟨ha, _, hself⟩
    · rw [htasks b hb]
      exact h.exist o b ho
  · intro j b hj
    by_cases hji : j = i
    · subst hji
      rw [State.submit_setSubmit_self] at hj
      obtain rfl := Submit.began.inj hj
      exact hself
    · rw [State.submit_setSubmit_of_ne hji] at hj
      have hj' : s.submit j = .began b := hj
      rw [htasks b (hold _ b (owns_submit hj' rfl))]
      exact h.fresh j b hj'

/-- The first task of a queue that is not empty exists. -/
theorem Linked.exists_head (h : Linked s q) (h0 : s.head ≠ 0) : ∃ task, s.tasks s.head = some task := by
  cases q with
  | nil => exact absurd ((queue_nil_iff h.queue).2 rfl) h0
  | cons b r =>
    have hhead : s.head = b := h.queue.1.1
    rw [hhead]
    exact (h.exist .queue b List.mem_cons_self).2

/-- The last task of a queue that is not empty is at `tail`. -/
theorem Linked.exists_tail (h : Linked s q) (h0 : s.head ≠ 0) :
    ∃ r last, q = r ++ [s.tail] ∧ s.tasks s.tail = some last ∧ s.tail ∈ q := by
  rcases List.eq_nil_or_concat q with hq | ⟨r, b, hq⟩
  · exact absurd ((queue_nil_iff h.queue).2 hq) h0
  · rw [List.concat_eq_append] at hq
    have hb : s.tail = b := by
      rw [h.queue.2, hq, List.getLast?_append, List.getLast?_singleton]
      rfl
    have hmem : b ∈ q := by rw [hq]; exact List.mem_append_right _ List.mem_cons_self
    obtain ⟨_, last, hlast⟩ := h.exist .queue b hmem
    exact ⟨r, last, by rw [hb]; exact hq, by rw [hb]; exact hlast, by rw [hb]; exact hmem⟩

/-- The tail insertion goes through, puts the task at the end, and leaves what the tasks are to do. -/
theorem Linked.enqueue (h : Linked s q) (hi : s.submit i = .began a) :
    ∃ s₁, enqueue s a = some s₁ ∧ s₁.Queue (q ++ [a]) ∧ (∀ b, s₁.workOf b = s.workOf b) ∧
      (∀ b, b ∉ q → s₁.tasks b = s.tasks b) ∧
      ∀ b, (s₁.tasks b).isSome = (s.tasks b).isSome := by
  have ho : s.Owns q (.submit i) a := owns_submit hi rfl
  have haq := Linked.not_queued h hi
  have hnode := h.fresh i a hi
  have hne := (h.exist _ _ ho).1
  unfold Pool.enqueue
  by_cases h0 : s.head = 0
  · obtain rfl := (queue_nil_iff h.queue).1 h0
    refine ⟨_, if_pos h0, ?_, fun _ => rfl, fun _ _ => rfl, fun _ => rfl⟩
    refine ⟨⟨rfl, ⟨hne, by rw [hnode]; rfl⟩, ?_⟩, rfl⟩
    show s.nextOf a = 0
    simp only [State.nextOf, hnode]
  · obtain ⟨r, last, hq, hlast, hmem⟩ := h.exists_tail h0
    have hta : s.tail ≠ a := fun he => haq (he ▸ hmem)
    have hother : ∀ b, b ≠ s.tail →
        Function.update s.tasks s.tail (some { last with next := a }) b = s.tasks b := fun b hb => Function.update_of_ne hb _ _
    rw [if_neg h0, hlast]
    refine ⟨_, rfl, ?_, ?_, ?_, ?_⟩
    · have hnodup := h.nodup
      have hseg := h.queue.1
      rw [hq] at hseg hnodup
      obtain ⟨p, hseg₁, rfl, hheld, _⟩ := Seg.append_iff.1 hseg
      have hr : ∀ b ∈ r, b ≠ s.tail := by
        intro b hb he
        exact (List.nodup_append.1 hnodup).2.2 b hb s.tail List.mem_cons_self he
      refine ⟨?_, ?_⟩
      · rw [hq, List.append_assoc]
        refine Seg.append_iff.2 ⟨s.tail, ?_, rfl, ?_, ?_⟩
        · refine hseg₁.congr ?_ ?_
          · intro b hb hold
            simp only [State.setTask, hother b (hr b hb)]
            exact hold
          · intro b hb
            simp only [State.nextOf, State.setTask, hother b (hr b hb)]
        · refine ⟨hheld.1, ?_⟩
          simp only [State.setTask, Function.update_self, Option.isSome_some]
        · refine ⟨?_, ⟨hne, ?_⟩, ?_⟩
          · simp only [State.nextOf, State.setTask, Function.update_self, id_eq]
          · simp only [State.setTask, hother a (Ne.symm hta), hnode, Option.isSome_some]
          · simp only [Seg.nil_iff, State.nextOf, State.setTask, hother a (Ne.symm hta), hnode]
      · rw [List.getLast?_append, List.getLast?_singleton]
        rfl
    · intro b
      by_cases hb : b = s.tail
      · simp only [State.workOf, State.setTask, hb, Function.update_self, hlast]
      · simp only [State.workOf, State.setTask, hother b hb]
    · intro b hb
      exact hother b (fun he => hb (he ▸ hmem))
    · intro b
      by_cases hb : b = s.tail
      · simp only [State.setTask, hb, Function.update_self, hlast, Option.isSome_some]
      · simp only [State.setTask, hother b hb]

/-- A task goes from its submit call to the end of the queue. -/
theorem Linked.accept (h : Linked s q) (hi : s.submit i = .began a) (he : Pool.enqueue s a = some s') {ws : Fin n → Worker}
    (hws : ∀ w, (ws w).node = (s.worker w).node) :
    Linked ({ s' with worker := ws }.setSubmit i (.returned 0)) (q ++ [a]) := by
  obtain ⟨s₁, he₁, hqueue, _, htasks, hsome⟩ := h.enqueue hi
  obtain rfl : s₁ = s' := Option.some.inj (he₁.symm.trans he)
  have ho : s.Owns q (.submit i) a := owns_submit hi rfl
  have haq := Linked.not_queued h hi
  have hsub : s₁.submit = s.submit := by rw [enqueue_eq he]
  have hmove : ∀ o b, ({ s₁ with worker := ws }.setSubmit i (.returned 0)).Owns (q ++ [a]) o b →
      (b = a ∧ o = .queue) ∨ (b ≠ a ∧ s.Owns q o b) := by
    intro o b hob
    rcases owns_setSubmit hob with ⟨_, hb⟩ | ⟨hne, hb⟩
    · cases hb
    · cases o with
      | queue =>
        rcases List.mem_append.1 hb with hb | hb
        · exact Or.inr ⟨fun he => haq (he ▸ hb), hb⟩
        · exact Or.inl ⟨List.mem_singleton.1 hb, rfl⟩
      | worker w =>
        have hb' : s.Owns q (.worker w) b := (hws w).symm.trans hb
        refine Or.inr ⟨fun he => ?_, hb'⟩
        exact nomatch h.unique (.worker w) (.submit i) b hb' (he ▸ ho)
      | submit j =>
        have hb' : s.Owns q (.submit j) b := by
          simp only [State.Owns, hsub] at hb ⊢
          exact hb
        refine Or.inr ⟨fun he => hne ?_, hb'⟩
        exact h.unique (.submit j) (.submit i) b hb' (he ▸ ho)
  refine ⟨queue_congr hqueue rfl rfl (fun _ _ => rfl), ?_, unique_of_move h.unique hmove, ?_, ?_⟩
  · rw [← List.concat_eq_append, List.nodup_concat]
    exact ⟨haq, h.nodup⟩
  · intro o b hob
    have hold : b ≠ 0 ∧ ∃ task, s.tasks b = some task := by
      rcases hmove o b hob with ⟨rfl, _⟩ | ⟨_, hb⟩
      · exact h.exist _ _ ho
      · exact h.exist o b hb
    obtain ⟨hb0, task, htask⟩ := hold
    refine ⟨hb0, Option.isSome_iff_exists.1 ?_⟩
    show (s₁.tasks b).isSome = true
    rw [hsome, htask]
    rfl
  · intro j b hj
    by_cases hji : j = i
    · rw [hji, State.submit_setSubmit_self] at hj
      cases hj
    · rw [State.submit_setSubmit_of_ne hji] at hj
      have hj : s.submit j = .began b := hsub ▸ hj
      show s₁.tasks b = _
      rw [htasks b (Linked.not_queued h hj)]
      exact h.fresh j b hj

/-- The first task goes from the queue to a worker. -/
theorem Linked.take (h : Linked s q) (h0 : s.head ≠ 0) {task : Task}
    (ht : s.tasks s.head = some task) :
    ∃ r, q = s.head :: r ∧
      Linked ({ s with head := task.next, tail := if task.next = 0 then 0 else s.tail }.setWorker w (.taken s.head)) r := by
  cases q with
  | nil => exact absurd ((queue_nil_iff h.queue).2 rfl) h0
  | cons b r =>
    have hhead : s.head = b := h.queue.1.1
    have hnodup := List.nodup_cons.1 h.nodup
    refine ⟨r, by rw [hhead], ?_⟩
    have hmove : ∀ o c, ({ s with head := task.next, tail := if task.next = 0 then 0 else s.tail }.setWorker w
        (.taken s.head)).Owns r o c → (c = s.head ∧ o = .worker w) ∨ (c ≠ s.head ∧ s.Owns (b :: r) o c) := by
      intro o c hoc
      rcases owns_setWorker hoc with ⟨rfl, hc⟩ | ⟨hne, hc⟩
      · exact Or.inl ⟨(Option.some.inj hc).symm, rfl⟩
      · have hold : s.Owns (b :: r) o c := by
          cases o with
          | queue => exact List.mem_cons_of_mem _ hc
          | worker v => exact hc
          | submit j => exact hc
        refine Or.inr ⟨?_, hold⟩
        rintro rfl
        rw [hhead] at hold hc
        have hq := h.unique o .queue b hold List.mem_cons_self
        subst hq
        exact hnodup.1 hc
    have hpop := queue_pop h.queue (hhead ▸ ht)
    refine ⟨queue_congr hpop rfl rfl (fun _ _ => rfl), hnodup.2, unique_of_move h.unique hmove, ?_, ?_⟩
    · intro o c hoc
      rcases hmove o c hoc with ⟨rfl, _⟩ | ⟨_, hc⟩
      · exact h.exist .queue s.head (hhead ▸ List.mem_cons_self)
      · exact h.exist o c hc
    · intro j c hj
      exact h.fresh j c hj

/-- The task of a rejected call is freed. -/
theorem Linked.drop (h : Linked s q) (hi : s.submit i = .rejected a) :
    Linked ((s.setTask a none).setSubmit i (.returned (-1))) q := by
  refine Linked.free h (owns_submit hi rfl) rfl rfl rfl ?_ ?_
  · intro o b ho
    rcases owns_setSubmit ho with ⟨_, hb⟩ | ⟨hne, hb⟩
    · cases hb
    · exact ⟨hne, by cases o <;> exact hb⟩
  · intro j b hj
    by_cases hji : j = i
    · rw [hji, State.submit_setSubmit_self] at hj
      cases hj
    · rw [State.submit_setSubmit_of_ne hji] at hj
      exact hj

/-- The task a worker has run is freed. -/
theorem Linked.release (h : Linked s q) (hw : s.worker w = .running a) : Linked ((s.setTask a none).setWorker w .ready) q := by
  refine Linked.free h (owns_worker hw rfl) rfl rfl rfl ?_ (fun _ _ hj => hj)
  intro o b ho
  rcases owns_setWorker ho with ⟨_, hb⟩ | ⟨hne, hb⟩
  · cases hb
  · exact ⟨hne, by cases o <;> exact hb⟩

end OsLab.Pool
