import OsLab.Lemmas.PoolFlow
import OsLab.Lemmas.PoolShutdown
import OsLab.Lemmas.PoolWake

/-!
# The thread pool: every accepted task once, and shutting down

The first two results are about every run whose steps meet `SafeStep`: the pool is freed when no other submit or destroy call is
between its start and the end of its section, and no call starts after. Without that condition a call may lock a freed pool
(`late_call_uses_freed_pool`). The results about waiting are about every run up to such a use.
-/

namespace OsLab.Pool

variable {n : Nat} {tr : List (Label n)} {s : State n}

/-- What a run has made of the pool. -/
structure Sound (tr : List (Label n)) (s : State n) : Prop where
  flow : ∃ q, Linked s q ∧ Run Dispatch.Step Dispatch.empty (tr.filterMap Label.op) (s.dispatch q)
  calls : Calls tr s
  closing : Closing s
  guarded : Guarded s
  frees : (frees tr).length = if s.freed then 1 else 0

namespace PoolAux

/-! ## Runs -/

/-- One label more, and its operation if it has one. -/
theorem flow_snoc {d d' : Dispatch (Fin n) Nat} {l : Label n}
    (h : Run Dispatch.Step Dispatch.empty (tr.filterMap Label.op) d) (hf : Flows d l d') :
    Run Dispatch.Step Dispatch.empty ((tr ++ [l]).filterMap Label.op) d' := by
  unfold Flows at hf
  rw [List.filterMap_append]
  cases hop : l.op with
  | none =>
    rw [hop] at hf
    subst hf
    rw [List.filterMap_cons_none hop, List.filterMap_nil, List.append_nil]
    exact h
  | some op =>
    rw [hop] at hf
    rw [List.filterMap_cons_some hop, List.filterMap_nil]
    exact Run.snoc h hf

/-- Nothing has been done to a new pool. -/
theorem sound_init : Sound [] (State.init n) := by
  refine ⟨⟨[], linked_init, Run.nil _⟩, ⟨List.nodup_nil, ?_, nofun⟩, ⟨nofun, nofun, nofun⟩, ⟨rfl, nofun, nofun⟩, rfl⟩
  exact fun i => ⟨nofun, nofun⟩

/-- A safe step does not use a freed pool. -/
theorem Sound.not_misuse {l : Label n} {s' : State n} (h : Sound tr s) (hs : SafeStep s l s') : l ≠ .misuse := by
  rintro rfl
  cases hs.1 with
  | «section» _ _ hsec =>
    rcases QueueAux.workerSection_cases hsec with ⟨_, _, _, he⟩ | ⟨_, _, _, he⟩ | ⟨_, _, _, he, _⟩ <;> cases he
  | misuse hf ht _ => exact not_touches h.closing h.guarded hf ht

/-- A safe step keeps all of it. -/
theorem Sound.step {l : Label n} {s' : State n} (h : Sound tr s) (hs : SafeStep s l s') : Sound (tr ++ [l]) s' := by
  have hl := Sound.not_misuse h hs
  obtain ⟨q, hq, hrun⟩ := h.flow
  obtain ⟨q', hq', hflow⟩ := hq.step hs.1 hl
  refine ⟨⟨q', hq', flow_snoc hrun hflow⟩, h.calls.step hs.1 hl, h.closing.step hs.1 hl, h.guarded.step h.closing hs hl, ?_⟩
  have hsnoc : (frees (tr ++ [l])).length = (frees tr).length + (frees [l]).length := by
    unfold frees
    rw [List.filterMap_append, List.length_append]
  rw [hsnoc, h.frees]
  rcases hs.1.freed_cases hl with ⟨hf, hf', h1⟩ | ⟨hf, h1⟩
  · rw [hf, hf', h1]
    rfl
  · rw [hf, h1]
    rfl

/-- And so does a run. -/
theorem run_sound (h : Run SafeStep (State.init n) tr s) : Sound tr s :=
  Run.invariant (P := Sound) sound_init (fun _ _ _ _ _ ih hs => Sound.step ih hs) h

/-! ## The operations of a run -/

/-- The accepts of a run are those of its operations. -/
theorem accepted_ops (tr : List (Label n)) : Dispatch.accepted (tr.filterMap Label.op) = accepted tr := by
  unfold Dispatch.accepted accepted
  rw [List.filterMap_filterMap]
  congr 1
  funext l
  cases l <;> rfl

/-- And the takes. -/
theorem taken_ops (tr : List (Label n)) : Dispatch.taken (tr.filterMap Label.op) = taken tr := by
  unfold Dispatch.taken taken
  rw [List.filterMap_filterMap]
  congr 1
  funext l
  cases l <;> rfl

/-- And the executions. -/
theorem executed_ops (tr : List (Label n)) : Dispatch.executed (tr.filterMap Label.op) = executed tr := by
  unfold Dispatch.executed executed
  rw [List.filterMap_filterMap]
  congr 1
  funext l
  cases l <;> rfl

end PoolAux

open PoolAux

/-! ## What a sound run has done -/

/-- Once all workers are joined, all have exited. -/
theorem Sound.all_exited (h : Sound tr s) (hj : (∃ d, s.destroy d = .joining n) ∨ s.freed = true) (w : Fin n) :
    s.worker w = .exited := by
  rcases hj with ⟨d, hd⟩ | hf
  · exact (h.closing.joining d n hd).2 w w.isLt
  · exact h.closing.freed hf w

/-- Tasks leave the queue in the order in which they were accepted. -/
theorem Sound.taken_prefix (h : Sound tr s) : taken tr <+: accepted tr := by
  obtain ⟨q, _, hrun⟩ := h.flow
  have heq := Dispatch.accepted_eq hrun
  rw [accepted_ops, taken_ops] at heq
  rw [heq]
  exact List.prefix_append _ _

/-- No task is executed twice. -/
theorem Sound.executed_nodup (h : Sound tr s) : (executed tr).Nodup := by
  obtain ⟨q, _, hrun⟩ := h.flow
  rw [← executed_ops]
  exact (Dispatch.books hrun (by rw [accepted_ops]; exact h.calls.nodup)).once

/-- Only tasks of calls that returned 0 are executed. -/
theorem Sound.returned_of_executed (h : Sound tr s) {i : Nat} (hi : i ∈ executed tr) : s.submit i = .returned 0 := by
  obtain ⟨q, _, hrun⟩ := h.flow
  rw [← executed_ops] at hi
  have ha := Dispatch.accepted_of_executed hrun (by rw [accepted_ops]; exact h.calls.nodup) hi
  rw [accepted_ops] at ha
  exact (h.calls.accepted_iff i).1 ha

/-- Once all workers are joined, the queue is empty and every call that returned 0 has had its task executed. -/
theorem Sound.drained (h : Sound tr s) (hn : 0 < n) (hw : ∀ w, s.worker w = .exited) :
    s.head = 0 ∧ ∀ i, s.submit i = .returned 0 → i ∈ executed tr := by
  have h0 : s.head = 0 := (h.closing.exited ⟨0, hn⟩ (hw _)).2
  refine ⟨h0, fun i hi => ?_⟩
  obtain ⟨q, hq, hrun⟩ := h.flow
  obtain rfl := (QueueAux.queue_nil_iff hq.queue).1 h0
  rw [← executed_ops]
  refine Dispatch.executed_of_drained hrun (by rw [accepted_ops]; exact h.calls.nodup) rfl ?_ ?_
  · exact fun w => FlowAux.heldBy_eq_none (by rw [hw w]; nofun)
  · rw [accepted_ops]
    exact (h.calls.accepted_iff i).2 hi

/-! ## Every accepted task is executed once -/

/-- In every run, with any number of workers and of calls: `head`, `tail` and the links are a finite list of existing tasks that
ends in `tail`, and the tasks workers have exist; tasks are taken in the order in which they were accepted; a task whose call
returned 0 is executed at most once, one whose call returned -1 never; and once all workers have been joined the queue is empty
and every task whose call returned 0 has been executed exactly once.

A run with one destroy call that no submit call overlaps when it frees the pool, or follows, meets `SafeStep`. -/
theorem accepted_tasks_run_once (hn : 0 < n) (h : Run SafeStep (State.init n) tr s) :
    (∃ q, s.Queue q) ∧ (s.head = 0 ↔ s.tail = 0) ∧
      (∀ w a, s.worker w = .taken a ∨ s.worker w = .running a → (s.tasks a).isSome = true) ∧
      taken tr <+: accepted tr ∧
      (∀ i, s.submit i = .returned 0 → (executed tr).count i ≤ 1) ∧
      (∀ i, s.submit i = .returned (-1) → i ∉ executed tr) ∧
      ((∃ d, s.destroy d = .joining n) ∨ s.freed = true →
        s.head = 0 ∧ ∀ i, s.submit i = .returned 0 → (executed tr).count i = 1) := by
  have hsound := run_sound h
  obtain ⟨q, hq, _⟩ := hsound.flow
  have hnodup := hsound.executed_nodup
  refine ⟨⟨q, hq.queue⟩, QueueAux.head_iff_tail hq.queue, ?_, hsound.taken_prefix, ?_, ?_, ?_⟩
  · intro w a hw
    have ho : s.Owns q (.worker w) a := by
      rcases hw with hw | hw <;> simp only [State.Owns, hw, Worker.node]
    exact Option.isSome_iff_exists.2 (hq.exist _ _ ho).2
  · exact fun i _ => List.nodup_iff_count_le_one.1 hnodup i
  · intro i hi he
    have h0 := hsound.returned_of_executed he
    rw [hi] at h0
    exact absurd h0 (by decide)
  · intro hj
    obtain ⟨h0, hall⟩ := hsound.drained hn (hsound.all_exited hj)
    exact ⟨h0, fun i hi => List.count_eq_one_of_mem hnodup (hall i hi)⟩

/-- Two workers, of which one waits first, two tasks, and a destroy call that has joined the workers. -/
def drainedRun : List (Label 2) :=
  [.wait 0, .callSubmit 0, .callSubmit 1, .accept 0, .accept 1, .take 1 0, .take 0 1, .execute 1 0, .execute 0 1,
    .release 1, .release 0, .callDestroy 0, .close 0, .exit 0, .exit 1, .join 0, .join 0]

/-- It is a run, and both calls return 0. -/
theorem drainedRun_runs : ∃ s, Run SafeStep (State.init 2) drainedRun s ∧ s.destroy 0 = .joining 2 ∧
    s.submit 0 = .returned 0 ∧ s.submit 1 = .returned 0 := by
  -- the first of the two signals wakes the worker that waits
  have hone : Signalled (Function.update (fun _ : Fin 2 => Worker.ready) 0 .waiting)
      (Function.update (fun _ : Fin 2 => Worker.ready) 0 .woken) := by
    unfold Signalled
    decide
  have htwo : Signalled (Function.update (fun _ : Fin 2 => Worker.ready) 0 .woken)
      (Function.update (fun _ : Fin 2 => Worker.ready) 0 .woken) := by
    unfold Signalled
    decide
  have h1 : SafeStep (State.init 2) (.wait 0) _ := ⟨Step.section (w := 0) rfl (Or.inl rfl) rfl, trivial⟩
  have h2 := (Run.single h1).snoc ⟨Step.callSubmit (i := 0) (a := 1) rfl (by decide) rfl, rfl⟩
  have h3 := h2.snoc ⟨Step.callSubmit (i := 1) (a := 2) rfl (by decide) rfl, rfl⟩
  have h4 := h3.snoc ⟨Step.accept (i := 0) rfl rfl rfl rfl hone, trivial⟩
  have h5 := h4.snoc ⟨Step.accept (i := 1) rfl rfl rfl rfl htwo, trivial⟩
  have h6 := h5.snoc ⟨Step.section (w := 1) rfl (Or.inl rfl) rfl, trivial⟩
  have h7 := h6.snoc ⟨Step.section (w := 0) rfl (Or.inr rfl) rfl, trivial⟩
  have h8 := h7.snoc ⟨Step.execute (w := 1) rfl rfl, trivial⟩
  have h9 := h8.snoc ⟨Step.execute (w := 0) rfl rfl, trivial⟩
  have h10 := h9.snoc ⟨Step.release (w := 1) rfl, trivial⟩
  have h11 := h10.snoc ⟨Step.release (w := 0) rfl, trivial⟩
  have h12 := h11.snoc ⟨Step.callDestroy (d := 0) rfl, rfl⟩
  have h13 := h12.snoc ⟨Step.close (d := 0) rfl rfl rfl, trivial⟩
  have h14 := h13.snoc ⟨Step.section (w := 0) rfl (Or.inl rfl) rfl, trivial⟩
  have h15 := h14.snoc ⟨Step.section (w := 1) rfl (Or.inl rfl) rfl, trivial⟩
  have h16 := h15.snoc ⟨Step.join (d := 0) (k := 0) rfl rfl rfl, trivial⟩
  have h17 := h16.snoc ⟨Step.join (d := 0) (k := 1) rfl rfl rfl, trivial⟩
  exact ⟨_, h17, rfl, rfl, rfl⟩

/-- Both tasks are executed once. -/
theorem accepted_tasks_run_once_two_workers : ∃ s, Run SafeStep (State.init 2) drainedRun s ∧ s.submit 0 = .returned 0 ∧
    s.submit 1 = .returned 0 ∧ s.head = 0 ∧ (executed drainedRun).count 0 = 1 ∧ (executed drainedRun).count 1 = 1 := by
  obtain ⟨s, hrun, hd, hone, htwo⟩ := drainedRun_runs
  obtain ⟨_, _, _, _, _, _, hend⟩ := accepted_tasks_run_once Nat.two_pos hrun
  obtain ⟨h0, hall⟩ := hend (Or.inl ⟨0, hd⟩)
  exact ⟨s, hrun, hone, htwo, h0, hall 0 hone, hall 1 htwo⟩

/-! ## Shutting down beside other calls -/

/-- The pool is freed while a submit call is between its `malloc` and its lock, or while a second destroy call is before its lock:
the call then locks a mutex that has been destroyed, in memory that has been freed. -/
theorem late_call_uses_freed_pool :
    (∃ t s, Run Step (State.init 1) [.callSubmit 0, .callDestroy 0, .close 0, .exit 0, .join 0, .free 0] t ∧
      t.freed = true ∧ t.submit 0 = .began 1 ∧ Step t .misuse s ∧ s.misused = true) ∧
    ∃ t s, Run Step (State.init 1) [.callDestroy 0, .callDestroy 1, .close 0, .exit 0, .join 0, .free 0] t ∧
      t.freed = true ∧ t.destroy 1 = .began ∧ Step t .misuse s ∧ s.misused = true := by
  constructor
  · have h1 : Step (State.init 1) (.callSubmit 0) _ := Step.callSubmit (a := 1) rfl (by decide) rfl
    have h2 := (Run.single h1).snoc (Step.callDestroy (d := 0) rfl)
    have h3 := h2.snoc (Step.close (d := 0) rfl rfl rfl)
    have h4 := h3.snoc (Step.section (w := 0) rfl (Or.inl rfl) rfl)
    have h5 := h4.snoc (Step.join (d := 0) (k := 0) rfl rfl rfl)
    have h6 := h5.snoc (Step.free (d := 0) rfl rfl)
    exact ⟨_, { State.init 1 with misused := true }, h6, rfl, rfl, Step.misuse rfl (Or.inr (Or.inl ⟨0, 1, rfl⟩)) rfl, rfl⟩
  · have h1 : Step (State.init 1) (.callDestroy 0) _ := Step.callDestroy rfl
    have h2 := (Run.single h1).snoc (Step.callDestroy (d := 1) rfl)
    have h3 := h2.snoc (Step.close (d := 0) rfl rfl rfl)
    have h4 := h3.snoc (Step.section (w := 0) rfl (Or.inl rfl) rfl)
    have h5 := h4.snoc (Step.join (d := 0) (k := 0) rfl rfl rfl)
    have h6 := h5.snoc (Step.free (d := 0) rfl rfl)
    exact ⟨_, { State.init 1 with misused := true }, h6, rfl, rfl, Step.misuse rfl (Or.inr (Or.inr ⟨1, Or.inl rfl⟩)) rfl, rfl⟩

/-- A call that is not accepted when the pool is shut down is not accepted later. -/
theorem run_shut {i : Nat} {tr' : List (Label n)} {t : State n} (h : Run SafeStep (State.init n) tr s)
    (h' : Run SafeStep s tr' t) (hs : s.shutdown = true) (hi : s.submit i ≠ .returned 0) : t.submit i ≠ .returned 0 := by
  have hinv : ∀ tr' t, Run SafeStep s tr' t → t.shutdown = true ∧ t.submit i ≠ .returned 0 := by
    intro tr' t h'
    refine Run.invariant (P := fun _ t => t.shutdown = true ∧ t.submit i ≠ .returned 0) ⟨hs, hi⟩ ?_ h'
    rintro as t l u hr ⟨ht, hti⟩ hstep
    obtain ⟨hu, hback⟩ := hstep.1.shut (Sound.not_misuse (run_sound (h.append hr)) hstep) ht
    exact ⟨hu, fun he => hti (hback i he)⟩
  exact (hinv tr' t h').2

/-- When the pool is freed only while no other call is between its start and the end of its section, and no call starts after, no
call uses the freed pool; the pool is freed at most once; and a submit call that has not been accepted when the pool is shut down
can finish, and returns -1. -/
theorem shutdown_safe_when_alone (h : Run SafeStep (State.init n) tr s) :
    s.misused = false ∧ (s.freed = true → ¬ s.Touches) ∧ (frees tr).length ≤ 1 ∧
      (s.shutdown = true → ∀ i, s.submit i ≠ .returned 0 →
        (∀ tr' t c, Run SafeStep s tr' t → t.submit i = .returned c → c = -1) ∧
        ∀ a, s.submit i = .began a → ∃ t, Run SafeStep s [.reject i, .drop i] t ∧ t.submit i = .returned (-1)) := by
  have hsound := run_sound h
  refine ⟨hsound.guarded.intact, not_touches hsound.closing hsound.guarded, ?_, ?_⟩
  · rw [hsound.frees]
    split <;> omega
  · intro hs i hi
    refine ⟨?_, ?_⟩
    · intro tr' t c h' hc
      rcases (run_sound (h.append h')).calls.code i c hc with rfl | rfl
      · exact absurd hc (run_shut h h' hs hi)
      · rfl
    · intro a ha
      have hf : s.freed = false := by
        cases hf : s.freed with
        | false => rfl
        | true => exact absurd ha ((hsound.guarded.alone hf).1 i a)
      have h1 : SafeStep s (.reject i) _ := ⟨Step.reject hf ha hs, trivial⟩
      have h2 := (Run.single h1).snoc ⟨Step.drop State.submit_setSubmit_self, trivial⟩
      exact ⟨_, h2, State.submit_setSubmit_self⟩

/-- A submit call races with a destroy call, and is rejected before the pool is freed. -/
def rejectedRun : List (Label 1) :=
  [.callSubmit 0, .callDestroy 0, .close 0, .reject 0, .drop 0, .exit 0, .join 0, .free 0]

/-- It is a run, and the call returns -1. -/
theorem rejectedRun_runs : ∃ s, Run SafeStep (State.init 1) rejectedRun s ∧ s.freed = true ∧
    s.submit 0 = .returned (-1) := by
  have h1 : SafeStep (State.init 1) (.callSubmit 0) _ := ⟨Step.callSubmit (a := 1) rfl (by decide) rfl, rfl⟩
  have h2 := (Run.single h1).snoc ⟨Step.callDestroy (d := 0) rfl, rfl⟩
  have h3 := h2.snoc ⟨Step.close (d := 0) rfl rfl rfl, trivial⟩
  have h4 := h3.snoc ⟨Step.reject (i := 0) rfl rfl rfl, trivial⟩
  have h5 := h4.snoc ⟨Step.drop (i := 0) rfl, trivial⟩
  have h6 := h5.snoc ⟨Step.section (w := 0) rfl (Or.inl rfl) rfl, trivial⟩
  have h7 := h6.snoc ⟨Step.join (d := 0) (k := 0) rfl rfl rfl, trivial⟩
  have h8 := h7.snoc ⟨Step.free (d := 0) rfl rfl, ?_, ?_⟩
  · exact ⟨_, h8, rfl, rfl⟩
  · rintro (_ | i) a hi <;> cases hi
  · rintro (_ | d) hd he
    · exact hd rfl
    · cases he

/-- The freed pool is not used. -/
theorem shutdown_safe_when_alone_race : ∃ s, Run SafeStep (State.init 1) rejectedRun s ∧ s.freed = true ∧
    s.misused = false ∧ ¬ s.Touches := by
  obtain ⟨s, hrun, hf, _⟩ := rejectedRun_runs
  obtain ⟨hm, ht, _, _⟩ := shutdown_safe_when_alone hrun
  exact ⟨s, hrun, hf, hm, ht hf⟩

/-! ## Waiting -/

/-- In every run in which the freed pool has not been used, of any number of workers and calls: while a worker waits, the queue is
no longer than the number of workers that have been woken and do not have the lock yet. So a task in the queue has a woken worker,
whoever took the task that the signal was for. -/
theorem signals_cover_queue (h : Run Step (State.init n) tr s) (hm : s.misused = false) :
    ∃ q, s.Queue q ∧
      ((∃ w, s.worker w = .waiting) → q.length ≤ (Finset.univ.filter (fun w => s.worker w = .woken)).card) ∧
      (s.head ≠ 0 → (∃ w, s.worker w = .waiting) → ∃ w, s.worker w = .woken) := by
  obtain ⟨q, hlive⟩ := Live.run live_init h hm
  refine ⟨q, hlive.linked.queue, hlive.awake, ?_⟩
  intro h0 hwait
  have hle := hlive.awake hwait
  have hpos : 0 < q.length := by
    refine List.length_pos_of_ne_nil (fun hq => ?_)
    exact h0 ((QueueAux.queue_nil_iff hlive.linked.queue).2 hq)
  obtain ⟨w, hw⟩ := Finset.card_pos.1 (Nat.lt_of_lt_of_le hpos hle)
  exact ⟨w, (Finset.mem_filter.1 hw).2⟩

/-- Two workers wait when a task is accepted; one is woken and the other still waits. -/
theorem signals_cover_queue_two_workers : ∃ s, Run Step (State.init 2) [.wait 0, .wait 1, .callSubmit 0, .accept 0] s ∧
    s.misused = false ∧ s.head ≠ 0 ∧ s.worker 1 = .waiting ∧ ∃ w, s.worker w = .woken := by
  have hsig : Signalled (Function.update (Function.update (fun _ : Fin 2 => Worker.ready) 0 .waiting) 1 .waiting)
      (Function.update (Function.update (fun _ : Fin 2 => Worker.ready) 0 .woken) 1 .waiting) := by
    unfold Signalled
    decide
  have h1 : Step (State.init 2) (.wait 0) _ := Step.section (w := 0) rfl (Or.inl rfl) rfl
  have h2 := (Run.single h1).snoc (Step.section (w := 1) rfl (Or.inl rfl) rfl)
  have h3 := h2.snoc (Step.callSubmit (i := 0) (a := 1) rfl (by decide) rfl)
  have h4 := h3.snoc (Step.accept (i := 0) rfl rfl rfl rfl hsig)
  obtain ⟨_, _, _, hwoken⟩ := signals_cover_queue h4 rfl
  exact ⟨_, h4, rfl, by decide, rfl, hwoken (by decide) ⟨1, rfl⟩⟩

/-- From a pool that is shut down, no run has a worker wait or a call accepted, as long as the freed pool is not used. -/
theorem run_closed {tr' : List (Label n)} {t : State n} (h : Run Step s tr' t) (hs : s.shutdown = true)
    (hm : t.misused = false) : t.shutdown = true ∧ (∀ w, .wait w ∉ tr') ∧ ∀ i, .accept i ∉ tr' := by
  refine Run.invariant (P := fun tr' t => t.misused = false →
    t.shutdown = true ∧ (∀ w, .wait w ∉ tr') ∧ ∀ i, .accept i ∉ tr') (fun _ => ⟨hs, nofun, nofun⟩) ?_ h hm
  intro as t l u _ ih hstep hu
  obtain ⟨ht, hl⟩ := hstep.not_misused hu
  obtain ⟨hshut, hwait, haccept⟩ := ih ht
  refine ⟨(hstep.shut hl hshut).1, ?_, ?_⟩
  · intro w hmem
    rcases List.mem_append.1 hmem with hmem | hmem
    · exact hwait w hmem
    · obtain rfl := List.mem_singleton.1 hmem
      exact nomatch (hstep.opened (Or.inl ⟨w, rfl⟩)).symm.trans hshut
  · intro i hmem
    rcases List.mem_append.1 hmem with hmem | hmem
    · exact haccept i hmem
    · obtain rfl := List.mem_singleton.1 hmem
      exact nomatch (hstep.opened (Or.inr ⟨i, rfl⟩)).symm.trans hshut

/-- In every run in which the freed pool has not been used, once the pool is shut down: no worker waits; no worker waits again and
no call is accepted, in any run from there; every worker that has not exited can take a step of its own; and so, when no worker
can take a step, all have exited and the queue is empty. -/
theorem shutdown_cannot_deadlock (hn : 0 < n) (h : Run Step (State.init n) tr s) (hm : s.misused = false)
    (hs : s.shutdown = true) :
    (∀ w, s.worker w ≠ .waiting) ∧
      (∀ tr' t, Run Step s tr' t → t.misused = false →
        (∀ w, t.worker w ≠ .waiting ∧ .wait w ∉ tr') ∧ ∀ i, .accept i ∉ tr') ∧
      (∀ w, s.worker w ≠ .exited → ∃ l s', l.worker? = some w ∧ Step s l s') ∧
      ((∀ l s' w, l.worker? = some w → ¬ Step s l s') → (∀ w, s.worker w = .exited) ∧ s.Queue []) := by
  obtain ⟨q, hlive⟩ := Live.run live_init h hm
  have henabled : ∀ w, s.worker w ≠ .exited → ∃ l s', l.worker? = some w ∧ Step s l s' := fun w => hlive.enabled hs
  refine ⟨hlive.roused hs, ?_, henabled, ?_⟩
  · intro tr' t h' ht
    obtain ⟨hshut, hwait, haccept⟩ := run_closed h' hs ht
    obtain ⟨q', hlive'⟩ := Live.run ⟨q, hlive⟩ h' ht
    exact ⟨fun w => ⟨hlive'.roused hshut w, hwait w⟩, haccept⟩
  · intro hstuck
    have hall : ∀ w, s.worker w = .exited := by
      intro w
      by_contra hw
      obtain ⟨l, s', hl, hstep⟩ := henabled w hw
      exact hstuck l s' w hl hstep
    refine ⟨hall, ?_⟩
    have h0 := (hlive.closing.exited ⟨0, hn⟩ (hall _)).2
    obtain rfl := (QueueAux.queue_nil_iff hlive.linked.queue).1 h0
    exact hlive.linked.queue

/-- One of two workers waits when the pool is shut down, and the other has not had the lock yet. -/
theorem shutdown_cannot_deadlock_two_workers : ∃ s, Run Step (State.init 2) [.wait 0, .callDestroy 0, .close 0] s ∧
    s.shutdown = true ∧ (∀ w, s.worker w ≠ .waiting) ∧ ∀ w, s.worker w ≠ .exited → ∃ l s', l.worker? = some w ∧ Step s l s' := by
  have h1 : Step (State.init 2) (.wait 0) _ := Step.section (w := 0) rfl (Or.inl rfl) rfl
  have h2 := (Run.single h1).snoc (Step.callDestroy (d := 0) rfl)
  have h3 := h2.snoc (Step.close (d := 0) rfl rfl rfl)
  obtain ⟨hwait, _, henabled, _⟩ := shutdown_cannot_deadlock (by decide) h3 rfl rfl
  exact ⟨_, h3, rfl, hwait, henabled⟩

end OsLab.Pool
