import OsLab.Lemmas.PoolFlow
import OsLab.Lemmas.PoolShutdown
import Mathlib.Algebra.BigOperators.Group.Finset.Piecewise
import Mathlib.Data.Fintype.Card

/-!
# Signals and waiters

Signals are not matched with tasks: a worker that was not waiting may take the task a signal was for, and a woken worker may find
the queue empty. What holds at every moment is a count (`Awake`): while a worker waits, there are at least as many woken workers
that do not have the lock yet as tasks in the queue. Once the pool is shut down no worker waits (`Roused`).
-/

namespace OsLab.Pool

variable {n : Nat}

/-- How many workers have been woken and do not have the lock yet. -/
def State.wokenCount (s : State n) : Nat := (Finset.univ.filter (fun w => s.worker w = .woken)).card

/-- While a worker waits, every task in the queue has a woken worker. -/
def Awake (s : State n) (q : List Nat) : Prop := (∃ w, s.worker w = .waiting) → q.length ≤ s.wokenCount

/-- No worker waits in a pool that is shut down. -/
def Roused (s : State n) : Prop := s.shutdown = true → ∀ w, s.worker w ≠ .waiting

/-- What every run keeps while the freed pool is not used. -/
structure Live (s : State n) (q : List Nat) : Prop where
  linked : Linked s q
  closing : Closing s
  awake : Awake s q
  roused : Roused s

namespace WakeAux

open QueueAux FlowAux ShutdownAux

variable {s s' : State n} {q q' : List Nat} {l : Label n} {w : Fin n}

/-! ## Counting -/

/-- One worker changes: the count changes by what it was and what it is. -/
theorem wokenCount_setWorker (x : Worker) :
    (s.setWorker w x).wokenCount + (if s.worker w = .woken then 1 else 0) =
      s.wokenCount + if x = .woken then 1 else 0 := by
  have hsplit : ∀ t : State n, t.wokenCount =
      (if t.worker w = .woken then 1 else 0) + ∑ v ∈ Finset.univ.erase w, if t.worker v = .woken then 1 else 0 := by
    intro t
    unfold State.wokenCount
    rw [Finset.card_filter]
    exact (Finset.add_sum_erase _ (fun v => if t.worker v = .woken then 1 else 0) (Finset.mem_univ w)).symm
  have hrest : (∑ v ∈ Finset.univ.erase w, if (s.setWorker w x).worker v = .woken then 1 else 0) =
      ∑ v ∈ Finset.univ.erase w, if s.worker v = .woken then 1 else 0 := by
    refine Finset.sum_congr rfl (fun v hv => ?_)
    rw [State.worker_setWorker_of_ne (Finset.ne_of_mem_erase hv)]
  rw [hsplit (s.setWorker w x), hsplit s, hrest, State.worker_setWorker_self]
  omega

/-- Waking waiters does not lower the count, and raises it when one is woken. -/
theorem wokenCount_signalled {ws : Fin n → Worker} (h : Signalled s.worker ws) (hw : ∃ w, s.worker w = .waiting) :
    s.wokenCount + 1 ≤ ({ s with worker := ws } : State n).wokenCount := by
  obtain ⟨v, hv, hv'⟩ := h.2 hw
  unfold State.wokenCount
  refine Finset.card_lt_card (Finset.ssubset_iff_of_subset ?_ |>.2 ⟨v, ?_, ?_⟩)
  · intro w hw
    rw [Finset.mem_filter] at hw ⊢
    refine ⟨hw.1, ?_⟩
    rcases h.1 w with he | ⟨he, _⟩
    · exact he.trans hw.2
    · exact nomatch he.symm.trans hw.2
  · rw [Finset.mem_filter]
    exact ⟨Finset.mem_univ v, hv'⟩
  · rw [Finset.mem_filter]
    exact fun hmem => nomatch hv.symm.trans hmem.2

/-- The queue grows by what is accepted and shrinks by what is taken. -/
theorem flows_length (h : Flows (s.dispatch q) l (s'.dispatch q')) :
    q'.length + (taken [l]).length = q.length + (accepted [l]).length := by
  have hq : ∀ (t : State n) r, (t.dispatch r).queued.length = r.length := fun t r => List.length_map _
  rw [← hq s q, ← hq s' q']
  cases l with
  | accept i =>
    generalize s.dispatch q = d at h ⊢
    generalize s'.dispatch q' = d' at h ⊢
    cases (show Dispatch.Step d (.accept i) d' from h) with
    | accept => exact List.length_append
  | take v i =>
    generalize s.dispatch q = d at h ⊢
    generalize s'.dispatch q' = d' at h ⊢
    cases (show Dispatch.Step d (.take v i) d' from h) with
    | take _ hqueued =>
      rw [hqueued]
      rfl
  | execute v i =>
    generalize s.dispatch q = d at h ⊢
    generalize s'.dispatch q' = d' at h ⊢
    cases (show Dispatch.Step d (.execute v i) d' from h) with
    | execute _ => rfl
  | _ =>
    have he : s'.dispatch q' = s.dispatch q := h
    rw [he]
    rfl

/-! ## Steps -/

/-- The count stays when no worker starts or stops waiting or being woken. -/
theorem Awake.frame (h : Awake s q) (hw : ∀ w, s'.worker w = s.worker w) (hq : q'.length = q.length) : Awake s' q' := by
  rintro ⟨w, hwait⟩
  have hcount : s'.wokenCount = s.wokenCount := by
    unfold State.wokenCount
    rw [funext hw]
  rw [hcount, hq]
  exact h ⟨w, (hw w).symm.trans hwait⟩

/-- A worker that was not waiting does something else than wait: one task less for one woken worker less. -/
theorem Awake.setWorker {x : Worker} (h : Awake s q) (hx : x ≠ .waiting)
    (hq : q'.length + (if s.worker w = .woken then 1 else 0) ≤ q.length + if x = .woken then 1 else 0) :
    Awake (s.setWorker w x) q' := by
  rintro ⟨v, hv⟩
  have hold : ∃ v, s.worker v = .waiting := by
    by_cases hvw : v = w
    · rw [hvw, State.worker_setWorker_self] at hv
      exact absurd hv hx
    · rw [State.worker_setWorker_of_ne hvw] at hv
      exact ⟨v, hv⟩
  have hle := h hold
  have hcount := wokenCount_setWorker (s := s) (w := w) x
  omega

/-- A section of a worker keeps the count: the worker waits or exits only when the queue is empty, and a woken one that takes a
task takes it from the queue. -/
theorem Awake.workerSection {s' : State n} (h : Awake s q) (hl' : Linked s' q')
    (hsec : workerSection s w = some (s', l))
    (hlen : q'.length + (taken [l]).length = q.length + (accepted [l]).length) : Awake s' q' := by
  rcases workerSection_cases hsec with ⟨h0, _, rfl, rfl⟩ | ⟨h0, _, rfl, rfl⟩ | ⟨task, h0, _, rfl, rfl⟩
  · intro _
    obtain rfl := (queue_nil_iff hl'.queue).1 h0
    exact Nat.zero_le _
  · intro _
    obtain rfl := (queue_nil_iff hl'.queue).1 h0
    exact Nat.zero_le _
  · have hlen' : q'.length + 1 = q.length := hlen
    have haw : Awake (s.setWorker w (.taken s.head)) q' :=
      Awake.setWorker h nofun (by split <;> simp only [reduceCtorEq, if_false] <;> omega)
    exact fun hwait => haw hwait

end WakeAux

open WakeAux QueueAux FlowAux ShutdownAux

variable {s s' : State n} {q q' : List Nat} {l : Label n}

/-- Every step of a thread keeps `Roused`: a worker waits only in a pool that is open, and closing it wakes all. -/
theorem Roused.step (h : Roused s) (hs : Step s l s') (hl : l ≠ .misuse) : Roused s' := by
  have hset : ∀ (t : State n) w x, t.worker = s.worker → t.shutdown = s.shutdown → x ≠ .waiting →
      Roused (t.setWorker w x) := by
    intro t w x ht hsd hx hshut v
    by_cases hv : v = w
    · rw [hv, State.worker_setWorker_self]
      exact hx
    · rw [State.worker_setWorker_of_ne hv, ht]
      exact h (hsd.symm.trans hshut) v
  cases hs with
  | accept _ _ hopen he _ =>
    intro hshut
    have hsame : s.shutdown = true := by
      rw [enqueue_eq he] at hshut
      exact hshut
    exact nomatch hopen.symm.trans hsame
  | «section» _ _ hsec =>
    rcases workerSection_cases hsec with ⟨_, hopen, rfl, _⟩ | ⟨_, _, rfl, _⟩ | ⟨task, _, _, _, rfl⟩
    · exact fun hshut => nomatch hopen.symm.trans hshut
    · exact hset s _ _ rfl rfl nofun
    · exact hset { s with head := task.next, tail := if task.next = 0 then 0 else s.tail } _ _ rfl rfl nofun
  | wake _ => exact hset s _ _ rfl rfl nofun
  | execute _ _ => exact hset s _ _ rfl rfl nofun
  | release _ => exact hset (s.setTask _ none) _ _ rfl rfl nofun
  | close _ _ _ => exact fun _ w => broadcast_ne_waiting s.worker w
  | misuse _ _ _ => exact absurd rfl hl
  | _ => exact h

/-- Every step of a thread keeps the count. -/
theorem Awake.step (h : Awake s q) (hs : Step s l s') (hl : l ≠ .misuse) (hl' : Linked s' q')
    (hlen : q'.length + (taken [l]).length = q.length + (accepted [l]).length) : Awake s' q' := by
  cases hs with
  | @accept s₁ i a ws _ _ _ he hsig =>
    have hworker : s₁.worker = s.worker := by rw [enqueue_eq he]
    rw [hworker] at hsig
    rintro ⟨w, hw⟩
    have hwait : ∃ w, s.worker w = .waiting := by
      rcases hsig.1 w with hsame | ⟨hold, _⟩
      · exact ⟨w, hsame.symm.trans hw⟩
      · exact ⟨w, hold⟩
    have hle := h hwait
    have hcount := wokenCount_signalled hsig hwait
    have hlen' : q'.length = q.length + 1 := hlen
    show q'.length ≤ ({ s with worker := ws } : State n).wokenCount
    omega
  | «section» _ _ hsec => exact Awake.workerSection h hl' hsec hlen
  | wake hw =>
    refine Awake.setWorker h nofun ?_
    have hlen' : q'.length = q.length := hlen
    rw [hw, hlen']
    simp
  | execute hw _ =>
    refine Awake.setWorker h nofun ?_
    have hlen' : q'.length = q.length := hlen
    rw [hw, hlen']
    simp
  | @release w a hw =>
    have hlen' : q'.length = q.length := hlen
    refine Awake.setWorker (s := s.setTask a none) h nofun ?_
    have hw' : (s.setTask a none).worker w = .running a := hw
    rw [hw', hlen']
    simp
  | close _ _ _ =>
    rintro ⟨w, hw⟩
    exact absurd hw (broadcast_ne_waiting s.worker w)
  | misuse _ _ _ => exact absurd rfl hl
  | _ => exact Awake.frame h (fun _ => rfl) hlen

/-- Every step of a thread keeps `Live`. -/
theorem Live.step (h : Live s q) (hs : Step s l s') (hl : l ≠ .misuse) : ∃ q', Live s' q' := by
  obtain ⟨q', hlinked, hflow⟩ := h.linked.step hs hl
  exact ⟨q', hlinked, h.closing.step hs hl, h.awake.step hs hl hlinked (flows_length hflow), h.roused.step hs hl⟩

/-- A pool that has not been misused was not misused before. -/
theorem Step.not_misused (hs : Step s l s') (h : s'.misused = false) : s.misused = false ∧ l ≠ .misuse := by
  cases hs with
  | accept _ _ _ he _ =>
    rw [enqueue_eq he] at h
    exact ⟨h, nofun⟩
  | «section» _ _ hsec =>
    rcases workerSection_cases hsec with ⟨_, _, rfl, rfl⟩ | ⟨_, _, rfl, rfl⟩ | ⟨_, _, _, rfl, rfl⟩ <;> exact ⟨h, nofun⟩
  | misuse _ _ hm => exact nomatch hm.symm.trans h
  | _ => exact ⟨h, nofun⟩

/-- A worker waits, and a call is accepted, only in an open pool. -/
theorem Step.opened (hs : Step s l s') (h : (∃ w, l = .wait w) ∨ ∃ i, l = .accept i) : s.shutdown = false := by
  cases hs with
  | accept _ _ hopen _ _ => exact hopen
  | «section» _ _ hsec =>
    rcases workerSection_cases hsec with ⟨_, hopen, _, _⟩ | ⟨_, _, _, rfl⟩ | ⟨_, _, _, rfl, _⟩
    · exact hopen
    · rcases h with ⟨_, he⟩ | ⟨_, he⟩ <;> cases he
    · rcases h with ⟨_, he⟩ | ⟨_, he⟩ <;> cases he
  | _ => rcases h with ⟨_, he⟩ | ⟨_, he⟩ <;> cases he

/-- What holds of a live pool holds along every run, as long as the freed pool is not used. -/
theorem Live.run {t : State n} {tr : List (Label n)} (h : ∃ q, Live s q) (hr : Run Step s tr t) (hm : t.misused = false) :
    ∃ q, Live t q := by
  refine Run.invariant (P := fun _ t => t.misused = false → ∃ q, Live t q) (fun _ => h) ?_ hr hm
  intro as t l u _ ih hs hu
  obtain ⟨ht, hl⟩ := hs.not_misused hu
  obtain ⟨q, hlive⟩ := ih ht
  exact hlive.step hs hl

/-- A pool whose workers have started is live. -/
theorem live_init : ∃ q, Live (State.init n) q := by
  refine ⟨[], linked_init, ⟨nofun, nofun, nofun⟩, ?_, nofun⟩
  rintro ⟨_, hw⟩
  cases hw

/-- The worker a step is a step of. -/
def Label.worker? : Label n → Option (Fin n)
  | .wait w => some w
  | .exit w => some w
  | .take w _ => some w
  | .wake w => some w
  | .execute w _ => some w
  | .release w => some w
  | _ => none

/-- In a live pool that is not freed, the section of a worker goes through. -/
theorem Live.section_enabled {w : Fin n} (h : Live s q) (hf : s.freed = false)
    (hr : s.worker w = .ready ∨ s.worker w = .woken) : ∃ l s', l.worker? = some w ∧ Step s l s' := by
  cases hsec : workerSection s w with
  | some r =>
    obtain ⟨s', l⟩ := r
    refine ⟨l, s', ?_, Step.section hf hr hsec⟩
    rcases workerSection_cases hsec with ⟨_, _, _, rfl⟩ | ⟨_, _, _, rfl⟩ | ⟨_, _, _, rfl, _⟩ <;> rfl
  | none =>
    -- the section reads the task at `head`, which exists
    exfalso
    unfold workerSection at hsec
    by_cases h1 : s.head = 0 ∧ s.shutdown = false
    · rw [if_pos h1] at hsec
      cases hsec
    · rw [if_neg h1] at hsec
      by_cases h2 : s.shutdown = true ∧ s.head = 0
      · rw [if_pos h2] at hsec
        cases hsec
      · rw [if_neg h2] at hsec
        have h0 : s.head ≠ 0 := by
          intro h0
          cases hs : s.shutdown with
          | false => exact h1 ⟨h0, hs⟩
          | true => exact h2 ⟨hs, h0⟩
        obtain ⟨task, ht⟩ := h.linked.exists_head h0
        rw [ht] at hsec
        cases hsec

/-- In a live pool that is shut down, every worker that has not exited can take a step of its own. -/
theorem Live.enabled {w : Fin n} (h : Live s q) (hs : s.shutdown = true) (hw : s.worker w ≠ .exited) :
    ∃ l s', l.worker? = some w ∧ Step s l s' := by
  have hf : s.freed = false := by
    cases hf : s.freed with
    | false => rfl
    | true => exact absurd (h.closing.freed hf w) hw
  have hexist : ∀ a, (s.worker w).node = some a → ∃ task, s.tasks a = some task :=
    fun a ha => (h.linked.exist (.worker w) a ha).2
  cases hst : s.worker w with
  | ready => exact h.section_enabled hf (Or.inl hst)
  | waiting => exact absurd hst (h.roused hs w)
  | woken => exact h.section_enabled hf (Or.inr hst)
  | taken a =>
    obtain ⟨task, ht⟩ := hexist a (by rw [hst]; rfl)
    exact ⟨.execute w task.work, _, rfl, Step.execute hst ht⟩
  | running a => exact ⟨.release w, _, rfl, Step.release hst⟩
  | exited => exact absurd hst hw

end OsLab.Pool
