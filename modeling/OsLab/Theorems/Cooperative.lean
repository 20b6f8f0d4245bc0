import OsLab.Lemmas.CooperativeLoop
import Mathlib.Data.List.Infix

/-!
# The sleeping coroutines run to their ends

For any bodies, spawned by `main` or by coroutines, and any clock: what `current_id` and the states say about who has control is
true, a slot is taken only when its last body has returned, the steps of every body are executed once and in order, and the loop
ends when all bodies have returned.
-/

namespace OsLab.Cooperative

variable {m m' : Machine} {fs : List Body} {es : List Event} {e : Event} {now : Int}

namespace CooperativeAux

/-! ## What the invariant says -/

/-- A slot is free exactly when it holds no unfinished body; a slot that has control is not free. -/
theorem Inv.not_free_iff {i : Slot} (h : Inv es m) : m.state i ≠ .free ↔ ∃ l ∈ lives i es, l.finished = false := by
  cases h with
  | looping _ hl => exact (hl.settled i).not_free_iff
  | @inside j _ _ hi =>
    by_cases hj : i = j
    · subst hj
      exact ⟨fun _ => hi.pending.unfinished, fun _ hfree => nomatch hi.state.symm.trans hfree⟩
    · exact (hi.settled i hj).not_free_iff

/-- What a life has run is a beginning of its body, and all of it once it has finished. -/
theorem Inv.ran_beginning {i : Slot} {l : Life} (h : Inv es m) (hl : l ∈ lives i es) :
    l.ran <+: l.body.steps ∧ (l.finished = true → l.ran = l.body.steps) := by
  cases h with
  | looping _ hlp => exact (hlp.settled i).ran_beginning hl
  | @inside j _ _ hi =>
    by_cases hj : i = j
    · subst hj
      exact hi.pending.ran_beginning hl
    · exact (hi.settled i hj).ran_beginning hl

/-- The lives of a free slot are complete. -/
theorem Inv.complete_of_free {i : Slot} (h : Inv es m) (hfree : m.state i = .free) : ∀ l ∈ lives i es, l.Complete := by
  intro l hl
  cases hf : l.finished with
  | true => exact ⟨hf, (Inv.ran_beginning h hl).2 hf⟩
  | false => exact absurd hfree ((Inv.not_free_iff h).2 ⟨l, hl, hf⟩)

/-- A call of `coroutine_spawn` returns what it returns in the state before. -/
theorem Inv.spawned {f : Body} {id : Option Slot} (h : Inv es m) (hs : Step m (.spawned f id) m') :
    id = (coroutineSpawn m f).1 := by
  cases Inv.acts h hs <;> rfl

/-- The next plain step of a coroutine is the next one of the last body spawned into its slot. -/
theorem Inv.ran_next {id : Option Slot} {j : Slot} {tag : Nat} (h : Inv es m) (hs : Step m (.ran id j tag) m') :
    id = some j ∧ ∃ l rest, lives j es = l :: rest ∧ l.finished = false ∧ l.ran ++ [tag] <+: l.body.steps := by
  cases Inv.acts h hs with
  | @ran _ _ r hctl =>
    cases h with
    | looping hctl' _ => exact nomatch hctl.symm.trans hctl'
    | inside hctl' hi =>
      cases hctl.symm.trans hctl'
      obtain ⟨l, rest, hl, _, hfin, _, _, hsteps⟩ := hi.pending
      exact ⟨rfl, l, rest, hl, hfin, r.steps, (List.append_assoc _ _ _).trans hsteps⟩

/-- Steps at the times given, with their events. -/
def steps : Machine → List Int → Option (List Event × Machine)
  | m, [] => some ([], m)
  | m, now :: ts => (step m now).bind fun p => (steps p.2 ts).map fun q => (p.1 :: q.1, q.2)

/-- What `steps` returns is a run. -/
theorem run_steps {ts : List Int} (h : steps m ts = some (es, m')) : Run Step m es m' := by
  induction ts generalizing m es with
  | nil =>
    obtain ⟨rfl, rfl⟩ := Prod.mk.inj (Option.some.inj h)
    exact Run.nil _
  | cons now ts ih =>
    obtain ⟨p, hp, h⟩ := Option.bind_eq_some_iff.1 h
    obtain ⟨q, hq, he⟩ := Option.map_eq_some_iff.1 h
    obtain ⟨rfl, rfl⟩ := Prod.mk.inj he
    exact Run.append (Run.single ⟨now, hp⟩) (ih hq)

end CooperativeAux

open CooperativeAux

/-! ## Whole runs -/

/-- For any bodies and any clock: while `main` has control, `current_id` is -1 and no slot is running; while coroutine `i` has
control, it is `current_id` and the only running slot; a spawn takes a slot whose bodies have run to their ends, and finds none
exactly when each slot holds an unfinished body; a plain step is executed under the id of its slot, and is the next one of the
unfinished body spawned there last; of every body spawned a beginning has been executed, and all of it when it has returned; when
the loop ends, every slot is free and every body has run to its end; and until then the program goes on. -/
theorem cooperative_bodies_run_once (h : Run Step (schedulerInit fs) es m) :
    (∀ pc, m.control = .main pc → m.currentId = none ∧ ∀ i, m.state i ≠ .running) ∧
      (∀ i pc, m.control = .co i pc → m.currentId = some i ∧ ∀ j, m.state j = .running ↔ j = i) ∧
      (∀ f id m', Step m (.spawned f id) m' →
        (∀ i, id = some i → ∀ l ∈ lives i es, l.Complete) ∧
          (id = none ↔ ∀ i, ∃ l ∈ lives i es, l.finished = false)) ∧
      (∀ id j tag m', Step m (.ran id j tag) m' →
        id = some j ∧ ∃ l rest, lives j es = l :: rest ∧ l.finished = false ∧ l.ran ++ [tag] <+: l.body.steps) ∧
      (∀ i, ∀ l ∈ lives i es, l.ran <+: l.body.steps ∧ (l.finished = true → l.ran = l.body.steps)) ∧
      (m.control = .main .done → ∀ i, m.state i = .free ∧ ∀ l ∈ lives i es, l.Complete) ∧
      (m.control ≠ .main .done → ∀ now, ∃ e m', step m now = some (e, m')) := by
  have hinv := run_inv h
  refine ⟨?_, ?_, ?_, fun _ _ _ _ => Inv.ran_next hinv, fun _ _ => Inv.ran_beginning hinv, ?_, ?_⟩
  · intro pc hctl
    cases hinv with
    | looping _ hl => exact ⟨hl.current, fun i => (hl.settled i).not_running⟩
    | inside hctl' _ => cases hctl.symm.trans hctl'
  · intro i pc hctl
    cases hinv with
    | looping hctl' _ => cases hctl.symm.trans hctl'
    | inside hctl' hi =>
      cases hctl.symm.trans hctl'
      refine ⟨hi.current, fun j => ⟨fun hj => ?_, fun hj => hj ▸ hi.state⟩⟩
      by_contra hne
      exact (hi.settled j hne).not_running hj
  · intro f id m' hs
    rw [Inv.spawned hinv hs]
    refine ⟨fun i hi => Inv.complete_of_free hinv (coroutineSpawn_some hi).1, coroutineSpawn_none.trans ?_⟩
    exact forall_congr' fun i => Inv.not_free_iff hinv
  · intro hd i
    have hfree : m.state i = .free := by
      cases hinv with
      | looping hctl hl =>
        cases hctl.symm.trans hd
        exact hl.seen i i.isLt
      | inside hctl _ => cases hctl.symm.trans hd
    exact ⟨hfree, Inv.complete_of_free hinv hfree⟩
  · intro hd now
    obtain ⟨e, m', hs, _⟩ := Inv.progress now hinv hd
    exact ⟨e, m', hs⟩

/-- A body that spawns another and then sleeps. -/
def spawner : Body := .spawn (.step 5 .ret) (.step 7 (.sleep 2 (.step 8 .ret)))

/-- With the clock at 0 for twenty steps and at 2 from then on, the two bodies have run to their ends when the loop ends. -/
theorem cooperative_bodies_run_once_spawner : ∃ es m, Run Step (schedulerInit [spawner]) es m ∧ m.control = .main .done ∧
    (∀ l ∈ lives ⟨0, by decide⟩ es, l.Complete) ∧ lives ⟨0, by decide⟩ es = [⟨spawner, [7, 8], true⟩] ∧
    lives ⟨1, by decide⟩ es = [⟨.step 5 .ret, [5], true⟩] := by
  have h : steps (schedulerInit [spawner]) (List.replicate 20 0 ++ List.replicate 24 2) = some (_, _) := rfl
  have hrun := run_steps h
  obtain ⟨_, _, _, _, _, hdone, _⟩ := cooperative_bodies_run_once hrun
  exact ⟨_, _, hrun, rfl, (hdone rfl ⟨0, by decide⟩).2, rfl, rfl⟩

end OsLab.Cooperative
