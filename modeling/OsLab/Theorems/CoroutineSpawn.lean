import OsLab.Lemmas.CoroutineLives
import OsLab.Theorems.Coroutine

/-!
# Spawning from a coroutine that can be preempted

`coroutine_spawn` tests a slot, claims it, and builds its context, and a signal can come between. Two coroutines that are preempted
between test and claim get the same slot, and a slot that is claimed but not built is resumed (`signal_in_spawn_breaks_slot`). With
the signals kept out from the test that finds the slot to the end of `makecontext`, every slot lives as it should, whatever the
bodies spawn.
-/

namespace OsLab.Coroutine

open CoroutineAux LifeAux

namespace SpawnAux

/-- What so many statements in a row do to the slots. -/
def traceOf : Nat → Machine → List (Option (Slot × Deed))
  | 0, _ => []
  | n + 1, m =>
    match step m .statement with
    | none => []
    | some m' => m.deed .statement :: traceOf n m'

/-- Statements one after another are a run with their trace. -/
theorem run_traceOf {ok : Machine → Label → Prop} (hok : ∀ m, ok m .statement) {n : Nat} {m m' : Machine}
    (h : statements n m = some m') : Run (TraceStep ok) m (traceOf n m) m' := by
  induction n generalizing m with
  | zero =>
    obtain rfl := Option.some.inj h
    exact Run.nil m
  | succ n ih =>
    obtain ⟨m₁, hm₁, h⟩ := Option.bind_eq_some_iff.1 h
    simp only [traceOf, hm₁]
    exact Run.append (Run.single ⟨.statement, hok m, hm₁, rfl⟩) (ih h)

end SpawnAux

open SpawnAux

/-! ## The windows in `coroutine_spawn` -/

/-- A body to spawn. -/
def bodyX : Body := .step 1 .ret

/-- Another body to spawn. -/
def bodyY : Body := .step 2 .ret

/-- Signals in `coroutine_spawn`, with none in the window of `coroutine_resume`. The coroutine of slot 1 has found slot 2 free and
is preempted before it claims it; the coroutine of slot 0 spawns into slot 2; then the first claims it, and slot 2 was returned
twice, with the first function overwritten before it was called. And when a coroutine is preempted after `getcontext`, the slot it
is making is resumed without a context of its own: control goes to the place that `getcontext` stored, on the stack of the other
coroutine. -/
theorem signal_in_spawn_breaks_slot :
    (∃ es m, Run (TraceStep Machine.Quiet) (schedulerInit [.yield (.spawn bodyY .ret), .spawn bodyX .ret]) es m ∧
      deeds ⟨2, by decide⟩ es = [.bind bodyY, .build bodyY, .bind bodyX, .build bodyX]) ∧
    ∃ es m, Run (TraceStep Machine.Quiet) (schedulerInit [.spawn bodyX .ret]) es m ∧
      deeds ⟨1, by decide⟩ es = [.bind bodyX, .resume] ∧
      m.control = .co ⟨0, by decide⟩ (.spawning ⟨0, by decide⟩ .ret bodyX (.link ⟨1, by decide⟩)) := by
  have hok : ∀ m : Machine, m.Quiet .statement := fun _ => nofun
  constructor
  · have h1 : statements 43 (schedulerInit [.yield (.spawn bodyY .ret), .spawn bodyX .ret]) = some _ := rfl
    have h2 := (run_traceOf hok h1).snoc (a := none) ⟨.signal, nofun, rfl, rfl⟩
    exact ⟨_, _, h2.append (run_traceOf hok (n := 44) rfl), by decide⟩
  · have h1 : statements 22 (schedulerInit [.spawn bodyX .ret]) = some _ := rfl
    have h2 := (run_traceOf hok h1).snoc (a := none) ⟨.signal, nofun, rfl, rfl⟩
    exact ⟨_, _, h2.append (run_traceOf hok (n := 8) rfl), by decide, rfl⟩

/-! ## Signals elsewhere -/

/-- For any bodies of plain steps, yields and spawns, and any placement of signals outside the window of `coroutine_resume` and, in
a coroutine, outside the part of `coroutine_spawn` from the test that finds the slot to the end of `makecontext`: when two spawns
return a slot, the function of the first was called and has ended in between; no function is overwritten before that; when a slot
is resumed, `makecontext` has built its context, the function it was built for is the slot's last, and the context is a place of
the slot's own coroutine; and the program goes on. -/
theorem spawn_keeps_slots {fs : List Body} {es : List (Option (Slot × Deed))} {m : Machine}
    (h : Run (TraceStep Machine.Guarded) (schedulerInit fs) es m) :
    (∀ i pre mid post f g, deeds i es = pre ++ .build f :: (mid ++ .build g :: post) → .call f ∈ mid ∧ .finish ∈ mid) ∧
    (∀ i pre mid post f g, deeds i es = pre ++ .bind f :: (mid ++ .bind g :: post) → .call f ∈ mid ∧ .finish ∈ mid) ∧
    (∀ i pre post, deeds i es = pre ++ .resume :: post →
      ∃ f before since, pre = before ++ .build f :: since ∧ ∀ d ∈ since, d = .resume ∨ d = .call f) ∧
    (∀ i, m.control = .main (.resuming i .swap) → ∃ pc, m.ctx i = some (.co i pc)) ∧
    (∀ l, m.Guarded l → ∃ m', Step m l m') := by
  obtain ⟨x, halive, hlives⟩ := run_alive h
  refine ⟨?_, ?_, ?_, ?_, ?_⟩
  · intro i pre mid post f g he
    exact life_build_build (he ▸ hlives i)
  · intro i pre mid post f g he
    exact life_bind_bind (he ▸ hlives i)
  · intro i pre post he
    exact life_resume (he ▸ hlives i)
  · intro i hctl
    cases halive with
    | spawning hctl' _ _ _ => exact nomatch hctl'.symm.trans hctl
    | looping hctl' ht =>
      obtain rfl := Cont.main.inj (hctl'.symm.trans hctl)
      obtain ⟨_, pc, _, hpc, _⟩ := ht.selected i rfl
      exact ⟨pc, hpc⟩
    | inside hctl' _ => exact nomatch hctl'.symm.trans hctl
  · intro l hg
    cases l with
    | statement =>
      obtain ⟨m', _, hm', _⟩ := halive.statement
      exact ⟨m', hm'⟩
    | signal =>
      obtain ⟨m', hm', _⟩ := halive.signal hg
      exact ⟨m', hm'⟩

/-- A coroutine that is preempted while it looks for a slot, spawns twice, and gets the slot back that its first body has left. -/
theorem spawn_keeps_slots_reused :
    ∃ es m, Run (TraceStep Machine.Guarded) (schedulerInit [.spawn bodyX (.yield (.spawn bodyY .ret))]) es m ∧
      deeds ⟨1, by decide⟩ es =
        [.bind bodyX, .build bodyX, .resume, .call bodyX, .finish, .bind bodyY, .build bodyY] ∧
      .call bodyX ∈ [Deed.resume, .call bodyX, .finish, .bind bodyY] := by
  have hok : ∀ m : Machine, m.Guarded .statement := fun _ => ⟨nofun, nofun⟩
  have h1 : statements 18 (schedulerInit [.spawn bodyX (.yield (.spawn bodyY .ret))]) = some _ := rfl
  have h2 := (run_traceOf hok h1).snoc (a := none)
    ⟨.signal, ⟨nofun, by rintro _ j id rest f pc he; cases he; rfl⟩, rfl, rfl⟩
  have h3 := h2.append (run_traceOf hok (n := 72) rfl)
  refine ⟨_, _, h3, rfl, ?_⟩
  exact ((spawn_keeps_slots h3).1 ⟨1, by decide⟩ [.bind bodyX] _ [] bodyX bodyY rfl).1

end OsLab.Coroutine
