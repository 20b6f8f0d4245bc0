import OsLab.Coroutine
import OsLab.Lib.Run
import Mathlib.Data.Fin.Basic

/-!
# Where the coroutines are

Between signals delivered in the window of `coroutine_resume`, control is in one of three regions: `main` spawns the bodies
(`Spawning`), `main` is in its loop (`Looping`), or a coroutine has control and `main_ctx` is the place in `coroutine_resume` it
goes back to (`Inside`). In each of them the flags that the handler reads are known from the place alone, so it is known at each
place whether the handler switches away.
-/

namespace OsLab.Coroutine

/-! ## What is known at a place -/

/-- What the place has read of `current_id` is the slot `i`. -/
def YieldPc.Own (i : Slot) : YieldPc → Prop
  | .read => True
  | .test id => id = some i
  | .suspend id => id = i
  | .clear id => id = i
  | .swap id => id = i

/-- What the place has read of `current_id` is the slot `i`, and what is left of the body is plain. -/
def CoPc.Own (i : Slot) : CoPc → Prop
  | .entry => True
  | .call id => id = some i
  | .body id rest => id = i ∧ rest.Plain
  | .yielding id rest pc => id = i ∧ rest.Plain ∧ pc.Own i
  | .spawning _ _ _ _ => False
  | .finish id => id = i
  | .clear id => id = i
  | .exit id => id = i

/-- The state of its slot while a coroutine is at the place. -/
def CoPc.state : CoPc → State
  | .yielding _ _ (.clear _) => .suspend
  | .yielding _ _ (.swap _) => .suspend
  | .clear _ => .free
  | .exit _ => .free
  | _ => .running

/-- `current_id` while the coroutine of slot `i` is at the place. -/
def CoPc.current (i : Slot) : CoPc → Option Slot
  | .yielding _ _ (.swap _) => none
  | .exit _ => none
  | _ => some i

/-- `in_scheduler` at a place of the loop. -/
def MainPc.sched : MainPc → Bool
  | .resuming _ .swap => false
  | .resuming _ .enter => false
  | _ => true

/-- `current_id` at a place of the loop. -/
def MainPc.current : MainPc → Option Slot
  | .resuming i .leave => some i
  | .resuming i .swap => some i
  | _ => none

/-- The slot that `coroutine_resume` has marked as running. -/
def MainPc.selected : MainPc → Option Slot
  | .resuming i .setCurrent => some i
  | .resuming i .leave => some i
  | .resuming i .swap => some i
  | _ => none

/-- How many slots the loop has found free since it set `all_done`. -/
def MainPc.seen : MainPc → Nat
  | .test i true => i.val
  | .decide true => maxCoroutines
  | .done => maxCoroutines
  | _ => 0

/-! ## The slots -/

/-- The context stored for slot `i` is that of its own coroutine, with exactly the steps left that have not been executed. -/
def Saved (m : Machine) (f : Body) (i : Slot) : Prop :=
  m.func i = some f ∧
    ∃ pc, m.ctx i = some (.co i pc) ∧ pc.Own i ∧ pc.state = .running ∧ m.tags i ++ pc.steps f = f.steps

/-- A slot whose coroutine does not have control: never used, finished, or stored. -/
def Settled (fs : List Body) (m : Machine) (i : Slot) : Prop :=
  match fs[i.val]? with
  | none => m.state i = .free ∧ m.tags i = []
  | some f =>
    (m.state i = .free ∧ m.tags i = f.steps) ∨ ((m.state i = .runnable ∨ m.state i = .suspend) ∧ Saved m f i)

/-- A slot before the loop: never used, or made by `coroutine_spawn`. -/
def Fresh (bs : List Body) (m : Machine) (i : Slot) : Prop :=
  match bs[i.val]? with
  | none => m.state i = .free ∧ m.tags i = []
  | some f => m.state i = .runnable ∧ Saved m f i

/-! ## The three regions -/

/-- `main` spawns `f`, after the bodies `bs`. -/
structure Spawning (bs : List Body) (m : Machine) (f : Body) (pc : SpawnPc) : Prop where
  sched : m.inScheduler = true
  current : m.currentId = none
  fresh : ∀ j, pc.slot ≠ some j → Fresh bs m j
  passed : ∀ i, pc = .scan i → ∀ j, j < i → m.state j ≠ .free
  making : ∀ i, pc.slot = some i → i.val = bs.length ∧ m.tags i = []
  claimed : ∀ i, pc = .bind i ∨ pc = .getContext i ∨ pc = .link i ∨ pc = .makeContext i → m.state i = .runnable
  bound : ∀ i, pc = .getContext i ∨ pc = .link i ∨ pc = .makeContext i → m.func i = some f

/-- `main` is in its loop. -/
structure Looping (fs : List Body) (m : Machine) (pc : MainPc) : Prop where
  sched : m.inScheduler = pc.sched
  current : m.currentId = pc.current
  settled : ∀ j, pc.selected ≠ some j → Settled fs m j
  selected : ∀ i, pc.selected = some i → m.state i = .running ∧ ∃ f, fs[i.val]? = some f ∧ Saved m f i
  ready : ∀ i, pc = .resuming i .setState → m.state i = .runnable ∨ m.state i = .suspend
  seen : ∀ j : Slot, j.val < pc.seen → m.state j = .free

/-- The coroutine of slot `i`, with the body `f`, has control. -/
structure Inside (fs : List Body) (m : Machine) (i : Slot) (f : Body) (pc : CoPc) : Prop where
  sched : m.inScheduler = false
  main : m.mainCtx = some (.main (.resuming i .enter))
  current : m.currentId = pc.current i
  state : m.state i = pc.state
  spawned : fs[i.val]? = some f
  func : m.func i = some f
  own : pc.Own i
  steps : m.tags i ++ pc.steps f = f.steps
  settled : ∀ j, j ≠ i → Settled fs m j

/-- Control is in one of the regions. -/
inductive Inv (fs : List Body) (m : Machine) : Prop where
  | spawning {bs rest : List Body} {f : Body} {pc : SpawnPc} : m.control = .main (.spawning f rest pc) →
      fs = bs ++ f :: rest → Spawning bs m f pc → Inv fs m
  | looping {pc : MainPc} : m.control = .main pc → (∀ f rest spc, pc ≠ .spawning f rest spc) → Looping fs m pc → Inv fs m
  | inside {i : Slot} {f : Body} {pc : CoPc} : m.control = .co i pc → Inside fs m i f pc → Inv fs m

namespace CoroutineAux

variable {m m' : Machine} {fs bs : List Body} {f : Body} {i j : Slot}

/-! ## Changes elsewhere -/

/-- What is saved of a coroutine depends on its slot alone. -/
theorem saved_congr (h : Saved m f j) (hf : m'.func j = m.func j) (hc : m'.ctx j = m.ctx j) (ht : m'.tags j = m.tags j) :
    Saved m' f j := by
  unfold Saved
  rw [hf, hc, ht]
  exact h

/-- Whether a slot is settled depends on the slot alone. -/
theorem settled_congr (h : Settled fs m j) (hs : m'.state j = m.state j) (hf : m'.func j = m.func j)
    (hc : m'.ctx j = m.ctx j) (ht : m'.tags j = m.tags j) : Settled fs m' j := by
  unfold Settled Saved at h ⊢
  rw [hs, hf, hc, ht]
  exact h

theorem fresh_congr (h : Fresh bs m j) (hs : m'.state j = m.state j) (hf : m'.func j = m.func j)
    (hc : m'.ctx j = m.ctx j) (ht : m'.tags j = m.tags j) : Fresh bs m' j := by
  unfold Fresh Saved at h ⊢
  rw [hs, hf, hc, ht]
  exact h

/-- A slot that nobody has run in is settled. -/
theorem settled_of_fresh (h : Fresh fs m j) : Settled fs m j := by
  unfold Fresh at h
  unfold Settled
  cases hb : fs[j.val]? with
  | none => rw [hb] at h; exact h
  | some f => rw [hb] at h; exact Or.inr ⟨Or.inl h.1, h.2⟩

theorem state_setState_self {x : State} : (m.setState i x).state i = x := by
  simp only [Machine.setState, Function.update_self]

theorem state_setState_of_ne {x : State} (h : j ≠ i) : (m.setState i x).state j = m.state j := by
  simp only [Machine.setState, Function.update_of_ne h]

theorem ctx_setCtx_self {k : Cont} : (m.setCtx i k).ctx i = some k := by
  simp only [Machine.setCtx, Function.update_self]

theorem ctx_setCtx_of_ne {k : Cont} (h : j ≠ i) : (m.setCtx i k).ctx j = m.ctx j := by
  simp only [Machine.setCtx, Function.update_of_ne h]

/-- The steps on a stack after one more step. -/
theorem tags_log {id : Option Slot} {tag : Nat} :
    ({ m with log := m.log ++ [Ran.mk id i tag] } : Machine).tags j = if i = j then m.tags j ++ [tag] else m.tags j := by
  unfold Machine.tags
  by_cases h : i = j
  · simp [List.filter_append, h]
  · simp [List.filter_append, h]

/-- While the state of its slot is running, `current_id` is the coroutine's. -/
theorem current_of_running {pc : CoPc} (h : pc.state = .running) : pc.current i = some i := by
  cases pc with
  | yielding id rest ypc => cases ypc <;> first | rfl | cases h
  | exit id => cases h
  | _ => rfl

/-! ## The loop -/

/-- The loop of `main` goes to the next slot, or has seen all. -/
theorem next_cases (i : Slot) (d : Bool) :
    (∃ h : i.val + 1 < maxCoroutines, MainPc.next i d = .test ⟨i.val + 1, h⟩ d) ∨
      (i.val + 1 = maxCoroutines ∧ MainPc.next i d = .decide d) := by
  unfold MainPc.next
  by_cases h : i.val + 1 < maxCoroutines
  · exact Or.inl ⟨h, dif_pos h⟩
  · have hi := i.isLt
    exact Or.inr ⟨by omega, dif_neg h⟩

end CoroutineAux

end OsLab.Coroutine
