import OsLab.Lib.Run
import Mathlib.Data.List.Nodup
import Mathlib.Logic.Function.Basic

/-!
# Dispatching jobs first come, first served

Jobs are accepted, wait in a queue, are taken by idle workers and executed by whoever took them. `Books` is what the order of
these operations keeps: the jobs taken are a prefix of the jobs accepted, and a job taken is executed once, or is still with the
worker who took it.
-/

variable {ω ι : Type*}

/-- The jobs that wait, and the job each worker took and has not executed. -/
structure Dispatch (ω ι : Type*) where
  queued : List ι
  held : ω → Option ι

namespace Dispatch

/-- An operation on jobs. -/
inductive Op (ω ι : Type*) where
  | accept (i : ι)
  | take (w : ω) (i : ι)
  | execute (w : ω) (i : ι)

/-- No job anywhere. -/
def empty : Dispatch ω ι := ⟨[], fun _ => none⟩

/-- What an operation does. -/
inductive Step [DecidableEq ω] : Dispatch ω ι → Op ω ι → Dispatch ω ι → Prop where
  | accept {d : Dispatch ω ι} {i : ι} : Step d (.accept i) { d with queued := d.queued ++ [i] }
  | take {d : Dispatch ω ι} {w : ω} {i : ι} {r : List ι} : d.held w = none → d.queued = i :: r →
      Step d (.take w i) { queued := r, held := Function.update d.held w (some i) }
  | execute {d : Dispatch ω ι} {w : ω} {i : ι} : d.held w = some i →
      Step d (.execute w i) { d with held := Function.update d.held w none }

/-- The jobs accepted, in order. -/
def accepted (ops : List (Op ω ι)) : List ι := ops.filterMap (fun op => match op with | .accept i => some i | _ => none)

/-- The jobs taken, in order. -/
def taken (ops : List (Op ω ι)) : List ι := ops.filterMap (fun op => match op with | .take _ i => some i | _ => none)

/-- The jobs executed, in order. -/
def executed (ops : List (Op ω ι)) : List ι := ops.filterMap (fun op => match op with | .execute _ i => some i | _ => none)

/-- Where the jobs are after some operations. -/
structure Books (ops : List (Op ω ι)) (d : Dispatch ω ι) : Prop where
  once : (executed ops).Nodup
  executed_taken : ∀ i ∈ executed ops, i ∈ taken ops
  pending : ∀ i ∈ taken ops, i ∈ executed ops ∨ ∃ w, d.held w = some i
  held_taken : ∀ w i, d.held w = some i → i ∈ taken ops ∧ i ∉ executed ops
  apart : ∀ w w' i, d.held w = some i → d.held w' = some i → w = w'

variable {d : Dispatch ω ι} {ops : List (Op ω ι)}

/-- Accepting a job moves no other. -/
theorem Books.accept {i : ι} (h : Books ops d) : Books (ops ++ [.accept i]) { d with queued := d.queued ++ [i] } := by
  have ht : taken (ops ++ [.accept i]) = taken ops := by simp [taken]
  have he : executed (ops ++ [.accept i]) = executed ops := by simp [executed]
  refine ⟨?_, ?_, ?_, ?_, h.apart⟩
  · rw [he]; exact h.once
  · rw [he, ht]; exact h.executed_taken
  · rw [he, ht]; exact h.pending
  · rw [he, ht]; exact h.held_taken

variable [DecidableEq ω]

/-- Jobs leave the queue in the order in which they were accepted. -/
theorem accepted_eq (h : Run Step empty ops d) : accepted ops = taken ops ++ d.queued := by
  refine Run.invariant (P := fun ops d => accepted ops = taken ops ++ d.queued) rfl ?_ h
  intro ops d op d' _ ih hs
  simp only [accepted, taken, List.filterMap_append] at ih ⊢
  cases hs with
  | accept => simp [ih]
  | take _ hq => simp [ih, hq]
  | execute _ => simp [ih]

namespace Books

/-- A job that was not taken before is taken. -/
theorem take {w : ω} {i : ι} {r : List ι} (h : Books ops d) (hw : d.held w = none) (hi : i ∉ taken ops) :
    Books (ops ++ [.take w i]) { queued := r, held := Function.update d.held w (some i) } := by
  have ht : taken (ops ++ [.take w i]) = taken ops ++ [i] := by simp [taken]
  have he : executed (ops ++ [.take w i]) = executed ops := by simp [executed]
  have hheld : ∀ v j, Function.update d.held w (some i) v = some j → (v = w ∧ j = i) ∨ (v ≠ w ∧ d.held v = some j) := by
    intro v j hv
    by_cases hvw : v = w
    · rw [hvw, Function.update_self] at hv
      exact Or.inl ⟨hvw, (Option.some.inj hv).symm⟩
    · rw [Function.update_of_ne hvw] at hv
      exact Or.inr ⟨hvw, hv⟩
  refine ⟨?_, ?_, ?_, ?_, ?_⟩
  · rw [he]; exact h.once
  · rw [he, ht]
    exact fun j hj => List.mem_append_left _ (h.executed_taken j hj)
  · rw [he, ht]
    intro j hj
    rcases List.mem_append.1 hj with hj | hj
    · rcases h.pending j hj with hj | ⟨v, hv⟩
      · exact Or.inl hj
      · have hvw : v ≠ w := by
          rintro rfl
          rw [hw] at hv
          cases hv
        exact Or.inr ⟨v, (Function.update_of_ne hvw _ _).trans hv⟩
    · rw [List.mem_singleton.1 hj]
      exact Or.inr ⟨w, Function.update_self w _ _⟩
  · rw [he, ht]
    intro v j hv
    rcases hheld v j hv with ⟨_, rfl⟩ | ⟨_, hv⟩
    · exact ⟨List.mem_append_right _ List.mem_cons_self, fun hj => hi (h.executed_taken j hj)⟩
    · exact ⟨List.mem_append_left _ (h.held_taken v j hv).1, (h.held_taken v j hv).2⟩
  · intro v v' j hv hv'
    rcases hheld v j hv with ⟨hvw, hji⟩ | ⟨_, hv⟩ <;> rcases hheld v' j hv' with ⟨hvw', hji'⟩ | ⟨_, hv'⟩
    · rw [hvw, hvw']
    · exact absurd (hji ▸ (h.held_taken v' j hv').1) hi
    · exact absurd (hji' ▸ (h.held_taken v j hv).1) hi
    · exact h.apart v v' j hv hv'

/-- A worker executes the job it took. -/
theorem execute {w : ω} {i : ι} (h : Books ops d) (hw : d.held w = some i) :
    Books (ops ++ [.execute w i]) { d with held := Function.update d.held w none } := by
  have ht : taken (ops ++ [.execute w i]) = taken ops := by simp [taken]
  have he : executed (ops ++ [.execute w i]) = executed ops ++ [i] := by simp [executed]
  have hheld : ∀ v j, Function.update d.held w none v = some j → v ≠ w ∧ d.held v = some j := by
    intro v j hv
    by_cases hvw : v = w
    · rw [hvw, Function.update_self] at hv
      cases hv
    · rw [Function.update_of_ne hvw] at hv
      exact ⟨hvw, hv⟩
  obtain ⟨hit, hie⟩ := h.held_taken w i hw
  refine ⟨?_, ?_, ?_, ?_, ?_⟩
  · rw [he, ← List.concat_eq_append, List.nodup_concat]
    exact ⟨hie, h.once⟩
  · rw [he, ht]
    intro j hj
    rcases List.mem_append.1 hj with hj | hj
    · exact h.executed_taken j hj
    · rw [List.mem_singleton.1 hj]
      exact hit
  · rw [he, ht]
    intro j hj
    rcases h.pending j hj with hj | ⟨v, hv⟩
    · exact Or.inl (List.mem_append_left _ hj)
    · by_cases hvw : v = w
      · rw [hvw, hw] at hv
        rw [Option.some.inj hv]
        exact Or.inl (List.mem_append_right _ List.mem_cons_self)
      · exact Or.inr ⟨v, (Function.update_of_ne hvw _ _).trans hv⟩
  · rw [he, ht]
    intro v j hv
    obtain ⟨hvw, hv⟩ := hheld v j hv
    refine ⟨(h.held_taken v j hv).1, ?_⟩
    intro hj
    rcases List.mem_append.1 hj with hj | hj
    · exact (h.held_taken v j hv).2 hj
    · rw [List.mem_singleton.1 hj] at hv
      exact hvw (h.apart v w i hv hw)
  · intro v v' j hv hv'
    exact h.apart v v' j (hheld v j hv).2 (hheld v' j hv').2

end Books

/-- The books hold after every run in which no job is accepted twice. -/
theorem books (h : Run Step empty ops d) (hn : (accepted ops).Nodup) : Books ops d := by
  refine Run.invariant (P := fun ops d => (accepted ops).Nodup → Books ops d) ?_ ?_ h hn
  · exact fun _ => ⟨List.nodup_nil, nofun, nofun, nofun, nofun⟩
  · intro ops d op d' hr ih hs hn
    have hn' : (accepted ops).Nodup := by
      unfold accepted at hn
      rw [List.filterMap_append] at hn
      exact (List.nodup_append.1 hn).1
    cases hs with
    | accept => exact (ih hn').accept
    | @take w i r hw hq =>
      refine (ih hn').take hw ?_
      -- what is queued was accepted once, so it was not taken before
      have heq := accepted_eq hr
      rw [hq] at heq
      rw [heq] at hn'
      intro hi
      exact (List.nodup_append.1 hn').2.2 i hi i List.mem_cons_self rfl
    | execute hw => exact (ih hn').execute hw

/-- When no job waits and no worker has one, every job accepted has been executed. -/
theorem executed_of_drained (h : Run Step empty ops d) (hn : (accepted ops).Nodup) (hq : d.queued = [])
    (hw : ∀ w, d.held w = none) {i : ι} (hi : i ∈ accepted ops) : i ∈ executed ops := by
  rw [accepted_eq h, hq, List.append_nil] at hi
  rcases (books h hn).pending i hi with hi | ⟨w, hwi⟩
  · exact hi
  · rw [hw w] at hwi
    cases hwi

/-- Only accepted jobs are executed. -/
theorem accepted_of_executed (h : Run Step empty ops d) (hn : (accepted ops).Nodup) {i : ι} (hi : i ∈ executed ops) :
    i ∈ accepted ops := by
  rw [accepted_eq h]
  exact List.mem_append_left _ ((books h hn).executed_taken i hi)

end Dispatch
