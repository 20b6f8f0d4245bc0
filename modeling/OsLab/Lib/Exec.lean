import Mathlib.Data.List.Infix

/-!
# Sequences of calls that may fail

`run f s as` applies `f` to the calls `as` one after the other, from the state `s`, and collects the results; the first failure
ends it. `run_invariant` is the rule for whole sequences: from an invariant, and under a guard that every state on the way
meets, each call succeeds and keeps the invariant, so the sequence succeeds.
-/

namespace Exec

variable {σ α β ε : Type*}

/-- The calls `as` from the state `s`: the last state and the results, in order. -/
def run (f : σ → α → Except ε (σ × β)) : σ → List α → Except ε (σ × List β)
  | s, [] => .ok (s, [])
  | s, a :: as =>
    match f s a with
    | .error e => .error e
    | .ok (t, b) =>
      match run f t as with
      | .error e => .error e
      | .ok (u, bs) => .ok (u, b :: bs)

variable {f : σ → α → Except ε (σ × β)}

/-- One call more at the end. -/
theorem run_snoc {s t u : σ} {as : List α} {bs : List β} {a : α} {b : β} (h : run f s as = .ok (t, bs))
    (ha : f t a = .ok (u, b)) : run f s (as ++ [a]) = .ok (u, bs ++ [b]) := by
  induction as generalizing s bs with
  | nil =>
    obtain ⟨rfl, rfl⟩ := Prod.mk.inj (Except.ok.inj h)
    simp only [List.nil_append, run, ha]
  | cons a' as ih =>
    simp only [run] at h
    cases hf : f s a' with
    | error e =>
      rw [hf] at h
      cases h
    | ok r =>
      obtain ⟨s', b'⟩ := r
      cases hr : run f s' as with
      | error e =>
        simp only [hf, hr] at h
        cases h
      | ok r =>
        obtain ⟨t', bs'⟩ := r
        simp only [hf, hr] at h
        obtain ⟨rfl, rfl⟩ := Prod.mk.inj (Except.ok.inj h)
        simp only [List.cons_append, run, hf, ih hr]

/-- Every state that a beginning of the sequence leads to meets the guard. -/
def Along (f : σ → α → Except ε (σ × β)) (guard : σ → Prop) (s : σ) (as : List α) : Prop :=
  ∀ pre, pre <+: as → ∀ t bs, run f s pre = .ok (t, bs) → guard t

/-- What holds along a run holds along its beginnings. -/
theorem Along.take {guard : σ → Prop} {s : σ} {as pre : List α} (h : Along f guard s as) (hp : pre <+: as) :
    Along f guard s pre := by
  intro pre' hp'
  exact h pre' (hp'.trans hp)

/-- What holds at the start, and lets every call succeed and is kept by it, holds at the end. -/
theorem run_invariant {guard : σ → Prop} {valid : α → Prop} {I : List α → σ → List β → Prop} {s : σ} (h0 : I [] s [])
    (hs : ∀ as t bs a, I as t bs → guard t → valid a → ∃ u b, f t a = .ok (u, b) ∧ I (as ++ [a]) u (bs ++ [b]))
    (as : List α) (hv : ∀ a ∈ as, valid a) (hg : Along f guard s as) : ∃ t bs, run f s as = .ok (t, bs) ∧ I as t bs := by
  induction as using List.reverseRecOn with
  | nil => exact ⟨s, [], rfl, h0⟩
  | append_singleton as a ih =>
    have hpre : as <+: as ++ [a] := List.prefix_append _ _
    obtain ⟨t, bs, hr, hi⟩ := ih (fun b hb => hv b (List.mem_append_left _ hb)) (hg.take hpre)
    have hlast : a ∈ as ++ [a] := List.mem_append_right _ List.mem_cons_self
    obtain ⟨u, b, ha, hi'⟩ := hs as t bs a hi (hg as hpre t bs hr) (hv a hlast)
    exact ⟨u, bs ++ [b], run_snoc hr ha, hi'⟩

end Exec
