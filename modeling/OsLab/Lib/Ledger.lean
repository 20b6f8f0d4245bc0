import Mathlib.Algebra.BigOperators.Group.Finset.Basic
import Mathlib.Tactic.Ring

/-!
# Accounts and what is charged to them

A book gives every index an account, and `total` is what the accounts hold together; a change of one account changes it by what
that account gains (`total_update`). `charged_le` is the rule for whole runs: when no step charges more than it takes from the
holdings and what it brings, neither does the run.
-/

namespace Ledger

section Book

variable {ι β : Type*} [Fintype ι] [DecidableEq ι]

/-- What all accounts hold together. -/
def total (value : β → Int) (book : ι → β) : Int := ∑ i, value (book i)

/-- One account changes. -/
theorem total_update (value : β → Int) (book : ι → β) (i : ι) (b : β) :
    total value (Function.update book i b) = total value book - value (book i) + value b := by
  have hmem := Finset.mem_univ i
  have hrest : ∑ j ∈ Finset.univ.erase i, value (Function.update book i b j) = ∑ j ∈ Finset.univ.erase i, value (book j) :=
    Finset.sum_congr rfl fun j hj => by rw [Function.update_of_ne (Finset.ne_of_mem_erase hj)]
  unfold total
  rw [← Finset.add_sum_erase _ _ hmem, ← Finset.add_sum_erase _ (fun j => value (book j)) hmem, hrest, Function.update_self]
  omega

end Book

section Runs

variable {σ α : Type*}

/-- What the steps charge, one after the other. -/
def charged (step : σ → α → σ) (cost : σ → α → Int) : σ → List α → Int
  | _, [] => 0
  | s, a :: l => cost s a + charged step cost (step s a) l

/-- The rule for runs, under an invariant and for steps of one kind. -/
theorem charged_le (step : σ → α → σ) (cost : σ → α → Int) (gain : α → Int) (value : σ → Int) {P : σ → Prop} {Q : α → Prop}
    (hkeep : ∀ s a, P s → Q a → P (step s a)) (hstep : ∀ s a, P s → Q a → value (step s a) + cost s a ≤ value s + gain a) {s : σ}
    (hs : P s) {l : List α} (hl : ∀ a ∈ l, Q a) : value (l.foldl step s) + charged step cost s l ≤ value s + (l.map gain).sum := by
  induction l generalizing s with
  | nil => exact le_refl _
  | cons a l ih =>
    have ha : Q a := hl a List.mem_cons_self
    have hone := hstep s a hs ha
    have hrest := ih (hkeep s a hs ha) fun b hb => hl b (List.mem_cons_of_mem a hb)
    simp only [List.foldl_cons, charged, List.map_cons, List.sum_cons]
    omega

/-- Steps of one kind bring the same each. -/
theorem sum_map_ite (p : α → Bool) (q : Int) (l : List α) : (l.map fun a => if p a then q else 0).sum = l.countP p * q := by
  induction l with
  | nil => simp
  | cons a l ih =>
    rw [List.map_cons, List.sum_cons, ih, List.countP_cons]
    split <;> push_cast <;> ring

end Runs

end Ledger
