import Mathlib.Data.List.Infix

/-!
# Runs of a labelled step relation

A run is a finite sequence of labelled steps, written with the last step last. `Run.invariant` is the induction every
statement about whole runs goes through: what holds of the empty run and is kept by one step more holds of every run. The
invariant may speak of the labels, so that a state can be related to its history.
-/

variable {σ α : Type*}

/-- `Run step s as t`: from `s`, the steps labelled `as`, in this order, lead to `t`. -/
inductive Run (step : σ → α → σ → Prop) : σ → List α → σ → Prop where
  | nil (s : σ) : Run step s [] s
  | snoc {s t u : σ} {as : List α} {a : α} : Run step s as t → step t a u → Run step s (as ++ [a]) u

namespace Run

variable {step : σ → α → σ → Prop}

/-- What holds of the empty run and is kept by one more step holds of every run. -/
theorem invariant {P : List α → σ → Prop} {s : σ} (h0 : P [] s)
    (hs : ∀ as t a u, Run step s as t → P as t → step t a u → P (as ++ [a]) u) {as : List α} {t : σ}
    (h : Run step s as t) : P as t := by
  induction h with
  | nil => exact h0
  | snoc hr ha ih => exact hs _ _ _ _ hr ih ha

/-- A single step is a run. -/
theorem single {s t : σ} {a : α} (h : step s a t) : Run step s [a] t :=
  Run.snoc (Run.nil s) h

/-- Runs compose. -/
theorem append {s t u : σ} {as bs : List α} (h : Run step s as t) (h' : Run step t bs u) : Run step s (as ++ bs) u := by
  induction h' with
  | nil => rw [List.append_nil]; exact h
  | snoc _ ha ih => rw [← List.append_assoc]; exact Run.snoc ih ha

/-- A run over no label goes nowhere. -/
theorem eq_of_nil {s t : σ} (h : Run step s [] t) : s = t := by
  generalize he : ([] : List α) = as at h
  cases h with
  | nil => rfl
  | snoc _ _ => simp at he

/-- The last step of a run. -/
theorem of_snoc {s u : σ} {as : List α} {a : α} (h : Run step s (as ++ [a]) u) : ∃ t, Run step s as t ∧ step t a u := by
  generalize he : as ++ [a] = l at h
  cases h with
  | nil => simp at he
  | snoc hr ha =>
    obtain ⟨rfl, he⟩ := List.append_inj' he rfl
    obtain rfl : a = _ := by simpa using he
    exact ⟨_, hr, ha⟩

/-- A run over labels in two parts is a run over the first and then one over the second. -/
theorem of_append {s u : σ} {as bs : List α} (h : Run step s (as ++ bs) u) : ∃ t, Run step s as t ∧ Run step t bs u := by
  induction bs using List.reverseRecOn generalizing u with
  | nil =>
    rw [List.append_nil] at h
    exact ⟨u, h, Run.nil u⟩
  | append_singleton bs b ih =>
    rw [← List.append_assoc] at h
    obtain ⟨v, hv, hb⟩ := h.of_snoc
    obtain ⟨t, ht, hbs⟩ := ih hv
    exact ⟨t, ht, hbs.snoc hb⟩

/-- The first step of a run. -/
theorem of_cons {s u : σ} {a : α} {as : List α} (h : Run step s (a :: as) u) : ∃ t, step s a t ∧ Run step t as u := by
  rw [← List.singleton_append] at h
  obtain ⟨t, ha, has⟩ := h.of_append
  rw [← List.nil_append [a]] at ha
  obtain ⟨s', hs, ha⟩ := ha.of_snoc
  obtain rfl := hs.eq_of_nil
  exact ⟨t, ha, has⟩

/-- A run of fewer steps is a run of more. -/
theorem mono {step' : σ → α → σ → Prop} (hi : ∀ s a t, step s a t → step' s a t) {s t : σ} {as : List α}
    (h : Run step s as t) : Run step' s as t := by
  induction h with
  | nil => exact Run.nil s
  | snoc _ ha ih => exact Run.snoc ih (hi _ _ _ ha)

/-- When a label leads to one state only, so do the labels of a run. -/
theorem eq_of_labels (hd : ∀ s a t u, step s a t → step s a u → t = u) {s t u : σ} {as : List α} (h : Run step s as t)
    (h' : Run step s as u) : t = u := by
  induction h generalizing u with
  | nil => exact h'.eq_of_nil
  | snoc _ ha ih =>
    obtain ⟨t', hr, ha'⟩ := h'.of_snoc
    obtain rfl := ih hr
    exact hd _ _ _ _ ha ha'

/-- The property holds in every state on the way, the two at the ends with them. -/
def Along (step : σ → α → σ → Prop) (P : σ → Prop) (s : σ) (as : List α) (t : σ) : Prop :=
  ∀ bs cs u, as = bs ++ cs → Run step s bs u → Run step u cs t → P u

/-- The empty run. -/
theorem Along.nil {P : σ → Prop} {s t : σ} (hs : P s) : Along step P s [] t := by
  intro bs cs u he hr _
  obtain ⟨rfl, _⟩ := List.append_eq_nil_iff.1 he.symm
  exact hr.eq_of_nil ▸ hs

/-- One step before, when its label leads to one state only. -/
theorem Along.cons {P : σ → Prop} {s s' t : σ} {a : α} {as : List α} (hd : ∀ u, step s a u → u = s') (hs : P s)
    (h : Along step P s' as t) : Along step P s (a :: as) t := by
  intro bs cs u he hr ht
  cases bs with
  | nil => exact hr.eq_of_nil ▸ hs
  | cons b bs =>
    obtain ⟨rfl, rfl⟩ := List.cons.inj he
    obtain ⟨v, hv, hr⟩ := hr.of_cons
    obtain rfl := hd v hv
    exact h bs cs u rfl hr ht

/-- The state a label of a run leads on from, which is on the way. -/
theorem of_mem {s t : σ} {as : List α} {a : α} (h : Run step s as t) (ha : a ∈ as) :
    ∃ bs cs u v, as = bs ++ a :: cs ∧ Run step s bs u ∧ step u a v ∧ Run step u (a :: cs) t := by
  obtain ⟨bs, cs, rfl⟩ := List.append_of_mem ha
  obtain ⟨u, h1, h2⟩ := h.of_append
  obtain ⟨v, hv, _⟩ := h2.of_cons
  exact ⟨bs, cs, u, v, rfl, h1, hv, h2⟩

end Run
