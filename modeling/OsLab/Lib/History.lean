import Mathlib.Data.List.Basic

/-!
# Elements of a list and what comes before them

A log is a list to which elements are added at the end. A statement about every element and those before it is proved along the
way: it is kept when it holds of the element that is added.
-/

variable {α : Type*}

/-- An element of a list with one more at the end is the new one, or was there before. -/
theorem split_snoc {l pre post : List α} {x y : α} (h : l ++ [x] = pre ++ y :: post) :
    (pre = l ∧ y = x) ∨ ∃ post', l = pre ++ y :: post' := by
  rcases List.eq_nil_or_concat post with rfl | ⟨post', z, rfl⟩
  · obtain ⟨rfl, hx⟩ := List.append_inj' h rfl
    exact Or.inl ⟨rfl, (List.singleton_inj.1 hx).symm⟩
  · rw [List.concat_eq_append, ← List.cons_append, ← List.append_assoc] at h
    exact Or.inr ⟨post', (List.append_inj' h rfl).1⟩
