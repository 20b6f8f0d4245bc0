import Mathlib.Data.Int.Basic

/-!
# Comparing strings in arrays

`strcmp` as the machine runs it, over the bytes of two arrays. On arrays with a NUL in them it does not read past an end, and it
returns 0 exactly when the strings up to the NULs are the same.
-/

/-- `strcmp`: the difference of the first two bytes that differ, or 0 at a NUL in both. No result when it reads past an end. -/
def strcmp : List UInt8 → List UInt8 → Option Int
  | a :: as, b :: bs =>
    if a ≠ b then some ((a.toNat : Int) - (b.toNat : Int))
    else if a = 0 then some 0
    else strcmp as bs
  | _, _ => none

/-- The difference of two bytes is 0 when they are the same, and only then. -/
theorem UInt8.sub_toNat_ne_zero {a b : UInt8} (h : a ≠ b) : (a.toNat : Int) - (b.toNat : Int) ≠ 0 := by
  intro he
  exact h (UInt8.toNat_inj.1 (by omega))

/-- The first difference decides. -/
theorem strcmp_of_ne {a b : UInt8} (as bs : List UInt8) (h : a ≠ b) :
    strcmp (a :: as) (b :: bs) = some ((a.toNat : Int) - (b.toNat : Int)) := if_pos h

/-- An array with a NUL against a string with its NUL: there is a result, and it is 0 exactly for the same string. -/
theorem strcmp_terminated {as bs : List UInt8} (ha : (0 : UInt8) ∈ as) (hb : (0 : UInt8) ∉ bs) :
    ∃ d, strcmp as (bs ++ [0]) = some d ∧ (d = 0 ↔ as.takeWhile (· ≠ 0) = bs) := by
  induction as generalizing bs with
  | nil => cases ha
  | cons a as ih =>
    cases bs with
    | nil =>
      by_cases h0 : a = 0
      · exact ⟨0, by simp [strcmp, h0], by simp [h0]⟩
      · exact ⟨_, strcmp_of_ne as [] h0, iff_of_false (UInt8.sub_toNat_ne_zero h0) (by simp [h0])⟩
    | cons b bs =>
      have hb0 : b ≠ 0 := fun h => hb (List.mem_cons.2 (Or.inl h.symm))
      have hbs : (0 : UInt8) ∉ bs := fun h => hb (List.mem_cons_of_mem _ h)
      by_cases hab : a = b
      · -- the bytes agree and are no NUL, so the array has its NUL further on
        subst hab
        obtain ⟨d, hd, hiff⟩ := ih ((List.mem_cons.1 ha).resolve_left (Ne.symm hb0)) hbs
        refine ⟨d, by simp [strcmp, hb0, hd], hiff.trans ?_⟩
        rw [List.takeWhile_cons_of_pos (by simpa using hb0)]
        exact ⟨congrArg _, fun h => (List.cons.inj h).2⟩
      · rw [List.cons_append, strcmp_of_ne as (bs ++ [0]) hab]
        refine ⟨_, rfl, iff_of_false (UInt8.sub_toNat_ne_zero hab) ?_⟩
        by_cases h0 : a = 0
        · simp [h0]
        · simp [h0, hab]
