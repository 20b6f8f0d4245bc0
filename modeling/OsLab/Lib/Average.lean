import Mathlib.Algebra.BigOperators.Group.List.Basic
import Mathlib.Algebra.BigOperators.Ring.List
import Mathlib.Algebra.Order.BigOperators.Group.List
import Mathlib.Tactic.Linarith
import Mathlib.Tactic.Ring

/-!
# Weighted averages of integers

Keys `k` with weights `w`: their average is `total / weight`, compared without a division by multiplying out. Somebody is at or
below the average, and measuring the keys from another point moves the total along.
-/

namespace Average

variable {ι : Type*} {l : List ι} {w k : ι → Int}

/-- The weights, added up. -/
def weight (l : List ι) (w : ι → Int) : Int := (l.map w).sum

/-- The weighted keys, added up. -/
def total (l : List ι) (w k : ι → Int) : Int := (l.map fun i => k i * w i).sum

@[simp] theorem weight_nil : weight [] w = 0 := rfl

@[simp] theorem total_nil : total [] w k = 0 := rfl

@[simp] theorem weight_cons (i : ι) : weight (i :: l) w = w i + weight l w := by simp [weight]

@[simp] theorem total_cons (i : ι) : total (i :: l) w k = k i * w i + total l w k := by simp [total]

/-- Weights are positive, and so is their sum. -/
theorem weight_pos (hl : l ≠ []) (hw : ∀ i ∈ l, 0 < w i) : 0 < weight l w := by
  apply List.sum_pos
  · simpa using hw
  · simpa using hl

/-- The empty sum included. -/
theorem weight_nonneg (hw : ∀ i ∈ l, 0 < w i) : 0 ≤ weight l w := by
  apply List.sum_nonneg
  simpa using fun i hi => (hw i hi).le

/-- The keys measured from another point. -/
theorem total_sub (d : Int) : total l w (fun i => k i - d) = total l w k - d * weight l w := by
  induction l with
  | nil => simp
  | cons i l ih =>
    rw [total_cons, total_cons, weight_cons, ih]
    ring

/-- Somebody is at or below the average. -/
theorem exists_le (hl : l ≠ []) (hw : ∀ i ∈ l, 0 < w i) : ∃ i ∈ l, k i * weight l w ≤ total l w k := by
  -- weighted once more, both sides add up to the same
  have hsum : (l.map fun i => k i * w i * weight l w).sum ≤ (l.map fun i => w i * total l w k).sum := by
    rw [List.sum_map_mul_right, List.sum_map_mul_right]
    exact le_of_eq (mul_comm _ _)
  obtain ⟨i, hi, hle⟩ := List.exists_le_of_sum_le hl _ _ hsum
  refine ⟨i, hi, le_of_mul_le_mul_left ?_ (hw i hi)⟩
  linarith [mul_right_comm (k i) (w i) (weight l w), mul_comm (k i * weight l w) (w i)]

/-- A bound of the keys bounds the weighted sum. -/
theorem total_le {hi : Int} (hw : ∀ i ∈ l, 0 < w i) (hk : ∀ i ∈ l, k i ≤ hi) : total l w k ≤ hi * weight l w := by
  induction l with
  | nil => simp
  | cons i l ih =>
    have hi' := mul_le_mul_of_nonneg_right (hk i List.mem_cons_self) (hw i List.mem_cons_self).le
    have hl := ih (fun j hj => hw j (List.mem_cons_of_mem i hj)) fun j hj => hk j (List.mem_cons_of_mem i hj)
    rw [total_cons, weight_cons, mul_add]
    exact add_le_add hi' hl

/-- The average is between the bounds of the keys. -/
theorem floor_bounds {lo hi : Int} (hl : l ≠ []) (hw : ∀ i ∈ l, 0 < w i) (hlo : ∀ i ∈ l, lo ≤ k i) (hhi : ∀ i ∈ l, k i ≤ hi) :
    lo ≤ total l w k / weight l w ∧ total l w k / weight l w ≤ hi := by
  have hpos := weight_pos hl hw
  obtain ⟨i, hi, hle⟩ := exists_le hl hw
  constructor
  · exact (hlo i hi).trans ((Int.le_ediv_iff_mul_le hpos).2 hle)
  · rw [← Int.lt_add_one_iff, Int.ediv_lt_iff_lt_mul hpos]
    have := total_le hw hhi
    nlinarith

/-- A division that truncates gives the floor, when a negative numerator is lowered before. -/
theorem tdiv_eq_floor (a : Int) {b : Int} (hb : 0 < b) : (if a < 0 then a - (b - 1) else a).tdiv b = a / b := by
  split
  · have hneg : a - (b - 1) = -(b - 1 - a) := by ring
    rw [hneg, Int.neg_tdiv, Int.tdiv_eq_ediv_of_nonneg (by omega)]
    have h1 := Int.mul_ediv_add_emod a b
    have h2 := Int.emod_nonneg a hb.ne'
    have h3 := Int.emod_lt_of_pos a hb
    have hq : (b - 1 - a) / b = -(a / b) := by
      rw [Int.ediv_eq_iff_of_pos hb]
      constructor <;> nlinarith
    rw [hq, neg_neg]
  · rw [Int.tdiv_eq_ediv_of_nonneg (by omega)]

/-- An entity of weight `w` joins others of weight `W`, whose average is a fraction `s` of a unit above a point. It is put at the
distance that makes up for the average it drags along, rounded to zero. Its distance from the new average is then the lag it was to
have, or one less. -/
theorem lag_placed {W w s lag : Int} (hW : 0 < W) (hw : 0 < w) (hs : 0 ≤ s) (hsW : s < W) :
    (0 ≤ lag → (s + (lag * (W + w)).tdiv W * W) / (W + w) = lag ∨ (s + (lag * (W + w)).tdiv W * W) / (W + w) = lag - 1) ∧
      (lag ≤ 0 → (s + (lag * (W + w)).tdiv W * W) / (W + w) = lag ∨ (s + (lag * (W + w)).tdiv W * W) / (W + w) = lag + 1) := by
  have hdiv := Int.mul_tdiv_add_tmod (lag * (W + w)) W
  have hsum : s + (lag * (W + w)).tdiv W * W = (s - (lag * (W + w)).tmod W) + lag * (W + w) := by
    rw [mul_comm ((lag * (W + w)).tdiv W) W]
    omega
  rw [hsum, Int.add_mul_ediv_right _ _ (by omega)]
  have hlt := Int.tmod_lt_of_pos (lag * (W + w)) hW
  have hgt := Int.lt_tmod_of_pos (lag * (W + w)) hW
  constructor
  · intro hlag
    have hnonneg : 0 ≤ (lag * (W + w)).tmod W := Int.tmod_nonneg W (mul_nonneg hlag (by omega))
    have h0 : -1 ≤ (s - (lag * (W + w)).tmod W) / (W + w) := (Int.le_ediv_iff_mul_le (by omega)).2 (by omega)
    have h1 : (s - (lag * (W + w)).tmod W) / (W + w) < 1 := (Int.ediv_lt_iff_lt_mul (by omega)).2 (by omega)
    omega
  · intro hlag
    have hnonpos : (lag * (W + w)).tmod W ≤ 0 := by
      have := Int.tmod_nonneg W (a := -(lag * (W + w))) (by nlinarith)
      rw [Int.neg_tmod] at this
      omega
    have h0 : 0 ≤ (s - (lag * (W + w)).tmod W) / (W + w) := (Int.le_ediv_iff_mul_le (by omega)).2 (by omega)
    have h1 : (s - (lag * (W + w)).tmod W) / (W + w) < 2 := (Int.ediv_lt_iff_lt_mul (by omega)).2 (by omega)
    omega

end Average
