import Mathlib.Data.BitVec

/-!
# Numbers that wrap around

A counter that wraps around is compared by the sign of a difference. That is an order only for numbers that are close together:
measured from a common point `z` (`key`), all within a quarter of the range (`Near`). There the comparison is that of the keys.
-/

namespace Serial

variable {w : Nat} {a b z : BitVec w}

/-- How far `a` is from `z`, behind it when negative. -/
def key (z a : BitVec w) : Int := (a - z).toInt

/-- `a` comes before `b`. -/
def Before (a b : BitVec w) : Prop := key b a < 0

instance : Decidable (Before a b) := inferInstanceAs (Decidable (key b a < 0))

/-- `a` is within a quarter of the range from `z`. -/
def Near (z a : BitVec w) : Prop := -2 ^ w ≤ 4 * key z a ∧ 4 * key z a < 2 ^ w

instance : Decidable (Near z a) := inferInstanceAs (Decidable (_ ∧ _))

/-- A sum that does not overflow. -/
theorem toInt_add_of_fits {x y : BitVec w} (h0 : -2 ^ w ≤ 2 * (x.toInt + y.toInt)) (h : 2 * (x.toInt + y.toInt) < 2 ^ w) :
    (x + y).toInt = x.toInt + y.toInt := by
  rw [BitVec.toInt_add]
  apply Int.bmod_eq_of_le_mul_two <;> push_cast <;> omega

/-- A difference that does not overflow. -/
theorem toInt_sub_of_fits {x y : BitVec w} (h0 : -2 ^ w ≤ 2 * (x.toInt - y.toInt)) (h : 2 * (x.toInt - y.toInt) < 2 ^ w) :
    (x - y).toInt = x.toInt - y.toInt := by
  rw [BitVec.toInt_sub]
  apply Int.bmod_eq_of_le_mul_two <;> push_cast <;> omega

/-- A negation that does not overflow. -/
theorem toInt_neg_of_fits {x : BitVec w} (h : -2 ^ w < 2 * x.toInt) : (-x).toInt = -x.toInt := by
  have hlt : 2 * x.toInt < 2 ^ w := by
    have := @BitVec.two_mul_toInt_lt w x
    omega
  rw [BitVec.toInt_neg]
  apply Int.bmod_eq_of_le_mul_two <;> push_cast <;> omega

/-- Of two numbers near `z`, the distance is the difference of their keys. -/
theorem key_eq_sub (ha : Near z a) (hb : Near z b) : key b a = key z a - key z b := by
  have he : a - b = (a - z) - (b - z) := (sub_sub_sub_cancel_right a b z).symm
  obtain ⟨ha0, ha⟩ := ha
  obtain ⟨hb0, hb⟩ := hb
  unfold key at *
  rw [he]
  apply toInt_sub_of_fits <;> omega

/-- Of two numbers near `z`, the one with the smaller key comes before. -/
theorem before_iff (ha : Near z a) (hb : Near z b) : Before a b ↔ key z a < key z b := by
  unfold Before
  rw [key_eq_sub ha hb]
  omega

end Serial
