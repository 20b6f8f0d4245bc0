import Mathlib.Algebra.Group.Int.Defs
import Mathlib.Algebra.Group.Nat.Defs
import Mathlib.Data.Int.Basic

/-!
# 64-bit machine words

Unsigned words are natural numbers below `2 ^ 64`, signed words integers. The operations wrap as the machine's do; the lemmas
say when they do not.
-/

namespace Word

/-- Unsigned addition. -/
def add (a b : Nat) : Nat := (a + b) % 2 ^ 64

/-- Unsigned subtraction. -/
def sub (a b : Nat) : Nat := (a + (2 ^ 64 - b % 2 ^ 64)) % 2 ^ 64

/-- Unsigned multiplication. -/
def mul (a b : Nat) : Nat := (a * b) % 2 ^ 64

/-- The signed reading of an unsigned word. -/
def toInt (a : Nat) : Int := if a < 2 ^ 63 then (a : Int) else (a : Int) - 2 ^ 64

/-- Signed addition. -/
def addInt (a b : Int) : Int := toInt ((a + b) % 2 ^ 64).toNat

/-- The cast of an unsigned word to a signed 32-bit integer. -/
def toInt32 (a : Nat) : Int := if a % 2 ^ 32 < 2 ^ 31 then ((a % 2 ^ 32 : Nat) : Int) else ((a % 2 ^ 32 : Nat) : Int) - 2 ^ 32

/-- A sum that does not wrap. -/
theorem add_of_lt {a b : Nat} (h : a + b < 2 ^ 64) : add a b = a + b := Nat.mod_eq_of_lt h

/-- A difference that does not wrap. -/
theorem sub_of_le {a b : Nat} (h : b ≤ a) (ha : a < 2 ^ 64) : sub a b = a - b := by
  unfold sub
  omega

/-- A product that does not wrap. -/
theorem mul_of_lt {a b : Nat} (h : a * b < 2 ^ 64) : mul a b = a * b := Nat.mod_eq_of_lt h

/-- A number below the sign bit. -/
theorem toInt_of_lt {a : Nat} (h : a < 2 ^ 63) : toInt a = a := if_pos h

/-- A signed sum that does not overflow. -/
theorem addInt_of_fits {a b : Int} (h0 : -2 ^ 63 ≤ a + b) (h : a + b < 2 ^ 63) : addInt a b = a + b := by
  unfold addInt toInt
  omega

/-- One that is not negative. -/
theorem addInt_of_lt {a b : Int} (h0 : 0 ≤ a + b) (h : a + b < 2 ^ 63) : addInt a b = a + b :=
  addInt_of_fits (by omega) h

/-- A number of 32 bits below the sign bit. -/
theorem toInt32_of_lt {a : Nat} (h : a < 2 ^ 31) : toInt32 a = a := by
  unfold toInt32
  omega

end Word
