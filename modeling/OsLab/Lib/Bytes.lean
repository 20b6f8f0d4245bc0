import Mathlib.Data.Nat.Basic
import Mathlib.Tactic.Ring

/-!
# Byte-addressed memory with little-endian words

A memory is a function from addresses to bytes. `storeLE m a n v` stores the low `n` bytes of the number `v` at `a`, the
least significant first, and `loadLE m a n` reads them back. A store changes only the bytes it covers (`storeLE_frame`) and a
load depends only on the bytes it reads (`loadLE_congr`); everything else is derived from these two and the round trip
(`loadLE_storeLE`).
-/

/-- A memory: a byte at every address. -/
abbrev Mem := Nat → UInt8

namespace Mem

/-- Store the low `n` bytes of `v` at the addresses `a, ..., a + n - 1`. -/
def storeLE (m : Mem) (a n v : Nat) : Mem :=
  fun x => if a ≤ x ∧ x < a + n then UInt8.ofNat (v / 256 ^ (x - a)) else m x

/-- The number the `n` bytes at `a` spell. -/
def loadLE (m : Mem) (a : Nat) : Nat → Nat
  | 0 => 0
  | n + 1 => (m a).toNat + 256 * loadLE m (a + 1) n

/-- Store one byte. -/
def set (m : Mem) (a : Nat) (v : UInt8) : Mem := fun x => if x = a then v else m x

/-- Copy the `n` bytes of `src` at `b` to `a`. -/
def copy (m : Mem) (a : Nat) (src : Mem) (b n : Nat) : Mem := fun x => if a ≤ x ∧ x < a + n then src (b + (x - a)) else m x

/-- Set the `n` bytes at `a` to `v`. -/
def fill (m : Mem) (a n : Nat) (v : UInt8) : Mem := fun x => if a ≤ x ∧ x < a + n then v else m x

@[simp] theorem set_self (m : Mem) (a : Nat) (v : UInt8) : m.set a v a = v := by
  simp [set]

/-- A store leaves other bytes. -/
theorem set_of_ne (m : Mem) {a x : Nat} (v : UInt8) (h : x ≠ a) : m.set a v x = m x := by
  simp [set, h]

/-- What a copy writes. -/
theorem copy_inside (m src : Mem) (a b : Nat) {i n : Nat} (h : i < n) : m.copy a src b n (a + i) = src (b + i) := by
  unfold copy
  rw [if_pos (by omega), Nat.add_sub_cancel_left]

/-- What a copy leaves. -/
theorem copy_outside (m src : Mem) {a b n x : Nat} (h : ¬ (a ≤ x ∧ x < a + n)) : m.copy a src b n x = m x := if_neg h

@[simp] theorem copy_zero (m src : Mem) (a b : Nat) : m.copy a src b 0 = m := by
  funext x
  exact copy_outside m src (by omega)

/-- Two copies, one behind the other, are one. -/
@[simp] theorem copy_copy (m src : Mem) (a b n k : Nat) :
    (m.copy a src b n).copy (a + n) src (b + n) k = m.copy a src b (n + k) := by
  funext x
  unfold copy
  by_cases h1 : a ≤ x ∧ x < a + n
  · rw [if_neg (by omega), if_pos h1, if_pos (by omega)]
  · rw [if_neg h1]
    by_cases h2 : a + n ≤ x ∧ x < a + n + k
    · rw [if_pos h2, if_pos (by omega)]
      congr 1
      omega
    · rw [if_neg h2, if_neg (by omega)]

/-- What a fill writes. -/
theorem fill_inside (m : Mem) (a : Nat) (v : UInt8) {i n : Nat} (h : i < n) : m.fill a n v (a + i) = v := by
  unfold fill
  rw [if_pos (by omega)]

/-- What a fill leaves. -/
theorem fill_outside (m : Mem) {a n x : Nat} (v : UInt8) (h : ¬ (a ≤ x ∧ x < a + n)) : m.fill a n v x = m x := if_neg h

/-- A store leaves the bytes it does not cover. -/
theorem storeLE_frame (m : Mem) {a n x : Nat} (v : Nat) (h : x < a ∨ a + n ≤ x) : m.storeLE a n v x = m x := by
  unfold storeLE
  rw [if_neg]
  omega

/-- A load reads only the bytes it covers. -/
theorem loadLE_congr {m m' : Mem} {a n : Nat} (h : ∀ x, a ≤ x → x < a + n → m x = m' x) :
    m.loadLE a n = m'.loadLE a n := by
  induction n generalizing a with
  | zero => rfl
  | succ n ih =>
    simp only [loadLE]
    rw [h a (Nat.le_refl a) (by omega), ih (fun x h1 h2 => h x (by omega) (by omega))]

/-- A load that overlaps a store nowhere reads what it read before. -/
theorem loadLE_storeLE_disjoint (m : Mem) {a n b k : Nat} (v : Nat) (h : b + k ≤ a ∨ a + n ≤ b) :
    (m.storeLE a n v).loadLE b k = m.loadLE b k := by
  apply loadLE_congr
  intro x h1 h2
  exact storeLE_frame m v (by omega)

/-- Reading back a stored number gives its low bytes. -/
theorem loadLE_storeLE_mod (m : Mem) (a n v : Nat) : (m.storeLE a n v).loadLE a n = v % 256 ^ n := by
  induction n generalizing m a v with
  | zero => simp [loadLE, Nat.mod_one]
  | succ n ih =>
    have hrest : (m.storeLE a (n + 1) v).loadLE (a + 1) n = (m.storeLE (a + 1) n (v / 256)).loadLE (a + 1) n := by
      apply loadLE_congr
      intro x h1 h2
      simp only [storeLE]
      rw [if_pos (by omega), if_pos (by omega), show x - a = (x - (a + 1)) + 1 by omega, Nat.pow_succ',
        Nat.div_div_eq_div_mul]
    have hfirst : (m.storeLE a (n + 1) v a).toNat = v % 256 := by
      simp [storeLE, UInt8.toNat_ofNat']
    simp only [loadLE]
    rw [hrest, ih, hfirst, Nat.pow_succ', Nat.mod_mul]

/-- Reading back a stored number that fits gives the number. -/
theorem loadLE_storeLE (m : Mem) {a n v : Nat} (h : v < 256 ^ n) : (m.storeLE a n v).loadLE a n = v := by
  rw [loadLE_storeLE_mod, Nat.mod_eq_of_lt h]

/-- The number that `n` bytes spell fits in `n` bytes. -/
theorem loadLE_lt (m : Mem) (a n : Nat) : m.loadLE a n < 256 ^ n := by
  induction n generalizing a with
  | zero => simp [loadLE]
  | succ n ih =>
    have h := ih (a + 1)
    have hb : (m a).toNat < 256 := (m a).toNat_lt
    simp only [loadLE]
    rw [Nat.pow_succ']
    omega

end Mem
