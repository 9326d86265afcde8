import Mathlib.Data.Rat.Floor

/-!
Long division of a number of two limbs, and the two directions in which a quotient is rounded.
-/
namespace Smos.Lib.LongDivision

variable {base d : ℕ}

/-- The remainder of the high limb is carried into the division of the low limb. -/
theorem div_two_limbs (base : ℕ) (hd : 0 < d) (high low : ℕ) :
    (high * base + low) / d = high / d * base + (high % d * base + low) / d := by
  have hsplit : high * base + low = high % d * base + low + d * (high / d * base) := by
    calc high * base + low
        = (high % d + d * (high / d)) * base + low := by rw [Nat.mod_add_div]
      _ = high % d * base + low + d * (high / d * base) := by ring
  rw [hsplit, Nat.add_mul_div_left _ _ hd, Nat.add_comm]

theorem mod_two_limbs (base high low : ℕ) :
    (high * base + low) % d = (high % d * base + low) % d := by
  simp only [Nat.add_mod, Nat.mul_mod, Nat.mod_mod]

/-- The quotient of the low limb is a limb. -/
theorem div_low_lt {high low : ℕ} (hhigh : high < d) (hlow : low < base) :
    (high * base + low) / d < base := by
  apply Nat.div_lt_of_lt_mul
  calc high * base + low
      < high * base + base := by omega
    _ = (high + 1) * base := by ring
    _ ≤ d * base := Nat.mul_le_mul_right base hhigh

/-- The quotient that is rounded up is one more if there is a remainder. -/
theorem ceil_div (a : ℕ) (hd : 0 < d) :
    ⌈(a : ℚ) / d⌉ = ((a / d + if a % d = 0 then 0 else 1 : ℕ) : ℤ) := by
  have hd' : (0 : ℚ) < d := Nat.cast_pos.mpr hd
  have hsplit := Nat.div_add_mod a d
  have hlt := Nat.mod_lt a hd
  rw [Int.ceil_eq_iff, lt_div_iff₀ hd', div_le_iff₀ hd', sub_mul, sub_lt_iff_lt_add]
  norm_cast
  rw [Nat.add_mul, Nat.mul_comm (a / d)]
  split
  case isTrue hzero => omega
  case isFalse hne => omega

end Smos.Lib.LongDivision
