import Mathlib.Data.Nat.Basic

/-!
Counters of a fixed width that wrap around, and credit given by such counters.

A running count is kept modulo `2 ^ w`.  The difference of two counters is the difference of the
counts they stand for whenever the counts are less than `2 ^ w` apart.
-/
namespace Smos.Lib.Counter

open BitVec

variable {w : ℕ}

def counter (w n : ℕ) : BitVec w := BitVec.ofNat w n

def saturatingSub (a b : BitVec w) : BitVec w := if b ≤ a then a - b else 0

theorem toNat_saturatingSub (a b : BitVec w) :
    (saturatingSub a b).toNat = a.toNat - b.toNat := by
  unfold saturatingSub
  split
  case isTrue h => exact toNat_sub_of_le h
  case isFalse h =>
    rw [le_def] at h
    simp only [ofNat_eq_ofNat, toNat_ofNat, Nat.zero_mod]
    omega

theorem counter_add (n : ℕ) (k : BitVec w) : counter w n + k = counter w (n + k.toNat) := by
  apply eq_of_toNat_eq
  rw [counter, counter, toNat_add, toNat_ofNat, toNat_ofNat, Nat.mod_add_mod]

theorem counter_sub {n k : ℕ} (h : k ≤ n) : counter w n - counter w k = counter w (n - k) := by
  have hsplit : counter w n = counter w (n - k) + counter w k := by
    apply eq_of_toNat_eq
    rw [counter, counter, counter, toNat_add, toNat_ofNat, toNat_ofNat,
      toNat_ofNat, ← Nat.add_mod, Nat.sub_add_cancel h]
  rw [hsplit, add_sub_cancel]

/-- The credit that is left of `alloc` when `n` was used and `k` of it given back. -/
theorem toNat_credit {alloc : BitVec w} {n k : ℕ} (h : k ≤ n) (hused : n - k ≤ alloc.toNat) :
    (saturatingSub alloc (counter w n - counter w k)).toNat = alloc.toNat - (n - k) := by
  rw [toNat_saturatingSub, counter_sub h, counter, toNat_ofNat,
    Nat.mod_eq_of_lt (Nat.lt_of_le_of_lt hused alloc.isLt)]

end Smos.Lib.Counter
