import Smos.Affine.Ratio
import Smos.Lib.LongDivision

/-!
`Ratio::Scale` computes the product, rounded and clamped, and no intermediate value wraps around.
-/
namespace Smos.Affine

open Lib.LongDivision UInt64

section Exact

/-- What the low 32 bits and the rest of a number are. -/
theorem and_low32 (n : ℕ) : n &&& 0xffffffff = n % 2 ^ 32 :=
  Nat.and_two_pow_sub_one_eq_mod n 32

theorem shiftLeft_or (high : ℕ) {low : ℕ} (h : low < 2 ^ 32) :
    high <<< 32 ||| low = high * 2 ^ 32 + low := by
  rw [← Nat.shiftLeft_add_eq_or_of_lt h, Nat.shiftLeft_eq]

variable (value numerator denominator : ℕ)

theorem limbs_high :
    (limbs value numerator denominator).high =
      numerator * (value / 2 ^ 32) + numerator * (value % 2 ^ 32) / 2 ^ 32 := by
  simp only [limbs, and_low32, Nat.shiftRight_eq_div_pow]

theorem limbs_low :
    (limbs value numerator denominator).low = numerator * (value % 2 ^ 32) % 2 ^ 32 := by
  simp only [limbs, and_low32]

/-- The limbs of the product. -/
theorem limbs_product :
    (limbs value numerator denominator).high * 2 ^ 32 + (limbs value numerator denominator).low =
      value * numerator := by
  rw [limbs_high, limbs_low]
  have hvalue : value % 2 ^ 32 + 2 ^ 32 * (value / 2 ^ 32) = value := Nat.mod_add_div value _
  have hlow := Nat.mod_add_div (numerator * (value % 2 ^ 32)) (2 ^ 32)
  calc (numerator * (value / 2 ^ 32) + numerator * (value % 2 ^ 32) / 2 ^ 32) * 2 ^ 32 +
        numerator * (value % 2 ^ 32) % 2 ^ 32
      = numerator * (2 ^ 32 * (value / 2 ^ 32)) + (numerator * (value % 2 ^ 32) % 2 ^ 32 +
        2 ^ 32 * (numerator * (value % 2 ^ 32) / 2 ^ 32)) := by ring
    _ = numerator * (value % 2 ^ 32 + 2 ^ 32 * (value / 2 ^ 32)) := by rw [hlow]; ring
    _ = value * numerator := by rw [hvalue, Nat.mul_comm]

theorem limbs_low_lt : (limbs value numerator denominator).low < 2 ^ 32 := by
  rw [limbs_low]
  exact Nat.mod_lt _ (by norm_num)

theorem limbs_lowAll :
    (limbs value numerator denominator).lowAll =
      (limbs value numerator denominator).high % denominator * 2 ^ 32 +
        (limbs value numerator denominator).low := by
  have h := shiftLeft_or ((limbs value numerator denominator).high % denominator)
    (limbs_low_lt value numerator denominator)
  rw [Nat.or_comm] at h
  exact h

variable {denominator}

theorem limbs_lowQ_lt (hd : 0 < denominator) :
    (limbs value numerator denominator).lowQ < 2 ^ 32 := by
  change (limbs value numerator denominator).lowAll / denominator < 2 ^ 32
  rw [limbs_lowAll]
  exact div_low_lt (Nat.mod_lt _ hd) (limbs_low_lt value numerator denominator)

/-- The quotient and the remainder of the product. -/
theorem limbs_result (hd : 0 < denominator) :
    (limbs value numerator denominator).result = value * numerator / denominator := by
  have hlimbs := div_two_limbs (2 ^ 32) hd (limbs value numerator denominator).high
    (limbs value numerator denominator).low
  rw [limbs_product, ← limbs_lowAll] at hlimbs
  rw [Limbs.result, shiftLeft_or _ (limbs_lowQ_lt value numerator hd), hlimbs]
  rfl

theorem limbs_lowR :
    (limbs value numerator denominator).lowR = value * numerator % denominator := by
  change (limbs value numerator denominator).lowAll % denominator = _
  rw [limbs_lowAll, ← mod_two_limbs, limbs_product]

theorem limbs_high_lt {value numerator : ℕ} (denominator : ℕ) (hv : value < 2 ^ 64)
    (hn : numerator < 2 ^ 32) : (limbs value numerator denominator).high < 2 ^ 64 := by
  have hproduct := limbs_product value numerator denominator
  have hlt : value * numerator < 2 ^ 64 * 2 ^ 32 := Nat.mul_lt_mul'' hv hn
  omega

end Exact

section Machine

theorem toNat_mul {a b : UInt64} (h : a.toNat * b.toNat < 2 ^ 64) :
    (a * b).toNat = a.toNat * b.toNat := by
  rw [UInt64.toNat_mul, Nat.mod_eq_of_lt h]

theorem toNat_add {a b : UInt64} (h : a.toNat + b.toNat < 2 ^ 64) :
    (a + b).toNat = a.toNat + b.toNat := by
  rw [UInt64.toNat_add, Nat.mod_eq_of_lt h]

theorem toNat_shiftRight32 (a : UInt64) : (a >>> 32).toNat = a.toNat >>> 32 :=
  UInt64.toNat_shiftRight a 32

theorem toNat_shiftLeft32 {a : UInt64} (h : a.toNat < 2 ^ 32) :
    (a <<< 32).toNat = a.toNat <<< 32 := by
  have hlt : a.toNat <<< 32 < 2 ^ 64 := by
    omega
  have hmod := UInt64.toNat_shiftLeft a 32
  rw [show (32 : UInt64).toNat % 64 = 32 from rfl, Nat.mod_eq_of_lt hlt] at hmod
  exact hmod

variable (value : UInt64) (numerator denominator : UInt32)

theorem toNat_highProduct :
    (numerator.toUInt64 * (value >>> 32)).toNat = numerator.toNat * value.toNat >>> 32 := by
  have hv : value.toNat < 2 ^ 64 := value.toNat_lt
  have hlt : numerator.toNat * (value.toNat / 2 ^ 32) < 2 ^ 32 * 2 ^ 32 :=
    Nat.mul_lt_mul'' numerator.toNat_lt (by omega)
  rw [toNat_mul, toNat_shiftRight32, UInt32.toNat_toUInt64]
  rw [toNat_shiftRight32, UInt32.toNat_toUInt64, Nat.shiftRight_eq_div_pow]
  omega

theorem toNat_lowProduct :
    (numerator.toUInt64 * (value &&& 0xffffffff)).toNat =
      numerator.toNat * (value.toNat &&& 0xffffffff) := by
  have hlt : numerator.toNat * (value.toNat % 2 ^ 32) < 2 ^ 32 * 2 ^ 32 :=
    Nat.mul_lt_mul'' numerator.toNat_lt (Nat.mod_lt _ (by norm_num))
  rw [toNat_mul]
  · rfl
  · rw [UInt64.toNat_and]
    exact (and_low32 value.toNat).symm ▸ hlt

theorem toNat_high :
    (numerator.toUInt64 * (value >>> 32) +
      (numerator.toUInt64 * (value &&& 0xffffffff)) >>> 32).toNat =
      numerator.toNat * value.toNat >>> 32 +
        (numerator.toNat * (value.toNat &&& 0xffffffff)) >>> 32 := by
  have hlt := limbs_high_lt 1 value.toNat_lt numerator.toNat_lt
  rw [limbs_high] at hlt
  rw [toNat_add, toNat_shiftRight32, toNat_highProduct, toNat_lowProduct]
  rw [toNat_shiftRight32, toNat_highProduct, toNat_lowProduct, and_low32,
    Nat.shiftRight_eq_div_pow, Nat.shiftRight_eq_div_pow]
  exact hlt

variable {denominator}

theorem toNat_pos (hd : denominator ≠ 0) : 0 < denominator.toNat := by
  rw [Nat.pos_iff_ne_zero]
  exact fun h => hd (UInt32.toNat_inj.mp h)

/-- A remainder fits above the low limb. -/
theorem toNat_carry (hd : denominator ≠ 0) (a : UInt64) :
    ((a % denominator.toUInt64) <<< 32).toNat = (a.toNat % denominator.toNat) <<< 32 := by
  have hlt := Nat.mod_lt a.toNat (toNat_pos hd)
  have hd32 : denominator.toNat < 2 ^ 32 := denominator.toNat_lt
  rw [toNat_shiftLeft32, UInt64.toNat_mod, UInt32.toNat_toUInt64]
  rw [UInt64.toNat_mod, UInt32.toNat_toUInt64]
  omega

/-- None of the operations of the long division wraps around. -/
theorem map_toNat_limbs (hd : denominator ≠ 0) :
    (limbs value numerator.toUInt64 denominator.toUInt64).map toNat =
      limbs value.toNat numerator.toNat denominator.toNat := by
  simp only [Limbs.map, limbs, UInt64.toNat_div, UInt64.toNat_mod, UInt64.toNat_and,
    UInt64.toNat_or, UInt32.toNat_toUInt64, toNat_carry hd, toNat_high,
    toNat_highProduct, toNat_lowProduct]
  rfl

variable {value numerator}

/-- The quotient fits in a word if its high limb is within a limit. -/
theorem toNat_result {limit : UInt64} (hd : denominator ≠ 0)
    (hq : (limbs value numerator.toUInt64 denominator.toUInt64).highQ ≤ limit >>> 32) :
    (limbs value numerator.toUInt64 denominator.toUInt64).result.toNat =
      (limbs value.toNat numerator.toNat denominator.toNat).result := by
  have hmap := map_toNat_limbs value numerator hd
  have hlt : (limbs value numerator.toUInt64 denominator.toUInt64).highQ.toNat < 2 ^ 32 := by
    rw [le_iff_toNat_le, toNat_shiftRight32] at hq
    have := limit.toNat_lt
    omega
  rw [Limbs.result, UInt64.toNat_or, toNat_shiftLeft32 hlt, ← hmap]
  rfl

def roundedDiv (direction : Direction) (a d : ℕ) : ℕ :=
  a / d + if direction = .up ∧ a % d ≠ 0 then 1 else 0

variable (value numerator)

/-- `ScaleUInt64` gives the rounded quotient or the limit, whichever is less. -/
theorem toNat_scaleUInt64 (hd : denominator ≠ 0) (roundDir : Direction) (limit : UInt64) :
    (scaleUInt64 roundDir limit value numerator denominator).toNat =
      min (roundedDiv roundDir (value.toNat * numerator.toNat) denominator.toNat)
        limit.toNat := by
  have hmap := map_toNat_limbs value numerator hd
  have hlimit := limit.toNat_lt
  have hresult := limbs_result value.toNat numerator.toNat (toNat_pos hd)
  have hlowR : (limbs value numerator.toUInt64 denominator.toUInt64).lowR.toNat =
      value.toNat * numerator.toNat % denominator.toNat := by
    rw [← limbs_lowR, ← hmap]
    rfl
  unfold scaleUInt64 roundedDiv
  dsimp only
  split
  case isTrue hover =>
    -- the high limb of the quotient alone is over the limit
    have hhighQ : (limbs value numerator.toUInt64 denominator.toUInt64).highQ.toNat =
        (limbs value.toNat numerator.toNat denominator.toNat).highQ := by
      rw [← hmap]
      rfl
    rw [gt_iff_lt, lt_iff_toNat_lt, toNat_shiftRight32] at hover
    rw [Limbs.result, shiftLeft_or _ (limbs_lowQ_lt _ _ (toNat_pos hd))] at hresult
    omega
  case isFalse hunder =>
    have hword := toNat_result hd (UInt64.not_lt.mp hunder)
    split
    case isTrue hge =>
      rw [ge_iff_le, le_iff_toNat_le] at hge
      omega
    case isFalse hlt =>
      rw [ge_iff_le, le_iff_toNat_le] at hlt
      have hzero : (limbs value numerator.toUInt64 denominator.toUInt64).lowR ≠ 0 ↔
          value.toNat * numerator.toNat % denominator.toNat ≠ 0 := by
        rw [← hlowR, ne_eq, ← UInt64.toNat_inj]
        rfl
      simp only [hzero]
      split
      case isTrue =>
        rw [toNat_add (by rw [toNat_one]; omega), toNat_one]
        omega
      case isFalse =>
        omega

end Machine

section Scale

def Round.apply : Round → ℚ → ℤ
  | .down, q => ⌊q⌋
  | .up, q => ⌈q⌉
  | .towardsZero, q => if 0 ≤ q then ⌊q⌋ else ⌈q⌉
  | .awayFromZero, q => if 0 ≤ q then ⌈q⌉ else ⌊q⌋

def clamp (n : ℤ) : ℤ := max (-2 ^ 63) (min n (2 ^ 63 - 1))

def magnitude (value : Int64) : UInt64 := if 0 ≤ value then value.toUInt64 else -value.toUInt64

def limitOf (value : Int64) : UInt64 :=
  if 0 ≤ value then Int64.maxValue.toUInt64 else Int64.minValue.toUInt64

theorem toInt_nonneg_iff (value : Int64) : 0 ≤ value ↔ 0 ≤ value.toInt :=
  Int64.le_iff_toInt_le

theorem toNat_magnitude (value : Int64) : (magnitude value).toNat = value.toInt.natAbs := by
  have hcond := BitVec.toInt_eq_toNat_cond value.toBitVec
  have hlt : value.toUInt64.toNat < 2 ^ 64 := value.toUInt64.toNat_lt
  change value.toInt = if 2 * value.toUInt64.toNat < 2 ^ 64 then (value.toUInt64.toNat : ℤ)
    else (value.toUInt64.toNat : ℤ) - ((2 ^ 64 : ℕ) : ℤ) at hcond
  unfold magnitude
  simp only [toInt_nonneg_iff]
  split
  case isTrue h => split at hcond <;> omega
  case isFalse h =>
    rw [toNat_neg, size]
    split at hcond <;> omega

theorem roundedDiv_down (a d : ℕ) : (roundedDiv .down a d : ℤ) = ⌊(a : ℚ) / d⌋ := by
  rw [Rat.floor_natCast_div_natCast]
  simp [roundedDiv]

theorem roundedDiv_up (a : ℕ) {d : ℕ} (hd : 0 < d) : (roundedDiv .up a d : ℤ) = ⌈(a : ℚ) / d⌉ := by
  rw [ceil_div a hd]
  by_cases h : a % d = 0 <;> simp [roundedDiv, h]

theorem Round.apply_of_nonneg (round : Round) {x : ℚ} (hx : 0 ≤ x) :
    round.apply x = if round = .down ∨ round = .towardsZero then ⌊x⌋ else ⌈x⌉ := by
  cases round <;> simp [Round.apply, hx]

theorem Round.apply_neg (round : Round) {x : ℚ} (hx : 0 ≤ x) :
    round.apply (-x) = -(if round = .down ∨ round = .awayFromZero then ⌈x⌉ else ⌊x⌋) := by
  cases round with
  | down => simp [Round.apply, Int.floor_neg]
  | up => simp [Round.apply, Int.ceil_neg]
  | towardsZero =>
    rcases hx.eq_or_lt with rfl | hpos
    · simp [Round.apply]
    · simp [Round.apply, Int.ceil_neg, hpos]
  | awayFromZero =>
    rcases hx.eq_or_lt with rfl | hpos
    · simp [Round.apply]
    · simp [Round.apply, Int.floor_neg, hpos]

theorem toInt_toInt64 {r : UInt64} (h : r.toNat < 2 ^ 63) : r.toInt64.toInt = r.toNat := by
  have hcond := BitVec.toInt_eq_toNat_cond r.toInt64.toBitVec
  change r.toInt64.toInt = if 2 * r.toNat < 2 ^ 64 then (r.toNat : ℤ)
    else (r.toNat : ℤ) - ((2 ^ 64 : ℕ) : ℤ) at hcond
  rw [hcond, if_pos (by omega)]

theorem toInt_neg_toInt64 {r : UInt64} (h : r.toNat ≤ 2 ^ 63) :
    (-r).toInt64.toInt = -(r.toNat : ℤ) := by
  have hcond := BitVec.toInt_eq_toNat_cond (-r).toInt64.toBitVec
  change (-r).toInt64.toInt = if 2 * (-r).toNat < 2 ^ 64 then ((-r).toNat : ℤ)
    else ((-r).toNat : ℤ) - ((2 ^ 64 : ℕ) : ℤ) at hcond
  rw [toNat_neg, size] at hcond
  split at hcond <;> omega

variable {numerator denominator : UInt32}

/-- The scaling of a value that is not negative. -/
theorem scale_nonneg (hd : denominator ≠ 0) (round : Round) {value : Int64} (hv : 0 ≤ value) :
    ∃ r, scale round value numerator denominator = some r ∧
      r.toInt = clamp (round.apply (value.toInt * numerator.toNat / denominator.toNat)) := by
  have habs := toNat_magnitude value
  rw [magnitude, if_pos hv] at habs
  have hint : (value.toInt : ℚ) = (value.toUInt64.toNat : ℚ) := by
    have hnonneg := (toInt_nonneg_iff value).mp hv
    have : value.toInt = (value.toUInt64.toNat : ℤ) := by omega
    rw [this]
    rfl
  have hx : (0 : ℚ) ≤ (value.toUInt64.toNat * numerator.toNat : ℕ) / denominator.toNat := by
    positivity
  have hscale := toNat_scaleUInt64 value.toUInt64 numerator hd
    (if round = .down ∨ round = .towardsZero then .down else .up) Int64.maxValue.toUInt64
  have hlimit : Int64.maxValue.toUInt64.toNat = 2 ^ 63 - 1 := rfl
  refine ⟨_, by rw [scale, if_neg hd, if_pos hv], ?_⟩
  rw [toInt_toInt64 (by omega), hscale, hint, ← Nat.cast_mul, round.apply_of_nonneg hx, clamp]
  split_ifs
  · rw [← roundedDiv_down]
    omega
  · rw [← roundedDiv_up _ (toNat_pos hd)]
    omega

/-- The scaling of a negative value. -/
theorem scale_neg (hd : denominator ≠ 0) (round : Round) {value : Int64} (hv : ¬ 0 ≤ value) :
    ∃ r, scale round value numerator denominator = some r ∧
      r.toInt = clamp (round.apply (value.toInt * numerator.toNat / denominator.toNat)) := by
  have habs := toNat_magnitude value
  rw [magnitude, if_neg hv] at habs
  have hint : (value.toInt : ℚ) = -((-value.toUInt64).toNat : ℚ) := by
    have hneg : ¬ 0 ≤ value.toInt := fun h => hv ((toInt_nonneg_iff value).mpr h)
    have : value.toInt = -((-value.toUInt64).toNat : ℤ) := by omega
    rw [this]
    push_cast
    rfl
  have hx : (0 : ℚ) ≤ ((-value.toUInt64).toNat * numerator.toNat : ℕ) / denominator.toNat := by
    positivity
  have hscale := toNat_scaleUInt64 (-value.toUInt64) numerator hd
    (if round = .down ∨ round = .awayFromZero then .up else .down) Int64.minValue.toUInt64
  have hlimit : Int64.minValue.toUInt64.toNat = 2 ^ 63 := rfl
  refine ⟨_, by rw [scale, if_neg hd, if_neg hv], ?_⟩
  rw [toInt_neg_toInt64 (by omega), hscale, hint, neg_mul, ← Nat.cast_mul, neg_div,
    round.apply_neg hx, clamp]
  split_ifs
  · rw [← roundedDiv_up _ (toNat_pos hd)]
    omega
  · rw [← roundedDiv_down]
    omega

/-- No 64-bit operation of `Scale` loses information: the value is passed on by its distance from
zero, all operations of the long division give what they give on unbounded numbers, and so do the
last ones where they are reached. -/
structure NoLoss (value : Int64) (numerator denominator : UInt32) : Prop where
  distance : (magnitude value).toNat = value.toInt.natAbs
  division : (limbs (magnitude value) numerator.toUInt64 denominator.toUInt64).map toNat =
    limbs (magnitude value).toNat numerator.toNat denominator.toNat
  quotient : (limbs (magnitude value) numerator.toUInt64 denominator.toUInt64).highQ ≤
      limitOf value >>> 32 →
    (limbs (magnitude value) numerator.toUInt64 denominator.toUInt64).result.toNat =
      (limbs (magnitude value).toNat numerator.toNat denominator.toNat).result
  successor : (limbs (magnitude value) numerator.toUInt64 denominator.toUInt64).result <
      limitOf value →
    ((limbs (magnitude value) numerator.toUInt64 denominator.toUInt64).result + 1).toNat =
      (limbs (magnitude value) numerator.toUInt64 denominator.toUInt64).result.toNat + 1

theorem noLoss (hd : denominator ≠ 0) (value : Int64) : NoLoss value numerator denominator where
  distance := toNat_magnitude value
  division := map_toNat_limbs (magnitude value) numerator hd
  quotient := toNat_result hd
  successor := by
    intro hlt
    have hword := lt_iff_toNat_lt.mp hlt
    have hlimit := (limitOf value).toNat_lt
    exact toNat_add (by rw [toNat_one]; omega)

/-- `Scale` is exact, for all values, ratios and ways of rounding. -/
theorem scale_exact (round : Round) (value : Int64) (numerator denominator : UInt32)
    (hd : denominator ≠ 0) :
    (∃ r, scale round value numerator denominator = some r ∧
      r.toInt = clamp (round.apply (value.toInt * numerator.toNat / denominator.toNat))) ∧
    NoLoss value numerator denominator := by
  refine ⟨?_, noLoss hd value⟩
  by_cases hv : 0 ≤ value
  · exact scale_nonneg hd round hv
  · exact scale_neg hd round hv

/-- The least value, scaled by more than one, stays where it is. -/
theorem scale_exact_minValue :
    (∃ r, scale .down Int64.minValue 3 2 = some r ∧
      r.toInt = clamp (Round.down.apply (Int64.minValue.toInt * (3 : UInt32).toNat /
        (2 : UInt32).toNat))) ∧
    NoLoss Int64.minValue 3 2 :=
  scale_exact .down Int64.minValue 3 2 (by decide)

example : scale .down (-7) 1 2 = some (-4) := by decide

example : scale .towardsZero (-7) 1 2 = some (-3) := by decide

end Scale
end Smos.Affine
