import Mathlib.Data.Nat.Prime.Basic

/-!
Products of ratios of 32-bit values (`affine/ratio.cc`: `BinaryGcd`, `Ratio::Reduce`,
`Ratio::Product`).

A product whose lowest terms do not have 32 bits is approximated: its terms are shifted to the
right, by as little as makes them fit.
-/
namespace Smos.Affine

variable {a b n d x j : ℕ}

section BinaryGcd

/-- The loops that remove factors of two.  Zero, for which they do not end, is left alone. -/
def stripTwos (a : ℕ) : ℕ :=
  if a ≠ 0 ∧ a % 2 = 0 then stripTwos (a / 2) else a
termination_by a
decreasing_by omega

theorem stripTwos_le (b : ℕ) : stripTwos b ≤ b := by
  fun_induction stripTwos b with
  | case1 b h ih => omega
  | case2 b h => exact Nat.le_refl b

/-- The Euclidean subtractions.  The smaller number is never zero if neither number is. -/
def subtractLoop (a b : ℕ) : ℕ :=
  let low := min a (stripTwos b)
  let high := max a (stripTwos b)
  if low = 0 ∨ high - low = 0 then low else subtractLoop low (high - low)
termination_by a + b
decreasing_by
  have hle := stripTwos_le b
  omega

/-- Common factors of two are counted, and multiplied in at the end. -/
def binaryGcd (a b twos : ℕ) : ℕ :=
  if a ≠ 0 ∧ a % 2 = 0 ∧ b % 2 = 0 then binaryGcd (a / 2) (b / 2) (twos + 1)
  else subtractLoop (stripTwos a) b <<< twos
termination_by a
decreasing_by omega

theorem stripTwos_odd (hb : b ≠ 0) : stripTwos b % 2 = 1 := by
  fun_induction stripTwos b with
  | case1 b h ih => exact ih (by omega)
  | case2 b h => omega

theorem gcd_stripTwos (ha : a % 2 = 1) (b : ℕ) : a.gcd (stripTwos b) = a.gcd b := by
  fun_induction stripTwos b with
  | case1 b h ih =>
    have hodd := (Nat.odd_iff.mpr ha).coprime_two_left
    rw [ih, ← hodd.gcd_mul_left_cancel_right, Nat.mul_div_cancel' (Nat.dvd_of_mod_eq_zero h.2)]
  | case2 b h => rfl

theorem subtractLoop_eq (ha : a % 2 = 1) (hb : b ≠ 0) : subtractLoop a b = a.gcd b := by
  fun_induction subtractLoop a b with
  | case1 a b low high h =>
    have hodd := stripTwos_odd hb
    have heq : stripTwos b = a := by omega
    rw [← gcd_stripTwos ha, heq, Nat.gcd_self]
    omega
  | case2 a b low high h ih =>
    have hodd := stripTwos_odd hb
    rw [ih (by omega) (by omega), Nat.gcd_sub_self_right (by omega), ← gcd_stripTwos ha]
    change (min a (stripTwos b)).gcd (max a (stripTwos b)) = _
    rcases Nat.le_total a (stripTwos b) with hle | hle
    · rw [Nat.min_eq_left hle, Nat.max_eq_right hle]
    · rw [Nat.min_eq_right hle, Nat.max_eq_left hle, Nat.gcd_comm]

theorem binaryGcd_eq (ha : a ≠ 0) (hb : b ≠ 0) (twos : ℕ) :
    binaryGcd a b twos = a.gcd b * 2 ^ twos := by
  fun_induction binaryGcd a b twos with
  | case1 a b twos h ih =>
    have hgcd : a.gcd b = 2 * (a / 2).gcd (b / 2) := by
      rw [← Nat.gcd_mul_left, Nat.mul_div_cancel' (Nat.dvd_of_mod_eq_zero h.2.1),
        Nat.mul_div_cancel' (Nat.dvd_of_mod_eq_zero h.2.2)]
    rw [ih (by omega) (by omega), hgcd, Nat.pow_succ', ← Nat.mul_assoc, Nat.mul_comm 2]
  | case2 a b twos h =>
    rw [Nat.shiftLeft_eq, subtractLoop_eq (stripTwos_odd ha) hb]
    by_cases hodd : b % 2 = 1
    · rw [Nat.gcd_comm, gcd_stripTwos hodd, Nat.gcd_comm]
    · rw [stripTwos, if_neg (by omega)]

end BinaryGcd

/-- The lowest terms of a ratio.  Nothing is a failed assertion. -/
def reduce (numerator denominator : ℕ) : Option (ℕ × ℕ) :=
  if denominator = 0 then none
  else if numerator = 0 then some (numerator, 1)
  else
    let gcd := binaryGcd numerator denominator 0
    if gcd = 0 then none
    else if gcd = 1 then some (numerator, denominator)
    else some (numerator / gcd, denominator / gcd)

abbrev fitsIn32Bits (numerator denominator : ℕ) : Prop :=
  numerator ≤ 4294967295 ∧ denominator ≤ 4294967295

/-- Half of the divisor is added in 64 bits before the shift by `i`. -/
def rounded (term i : ℕ) : ℕ := (term + 2 ^ (i - 1)) % 2 ^ 64 / 2 ^ i

/-- What the search returns: the product is too large or too small, or it has an approximation. -/
inductive Found
  | larger
  | smaller
  | ratio (numerator denominator : ℕ)

def tryShift (numerator denominator i : ℕ) : Option (Option Found) :=
  if rounded denominator i = 0 then some (some .larger)
  else if rounded numerator i = 0 then some (some .smaller)
  else do
    let (n, d) ← reduce (rounded numerator i) (rounded denominator i)
    some (if fitsIn32Bits n d then some (.ratio n d) else none)

/-- The search, with `k` shifts left from `i` on. -/
def search (numerator denominator : ℕ) : ℕ → ℕ → Option (Option Found)
  | _, 0 => some none
  | i, k + 1 => do
    match ← tryShift numerator denominator i with
    | some found => some (some found)
    | none => search numerator denominator (i + 1) k

def Found.result : Found → UInt32 × UInt32
  | .larger => (.ofNat 4294967295, 1)
  | .smaller => (0, 1)
  | .ratio numerator denominator => (.ofNat numerator, .ofNat denominator)

inductive Exact
  | no
  | yes

def approximate (numerator denominator : ℕ) (exact : Exact) : Option (UInt32 × UInt32) :=
  let result := (Found.ratio numerator denominator).result
  if fitsIn32Bits numerator denominator then some result
  else
    match exact with
    | .yes => none
    | .no => (search numerator denominator 1 32).map fun found => (found.map (·.result)).getD result

def product (aNumerator aDenominator bNumerator bDenominator : UInt32) (exact : Exact) :
    Option (UInt32 × UInt32) := do
  let (numerator, denominator) ← reduce (aNumerator.toNat * bNumerator.toNat)
    (aDenominator.toNat * bDenominator.toNat)
  approximate numerator denominator exact

theorem reduce_eq (n : ℕ) (hd : d ≠ 0) : reduce n d = some (n / n.gcd d, d / n.gcd d) := by
  rw [reduce, if_neg hd]
  split
  case isTrue hn =>
    rw [hn, Nat.gcd_zero_left, Nat.zero_div, Nat.div_self (Nat.pos_of_ne_zero hd)]
  case isFalse hn =>
    rw [binaryGcd_eq hn hd, Nat.pow_zero, Nat.mul_one]
    dsimp only
    rw [if_neg (Nat.gcd_ne_zero_right hd)]
    split
    case isTrue hone => rw [hone, Nat.div_one, Nat.div_one]
    case isFalse => rfl

section Rounded

variable (hx : x + 2 ^ 31 < 2 ^ 64) (hj : j ≤ 31)
include hx hj

theorem rounded_eq : rounded x (j + 1) = (x + 2 ^ j) / (2 ^ j * 2) := by
  have hle : 2 ^ j ≤ 2 ^ 31 := Nat.pow_le_pow_right (by decide) hj
  rw [rounded, Nat.add_sub_cancel, Nat.mod_eq_of_lt (by omega), Nat.pow_succ]

theorem lt_of_rounded_eq_zero (h : rounded x (j + 1) = 0) : x < 2 ^ j := by
  rw [rounded_eq hx hj, Nat.div_eq_zero_iff] at h
  have hpos := Nat.two_pow_pos j
  omega

theorem rounded_eq_one (hlt : x < 2 ^ (j + 1)) (h : rounded x (j + 1) ≠ 0) :
    rounded x (j + 1) = 1 := by
  rw [rounded_eq hx hj] at h ⊢
  rw [Nat.pow_succ] at hlt
  have htwo : (x + 2 ^ j) / (2 ^ j * 2) < 2 := Nat.div_lt_of_lt_mul (by omega)
  exact Nat.le_antisymm (Nat.le_of_lt_succ htwo) (Nat.pos_of_ne_zero h)

theorem mul_lt_of_rounded (hlt : n < 2 ^ (j + 1)) (h : ¬ rounded x (j + 1) ≤ 4294967295) :
    4294967295 * n < x := by
  rw [rounded_eq hx hj] at h
  rw [Nat.pow_succ] at hlt
  have hpos := Nat.two_pow_pos j
  have hle : 4294967296 * (2 ^ j * 2) ≤ x + 2 ^ j :=
    (Nat.le_div_iff_mul_le (by omega)).mp (by omega)
  omega

end Rounded

/-- A term that rounds to nothing is smaller than the other one by more than 32 bits can tell. -/
structure Apart (n d j : ℕ) : Prop where
  larger : d < 2 ^ j → 4294967295 * d < n
  smaller : n < 2 ^ j → 4294967295 * n < d

def Found.Sound (n d : ℕ) : Found → Prop
  | .larger => 4294967295 * d < n
  | .smaller => 4294967295 * n < d
  | .ratio n' d' => fitsIn32Bits n' d' ∧ n' ≠ 0 ∧ d' ≠ 0

section Search

variable (hn : n + 2 ^ 31 < 2 ^ 64) (hd : d + 2 ^ 31 < 2 ^ 64) (hj : j ≤ 31) (h : Apart n d j)
include hn hd hj h

/-- A pass returns, or it shows that the terms are far apart if the next one rounds one of them to
nothing.  The last pass returns. -/
theorem tryShift_spec :
    (∃ found, tryShift n d (j + 1) = some (some found) ∧ found.Sound n d) ∨
      tryShift n d (j + 1) = some none ∧ j < 31 ∧ Apart n d (j + 1) := by
  unfold tryShift
  split
  case isTrue hzero => exact .inl ⟨_, rfl, h.larger (lt_of_rounded_eq_zero hd hj hzero)⟩
  case isFalse hd' =>
    split
    case isTrue hzero => exact .inl ⟨_, rfl, h.smaller (lt_of_rounded_eq_zero hn hj hzero)⟩
    case isFalse hn' =>
      rw [reduce_eq _ hd']
      dsimp only [bind, Option.bind]
      split
      case isTrue hfits =>
        refine .inl ⟨_, rfl, hfits, ?_, ?_⟩
        · exact (Nat.div_gcd_pos_of_pos_left _ (Nat.pos_of_ne_zero hn')).ne'
        · exact (Nat.div_gcd_pos_of_pos_right _ (Nat.pos_of_ne_zero hd')).ne'
      case isFalse hfits =>
        refine .inr ⟨rfl, ?_, ?_, ?_⟩
        · by_contra hlast
          obtain rfl : j = 31 := by omega
          refine hfits ⟨(Nat.div_le_self _ _).trans ?_, (Nat.div_le_self _ _).trans ?_⟩
          · rw [rounded_eq hn hj]
            omega
          · rw [rounded_eq hd hj]
            omega
        · intro hlt
          rw [rounded_eq_one hd hj hlt hd', Nat.gcd_one_right, Nat.div_one] at hfits
          exact mul_lt_of_rounded hn hj hlt fun hle => hfits ⟨hle, by decide⟩
        · intro hlt
          rw [rounded_eq_one hn hj hlt hn', Nat.gcd_one_left, Nat.div_one, Nat.div_one] at hfits
          exact mul_lt_of_rounded hd hj hlt fun hle => hfits ⟨by decide, hle⟩

theorem search_spec {k : ℕ} (hk : j + k = 32) :
    ∃ found, search n d (j + 1) k = some (some found) ∧ found.Sound n d := by
  induction k generalizing j with
  | zero => omega
  | succ k ih =>
    rcases tryShift_spec hn hd hj h with ⟨found, hrun, hsound⟩ | ⟨hrun, hlt, hnext⟩
    · exact ⟨found, by simp [search, hrun], hsound⟩
    · obtain ⟨found, hrest, hsound⟩ := ih hlt hnext (by omega)
      exact ⟨found, by simp [search, hrun, hrest], hsound⟩

end Search

/-- What the product is, by the lowest terms of the exact one. -/
structure Multiplied (n d : ℕ) (result : UInt32 × UInt32) : Prop where
  denominator_ne : result.2 ≠ 0
  exact : fitsIn32Bits n d → result.1.toNat = n ∧ result.2.toNat = d
  found : ¬ fitsIn32Bits n d →
    ∃ found, search n d 1 32 = some (some found) ∧ result = found.result ∧ found.Sound n d
  zero : result = (0, 1) → 4294967295 * n < d

theorem toNat_ofNat (h : x ≤ 4294967295) : (UInt32.ofNat x).toNat = x :=
  UInt32.toNat_ofNat_of_lt' (Nat.lt_succ_of_le h)

theorem Found.Sound.result {found : Found} (h : found.Sound n d) :
    found.result.2 ≠ 0 ∧ (found.result = (0, 1) → 4294967295 * n < d) := by
  cases found with
  | larger => exact ⟨by decide, fun h => absurd h (by decide)⟩
  | smaller => exact ⟨by decide, fun _ => h⟩
  | ratio n' d' =>
    obtain ⟨hfits, hn, hd⟩ := h
    constructor
    · exact fun h => hd ((toNat_ofNat hfits.2).symm.trans (congrArg UInt32.toNat h))
    · exact fun h => absurd ((toNat_ofNat hfits.1).symm.trans (congrArg (·.1.toNat) h)) hn

theorem approximate_spec (hn : n + 2 ^ 31 < 2 ^ 64) (hd : d + 2 ^ 31 < 2 ^ 64)
    (hcoprime : n.Coprime d) (hpos : 0 < d) :
    ∃ result, approximate n d .no = some result ∧ Multiplied n d result := by
  unfold approximate
  by_cases hfits : fitsIn32Bits n d
  · have hn' := toNat_ofNat hfits.1
    have hd' := toNat_ofNat hfits.2
    refine ⟨_, if_pos hfits, ?_, fun _ => ⟨hn', hd'⟩, fun h => absurd hfits h, ?_⟩
    · exact fun h => hpos.ne' (hd'.symm.trans (congrArg UInt32.toNat h))
    · intro h
      have hzero : n = 0 := hn'.symm.trans (congrArg (·.1.toNat) h)
      omega
  · have hne : n ≠ 0 := by
      rintro rfl
      have hone := (Nat.coprime_zero_left d).mp hcoprime
      exact hfits ⟨Nat.zero_le _, hone.trans_le (by decide)⟩
    obtain ⟨found, hsearch, hsound⟩ := @search_spec n d 0 hn hd (Nat.zero_le _)
      ⟨fun h => by omega, fun h => by omega⟩ 32 rfl
    simp only [if_neg hfits, hsearch]
    exact ⟨_, rfl, hsound.result.1, fun h => absurd h hfits,
      fun _ => ⟨found, hsearch, rfl, hsound⟩, hsound.result.2⟩

structure LowestTerms (n d n' d' : ℕ) : Prop where
  eq : n' * d = n * d'
  coprime : n'.Coprime d'

theorem lowestTerms_div_gcd (n : ℕ) (hd : d ≠ 0) :
    LowestTerms n d (n / n.gcd d) (d / n.gcd d) := by
  have hgcd : 0 < n.gcd d := Nat.gcd_pos_of_pos_right n (Nat.pos_of_ne_zero hd)
  refine ⟨?_, Nat.coprime_div_gcd_div_gcd hgcd⟩
  rw [Nat.div_mul_right_comm (Nat.gcd_dvd_left n d), Nat.mul_div_assoc _ (Nat.gcd_dvd_right n d)]

theorem div_mul_bound (a b : UInt32) (g : ℕ) : a.toNat * b.toNat / g + 2 ^ 31 < 2 ^ 64 := by
  have hmul : a.toNat * b.toNat ≤ 4294967295 * 4294967295 :=
    Nat.mul_le_mul (Nat.le_of_lt_succ a.toNat_lt) (Nat.le_of_lt_succ b.toNat_lt)
  have hdiv := Nat.div_le_self (a.toNat * b.toNat) g
  omega

/-- Reducing gives the lowest terms.  A product is exact if its lowest terms have 32 bits;
otherwise the search returns, with terms of 32 bits or because the product is out of range. -/
theorem product_spec (aNumerator aDenominator bNumerator bDenominator : UInt32)
    (ha : aDenominator ≠ 0) (hb : bDenominator ≠ 0) :
    (∃ n d, reduce aNumerator.toNat aDenominator.toNat = some (n, d) ∧
      LowestTerms aNumerator.toNat aDenominator.toNat n d) ∧
    ∃ n d result,
      LowestTerms (aNumerator.toNat * bNumerator.toNat)
        (aDenominator.toNat * bDenominator.toNat) n d ∧
      product aNumerator aDenominator bNumerator bDenominator .no = some result ∧
      Multiplied n d result := by
  have ha' : aDenominator.toNat ≠ 0 := fun h => ha (UInt32.toNat_inj.mp h)
  have hb' : bDenominator.toNat ≠ 0 := fun h => hb (UInt32.toNat_inj.mp h)
  have hne := Nat.mul_ne_zero ha' hb'
  have hterms := lowestTerms_div_gcd (aNumerator.toNat * bNumerator.toNat) hne
  obtain ⟨result, hrun, hresult⟩ := approximate_spec (div_mul_bound ..) (div_mul_bound ..)
    hterms.coprime (Nat.div_gcd_pos_of_pos_right _ (Nat.pos_of_ne_zero hne))
  refine ⟨⟨_, _, reduce_eq _ ha', lowestTerms_div_gcd _ ha'⟩, _, _, result, hterms, ?_, hresult⟩
  unfold product
  rw [reduce_eq _ hne]
  exact hrun

theorem product_spec_inverse : ∃ n d result, LowestTerms (3 * 2) (2 * 3) n d ∧
    product 3 2 2 3 .no = some result ∧ Multiplied n d result :=
  (product_spec 3 2 2 3 (by decide) (by decide)).2

end Smos.Affine
