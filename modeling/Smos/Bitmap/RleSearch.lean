import Smos.Bitmap.RleBitmap
import Smos.Lib.MaximalRuns

/-!
What a run-length encoded bitmap stands for, and that `Get` and `Find` answer by it.
-/
namespace Smos.Bitmap

open Lib.Intervals RleBitmap UInt64

def Element.lo (e : Element) : ℕ := e.bitoff.toNat

def Element.hi (e : Element) : ℕ := e.bitoff.toNat + e.bitlen.toNat

def bits (l : List Element) : Set ℕ := cover Element.lo Element.hi l

/-- The runs are not empty, in increasing order, do not touch and do not wrap around. -/
structure Runs (l : List Element) : Prop where
  spaced : Spaced Element.lo Element.hi 1 l
  fits : ∀ e ∈ l, e.hi < 2 ^ 64

namespace Element

variable {e : Element}

theorem toNat_stop (h : e.hi < 2 ^ 64) : (e.bitoff + e.bitlen).toNat = e.hi := by
  exact Nat.mod_eq_of_lt h

end Element

variable {e : Element} {l : List Element} {p : ℕ}

theorem runs_nil : Runs [] := ⟨Spaced.nil, by simp⟩

theorem runs_cons : Runs (e :: l) ↔
    e.lo < e.hi ∧ e.hi < 2 ^ 64 ∧ Runs l ∧ ∀ b ∈ l, e.hi + 1 ≤ b.lo := by
  constructor
  · intro h
    obtain ⟨he, hl, hafter⟩ := spaced_cons.mp h.spaced
    obtain ⟨hfits, hfits'⟩ := List.forall_mem_cons.mp h.fits
    exact ⟨he, hfits, ⟨hl, hfits'⟩, hafter⟩
  · rintro ⟨he, hfits, hl, hafter⟩
    exact ⟨spaced_cons.mpr ⟨he, hl.spaced, hafter⟩, List.forall_mem_cons.mpr ⟨hfits, hl.fits⟩⟩

theorem runs_append {m : List Element} : Runs (l ++ m) ↔
    Runs l ∧ Runs m ∧ ∀ a ∈ l, ∀ b ∈ m, a.hi + 1 ≤ b.lo := by
  constructor
  · intro h
    obtain ⟨hl, hm, hbetween⟩ := spaced_append.mp h.spaced
    obtain ⟨hl', hm'⟩ := List.forall_mem_append.mp h.fits
    exact ⟨⟨hl, hl'⟩, ⟨hm, hm'⟩, hbetween⟩
  · rintro ⟨hl, hm, hbetween⟩
    exact ⟨spaced_append.mpr ⟨hl.spaced, hm.spaced, hbetween⟩,
      List.forall_mem_append.mpr ⟨hl.fits, hm.fits⟩⟩

theorem mem_bits_cons : p ∈ bits (e :: l) ↔ e.lo ≤ p ∧ p < e.hi ∨ p ∈ bits l := by
  rw [bits, cover_cons]
  rfl

/-- What is after a run is not before it. -/
theorem hi_lt_of_mem_bits (h : ∀ b ∈ l, e.hi + 1 ≤ b.lo) (hp : p ∈ bits l) : e.hi < p := by
  obtain ⟨b, hb, hlo, -⟩ := hp
  have := h b hb
  omega

section Get

/-- Where the run of bits from a position on ends. -/
theorem getLoop_spec (h : Runs l) (bitoff : UInt64) :
    bitoff.toNat ≤ (getLoop bitoff l).toNat ∧
      (∀ p, bitoff.toNat ≤ p → p < (getLoop bitoff l).toNat → p ∈ bits l) ∧
      (getLoop bitoff l).toNat ∉ bits l := by
  induction l with
  | nil =>
    refine ⟨le_rfl, fun p hle hlt => ?_, fun hmem => ?_⟩
    · exact absurd hlt (Nat.not_lt.mpr hle)
    · simp [bits] at hmem
  | cons e l ih =>
    obtain ⟨hne, hfits, hl, hafter⟩ := runs_cons.mp h
    have hstop := Element.toNat_stop hfits
    unfold getLoop
    split
    case isTrue hlt =>
      rw [lt_iff_toNat_lt] at hlt
      refine ⟨le_rfl, fun p hle hlt' => absurd hlt' (Nat.not_lt.mpr hle), fun hmem => ?_⟩
      rcases mem_bits_cons.mp hmem with ⟨hlo, -⟩ | hmem
      · exact absurd hlo (Nat.not_le.mpr hlt)
      · have hbefore := hi_lt_of_mem_bits hafter hmem
        have hlo : e.lo = e.bitoff.toNat := rfl
        omega
    case isFalse hge =>
      rw [lt_iff_toNat_lt, Nat.not_lt] at hge
      split
      case isTrue hlt =>
        rw [lt_iff_toNat_lt, hstop] at hlt
        rw [hstop]
        refine ⟨hlt.le, fun p hle hp => ?_, fun hmem => ?_⟩
        · exact mem_bits_cons.mpr (.inl ⟨hge.trans hle, hp⟩)
        · exact h.spaced.hi_not_mem List.mem_cons_self hmem
      case isFalse hlt =>
        rw [lt_iff_toNat_lt] at hlt
        obtain ⟨hle, hin, hout⟩ := ih hl
        refine ⟨hle, fun p hle' hp => mem_bits_cons.mpr (.inr (hin p hle' hp)), fun hmem => ?_⟩
        rcases mem_bits_cons.mp hmem with ⟨-, hhi⟩ | hmem
        · omega
        · exact hout hmem

/-- `Get` says whether a range is set, and otherwise reports the first position that is not. -/
theorem get_spec {b : RleBitmap} (h : Runs b.elems) (bitoff bitmax : UInt64) :
    ((b.get bitoff bitmax).1 = true ↔
        ∀ p, bitoff.toNat ≤ p → p < bitmax.toNat → p ∈ bits b.elems) ∧
      ((b.get bitoff bitmax).1 = true → (b.get bitoff bitmax).2 = bitmax) ∧
      ((b.get bitoff bitmax).1 = false →
        IsLeast {p | bitoff.toNat ≤ p ∧ p < bitmax.toNat ∧ p ∉ bits b.elems}
          (b.get bitoff bitmax).2.toNat) := by
  obtain ⟨hge, hin, hout⟩ := getLoop_spec h bitoff
  unfold RleBitmap.get
  dsimp only
  split
  case isTrue hgt =>
    simp only [decide_true, true_iff, reduceCtorEq, false_implies, implies_true, and_true]
    exact fun p hlo hhi => hin p hlo (hhi.trans hgt)
  case isFalse hngt =>
    rw [gt_iff_lt, lt_iff_toNat_lt, Nat.not_lt] at hngt
    rw [decide_eq_true_iff, decide_eq_false_iff_not]
    refine ⟨⟨fun heq p hlo hhi => ?_, fun hall => ?_⟩, fun heq => heq, fun hne => ⟨?_, ?_⟩⟩
    · exact hin p hlo (heq ▸ hhi)
    · by_contra hne
      have hlt : (RleBitmap.getLoop bitoff b.elems).toNat < bitmax.toNat :=
        lt_of_le_of_ne hngt fun heq => hne (UInt64.toNat_inj.mp heq)
      exact hout (hall _ hge hlt)
    · exact ⟨hge, lt_of_le_of_ne hngt fun heq => hne (UInt64.toNat_inj.mp heq), hout⟩
    · rintro p ⟨hlo, -, hp⟩
      by_contra hlt
      exact hp (hin p hlo (Nat.not_le.mp hlt))

end Get

section Find

/-- A run of equal bits inside a range starts here. -/
def RunAt (s : Set ℕ) (isSet : Bool) (lo hi len x : ℕ) : Prop :=
  lo ≤ x ∧ x + len ≤ hi ∧ ∀ p, x ≤ p → p < x + len → (p ∈ s ↔ isSet = true)

def Finds (s : Set ℕ) (isSet : Bool) (lo : ℕ) (hi len : UInt64) : Status × UInt64 → Prop
  | (.ok, out) => IsLeast {x | RunAt s isSet lo hi.toNat len.toNat x} out.toNat
  | (.noResources, out) => out = hi ∧ ∀ x, ¬ RunAt s isSet lo hi.toNat len.toNat x
  | _ => False

variable {s : Set ℕ} {isSet : Bool} {lo lo' : ℕ} {hi len : UInt64} {bitoff bitmax runLen : UInt64}

/-- The search may go on where no run starts before. -/
theorem Finds.of_ge {r : Status × UInt64} (h : Finds s isSet lo' hi len r) (hle : lo ≤ lo')
    (hskip : ∀ x, RunAt s isSet lo hi.toNat len.toNat x → lo' ≤ x) : Finds s isSet lo hi len r := by
  have hset : {x | RunAt s isSet lo hi.toNat len.toNat x} =
      {x | RunAt s isSet lo' hi.toNat len.toNat x} := by
    ext x
    exact ⟨fun hx => ⟨hskip x hx, hx.2⟩, fun hx => ⟨hle.trans hx.1, hx.2⟩⟩
  obtain ⟨status, out⟩ := r
  cases status with
  | ok =>
    change IsLeast _ _
    rw [hset]
    exact h
  | noResources =>
    refine ⟨h.1, fun x hx => ?_⟩
    have hx' : x ∈ {x | RunAt s isSet lo' hi.toNat len.toNat x} := hset ▸ hx
    exact h.2 x hx'
  | invalidArgs => cases h
  | noMemory => cases h

/-- Before its end, the positions of the first element are those that are set. -/
theorem mem_iff_lo_le (h : Runs (e :: l)) {lo : ℕ} (hs : ∀ p, lo ≤ p → (p ∈ s ↔ p ∈ bits (e :: l)))
    (hp : lo ≤ p) (hlt : p < e.hi) : p ∈ s ↔ e.lo ≤ p := by
  obtain ⟨-, -, -, hafter⟩ := runs_cons.mp h
  rw [hs p hp, mem_bits_cons]
  constructor
  · rintro (hin | hin)
    · exact hin.1
    · have := hi_lt_of_mem_bits hafter hin
      omega
  · exact fun hlo => .inl ⟨hlo, hlt⟩

/-- A run that is not found at an element lies behind it. -/
theorem RunAt.hi_le {len : ℕ} {e : Element} {lo hi x : ℕ} (hx : RunAt s isSet lo hi len x)
    (hlen : 0 < len) (hs : ∀ p, lo ≤ p → (p ∈ s ↔ p ∈ bits (e :: l)))
    (h : Runs (e :: l)) (hlo : lo < e.hi)
    (hset : isSet = true → ¬ (max lo e.lo < min hi e.hi ∧ len ≤ min hi e.hi - max lo e.lo))
    (hunset : isSet = false → ¬ (lo < e.lo ∧ len ≤ e.lo - lo)) : e.hi ≤ x := by
  obtain ⟨hge, hfit, hall⟩ := hx
  obtain ⟨hne, -⟩ := runs_cons.mp h
  by_contra hlt
  have hmem : ∀ p, lo ≤ p → p < e.hi → (p ∈ s ↔ e.lo ≤ p) := fun p => mem_iff_lo_le h hs
  have hstart := hall x le_rfl (by omega)
  rw [hmem x hge (by omega)] at hstart
  cases isSet with
  | true =>
    -- the run lies within the element, since the position after it is not set
    have hin : e.lo ≤ x := hstart.mpr rfl
    have hend : x + len ≤ e.hi := by
      by_contra hover
      have hstop := (hall e.hi (by omega) (by omega)).mpr rfl
      rw [hs e.hi (by omega)] at hstop
      exact h.spaced.hi_not_mem List.mem_cons_self hstop
    exact hset rfl ⟨by omega, by omega⟩
  | false =>
    -- the run ends before the element starts
    have hbefore : ¬ e.lo ≤ x := fun hin => by simpa using hstart.mp hin
    have hend : x + len ≤ e.lo := by
      by_contra hover
      have hfirst := hall e.lo (by omega) (by omega)
      rw [hmem e.lo (by omega) hne] at hfirst
      simpa using hfirst.mp le_rfl
    exact hunset rfl ⟨by omega, by omega⟩

/-- The test whether an element has enough bits between the bounds. -/
theorem foundIn_iff (isSet : Bool) (bitoff bitmax runLen : UInt64) (hfits : e.hi < 2 ^ 64) :
    (isSet && min bitmax e.stop > max bitoff e.bitoff &&
        min bitmax e.stop - max bitoff e.bitoff ≥ runLen) = true ↔
      isSet = true ∧ max bitoff.toNat e.lo < min bitmax.toNat e.hi ∧
        runLen.toNat ≤ min bitmax.toNat e.hi - max bitoff.toNat e.lo := by
  have hmin : (max bitoff e.bitoff).toNat = max bitoff.toNat e.lo := toNat_max _ _
  have hmax : (min bitmax e.stop).toNat = min bitmax.toNat e.hi := by
    rw [toNat_min]
    exact congrArg (min bitmax.toNat) (Element.toNat_stop hfits)
  simp only [Bool.and_eq_true, decide_eq_true_iff, and_assoc, gt_iff_lt, ge_iff_le,
    lt_iff_toNat_lt, le_iff_toNat_le, hmin, hmax]
  refine and_congr_right fun _ => and_congr_right fun hlt => ?_
  rw [UInt64.toNat_sub_of_le _ _ (le_iff_toNat_le.mpr (by omega)), hmin, hmax]

/-- The test whether there are enough bits before an element. -/
theorem foundBefore_iff (isSet : Bool) (bitoff start runLen : UInt64) :
    (!isSet && bitoff < start && start - bitoff ≥ runLen) = true ↔
      isSet = false ∧ bitoff.toNat < start.toNat ∧
        runLen.toNat ≤ start.toNat - bitoff.toNat := by
  simp only [Bool.and_eq_true, Bool.not_eq_true', decide_eq_true_iff, and_assoc, ge_iff_le,
    lt_iff_toNat_lt, le_iff_toNat_le]
  refine and_congr_right fun _ => and_congr_right fun hlt => ?_
  rw [UInt64.toNat_sub_of_le _ _ (le_iff_toNat_le.mpr hlt.le)]

/-- A long enough part of an element between the bounds is the first run of set bits. -/
theorem isLeast_in_element {e : Element} {lo hi len : ℕ} (hlen : 0 < len)
    (hmem : ∀ p, lo ≤ p → p < e.hi → (p ∈ s ↔ e.lo ≤ p))
    (hlt : max lo e.lo < min hi e.hi) (hfit : len ≤ min hi e.hi - max lo e.lo) :
    IsLeast {x | RunAt s true lo hi len x} (max lo e.lo) := by
  refine ⟨⟨by omega, by omega, fun p hp hp' => ?_⟩, fun x hx => ?_⟩
  · rw [hmem p (by omega) (by omega)]
    exact ⟨fun _ => rfl, fun _ => by omega⟩
  · have h1 := hx.1
    have hfirst := (hx.2.2 x le_rfl (by omega)).mpr rfl
    by_cases hxe : x < e.hi
    · have := (hmem x h1 hxe).mp hfirst
      omega
    · omega

/-- Enough bits before an element are the first run of unset bits. -/
theorem isLeast_before_element {e : Element} {lo hi len : ℕ} (hle : lo + len ≤ hi)
    (hne : e.lo ≤ e.hi) (hmem : ∀ p, lo ≤ p → p < e.hi → (p ∈ s ↔ e.lo ≤ p)) (hlt : lo < e.lo)
    (hfit : len ≤ e.lo - lo) : IsLeast {x | RunAt s false lo hi len x} lo := by
  refine ⟨⟨le_rfl, hle, fun p hp hp' => ?_⟩, fun x hx => hx.1⟩
  rw [hmem p hp (by omega)]
  exact ⟨fun hin => absurd hin (by omega), nofun⟩

/-- Behind the last element only unset bits are found. -/
theorem findLoop_nil (hlen : 0 < runLen.toNat) (hle : bitoff.toNat ≤ bitmax.toNat)
    (hempty : ∀ p, bitoff.toNat ≤ p → p ∉ s) :
    Finds s isSet bitoff.toNat bitmax runLen (findLoop isSet bitmax runLen bitoff []) := by
  have hsub := UInt64.toNat_sub_of_le bitmax bitoff (le_iff_toNat_le.mpr hle)
  unfold findLoop
  split
  case isTrue hfound =>
    rw [Bool.and_eq_true, Bool.not_eq_true', decide_eq_true_iff, ge_iff_le,
      le_iff_toNat_le] at hfound
    refine ⟨⟨le_rfl, by omega, fun p hp _ => ?_⟩, fun x hx => hx.1⟩
    simp [hempty p hp, hfound.1]
  case isFalse hnone =>
    rw [Bool.and_eq_true, decide_eq_true_iff, ge_iff_le, le_iff_toNat_le] at hnone
    refine ⟨rfl, fun x hx => ?_⟩
    have hfirst := hx.2.2 x le_rfl (by omega)
    cases isSet with
    | true => exact hempty x hx.1 (hfirst.mpr rfl)
    | false =>
      have h1 := hx.1
      have h2 := hx.2.1
      exact hnone ⟨rfl, by omega⟩

theorem findLoop_spec (h : Runs l) (hlen : 0 < runLen.toNat)
    (hle : bitoff.toNat ≤ bitmax.toNat) (hs : ∀ p, bitoff.toNat ≤ p → (p ∈ s ↔ p ∈ bits l)) :
    Finds s isSet bitoff.toNat bitmax runLen
      (findLoop isSet bitmax runLen bitoff l) := by
  induction l generalizing bitoff with
  | nil => exact findLoop_nil hlen hle fun p hp hmem => by simpa [bits] using (hs p hp).mp hmem
  | cons e l ih =>
    obtain ⟨hne, hfits, hl, hafter⟩ := runs_cons.mp h
    have hstop : e.stop.toNat = e.hi := Element.toNat_stop hfits
    have hrest : ∀ p, e.hi ≤ p → (p ∈ bits (e :: l) ↔ p ∈ bits l) := by
      intro p hp
      rw [mem_bits_cons]
      exact ⟨fun h => h.resolve_left fun hin => absurd hin.2 (Nat.not_lt.mpr hp), Or.inr⟩
    have hsub := UInt64.toNat_sub_of_le bitmax bitoff (le_iff_toNat_le.mpr hle)
    unfold findLoop
    split
    case isTrue hpast =>
      rw [ge_iff_le, le_iff_toNat_le, hstop] at hpast
      exact ih hl hle fun p hp => (hs p hp).trans (hrest p (hpast.trans hp))
    case isFalse hpast =>
      rw [ge_iff_le, le_iff_toNat_le, hstop, Nat.not_le] at hpast
      split
      case isTrue hshort =>
        rw [lt_iff_toNat_lt] at hshort
        refine ⟨rfl, fun x hx => ?_⟩
        have h1 := hx.1
        have h2 := hx.2.1
        omega
      case isFalse hshort =>
        rw [lt_iff_toNat_lt] at hshort
        have hmin : (max bitoff e.bitoff).toNat = max bitoff.toNat e.lo := toNat_max _ _
        have hmem : ∀ p, bitoff.toNat ≤ p → p < e.hi → (p ∈ s ↔ e.lo ≤ p) :=
          fun p => mem_iff_lo_le h hs
        have hset := foundIn_iff isSet bitoff bitmax runLen hfits
        have hunset := foundBefore_iff isSet bitoff e.bitoff runLen
        have hlo : e.lo = e.bitoff.toNat := rfl
        dsimp only
        split
        case isTrue hfound =>
          -- the element has enough bits between the bounds
          obtain ⟨rfl, hlt, hfit⟩ := hset.mp hfound
          have hleast := isLeast_in_element hlen hmem hlt hfit
          rwa [← hmin] at hleast
        case isFalse hnotSet =>
          split
          case isTrue hfound =>
            -- there are enough bits before the element
            obtain ⟨rfl, hlt, hfit⟩ := hunset.mp hfound
            exact isLeast_before_element (by omega) (by omega) hmem hlt hfit
          case isFalse hnotUnset =>
            have hskip : ∀ x, RunAt s isSet bitoff.toNat bitmax.toNat runLen.toNat x → e.hi ≤ x :=
              fun x hx => hx.hi_le hlen hs h hpast
                (fun hisSet hcond => hnotSet (hset.mpr ⟨hisSet, hcond⟩))
                (fun hisUnset hcond => hnotUnset (hunset.mpr ⟨hisUnset, hcond⟩))
            split
            case isTrue hover =>
              rw [lt_iff_toNat_lt] at hover
              refine ⟨rfl, fun x hx => ?_⟩
              have h1 := hskip x hx
              have h2 := hx.2.1
              omega
            case isFalse hover =>
              rw [lt_iff_toNat_lt] at hover
              refine Finds.of_ge (ih hl (by omega) fun p hp => ?_) (by omega) fun x hx => ?_
              · rw [hs p (by omega), hrest p (by omega)]
              · rw [hstop]
                exact hskip x hx

/-- `Find` returns the lowest start of a run of equal bits inside a range, if there is one. -/
theorem find_spec {b : RleBitmap} (h : Runs b.elems) {isSet : Bool}
    (hlen : runLen ≠ 0) (hle : bitoff ≤ bitmax) :
    Finds (bits b.elems) isSet bitoff.toNat bitmax runLen (b.find isSet bitoff bitmax runLen) := by
  apply findLoop_spec h
  · rw [Nat.pos_iff_ne_zero]
    exact fun hzero => hlen (UInt64.toNat_inj.mp hzero)
  · exact le_iff_toNat_le.mp hle
  · exact fun p _ => Iff.rfl

end Find

end Smos.Bitmap
