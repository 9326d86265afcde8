import Mathlib.Data.Nat.Bitwise
import Smos.Inspect.Container

/-!
Writing the bit fields of a block.  A field of a block's header keeps its value when another block
is written, or another field of the same block.
-/
namespace Smos.Inspect

open Lib.Bytes BitVec Nat

namespace BitField

/-- The value is not masked, so one that is too large also sets bits behind the field. -/
def set (f : BitField) (word value : BitVec 64) : BitVec 64 :=
  (word &&& ~~~(f.mask <<< f.lsb)) ||| (value <<< f.lsb)

def width (f : BitField) : ℕ := f.msb - f.lsb + 1

structure Proper (f : BitField) : Prop where
  lsb_le : f.lsb ≤ f.msb
  msb_lt : f.msb < 64
  width_lt : f.width < 64

instance (f : BitField) : Decidable f.Proper :=
  decidable_of_iff (f.lsb ≤ f.msb ∧ f.msb < 64 ∧ f.width < 64)
    ⟨fun h => ⟨h.1, h.2.1, h.2.2⟩, fun h => ⟨h.1, h.2, h.3⟩⟩

def Apart (f g : BitField) : Prop := f.msb < g.lsb ∨ g.msb < f.lsb

instance (f g : BitField) : Decidable (f.Apart g) := inferInstanceAs (Decidable (_ ∨ _))

variable {f g : BitField} {word : BitVec 64} {value : ℕ}

section

variable (hf : f.Proper)
include hf

theorem getLsbD_mask (i : ℕ) : f.mask.getLsbD i = decide (i < f.width) := by
  have hlt : 2 ^ f.width < 2 ^ 64 := Nat.pow_lt_pow_right (by omega) hf.width_lt
  have hpos : 0 < 2 ^ f.width := Nat.two_pow_pos _
  have hshift : 1 <<< f.width % 2 ^ 64 = 2 ^ f.width := by
    rw [one_shiftLeft, mod_eq_of_lt hlt]
  have hnat : f.mask.toNat = 2 ^ f.width - 1 := by
    change ((1#64 <<< f.width) - 1#64).toNat = _
    rw [toNat_sub, toNat_shiftLeft]
    simp only [toNat_ofNat, Nat.one_mod_two_pow_eq_one.mpr (by omega : 0 < 64), hshift]
    omega
  rw [← testBit_toNat, hnat, testBit_two_pow_sub_one]

theorem testBit_get (i : ℕ) :
    (f.get word).testBit i = (word.getLsbD (f.lsb + i) && decide (i < f.width)) := by
  rw [get, testBit_toNat, getLsbD_and, getLsbD_ushiftRight, getLsbD_mask hf]

theorem get_lt : f.get word < 2 ^ f.width := by
  refine lt_pow_two_of_testBit _ fun i hi => ?_
  rw [testBit_get hf]
  simp [Nat.not_lt.mpr hi]

theorem getLsbD_set {i : ℕ} (hi : i < 64) :
    (f.set word (BitVec.ofNat 64 value)).getLsbD i =
      (word.getLsbD i && !decide (f.lsb ≤ i ∧ i < f.lsb + f.width) ||
        decide (f.lsb ≤ i) && value.testBit (i - f.lsb)) := by
  have hsub : i - f.lsb < 64 := by omega
  have hrange : (decide (f.lsb ≤ i) && decide (i - f.lsb < f.width)) =
      decide (f.lsb ≤ i ∧ i < f.lsb + f.width) := by
    rw [Bool.eq_iff_iff]
    simp only [Bool.and_eq_true, decide_eq_true_eq]
    omega
  have hle : (!decide (i < f.lsb)) = decide (f.lsb ≤ i) := by
    rw [Bool.eq_iff_iff]
    simp
  simp only [set, getLsbD_or, getLsbD_and, getLsbD_not,
    getLsbD_shiftLeft, getLsbD_mask hf, getLsbD_ofNat, hi, hsub, decide_true,
    Bool.true_and, hle, hrange]

/-- A value that fits reads back. -/
theorem get_set_self (hv : value < 2 ^ f.width) :
    f.get (f.set word (BitVec.ofNat 64 value)) = value := by
  apply eq_of_testBit_eq
  intro i
  have hle := hf.lsb_le
  have hmsb := hf.msb_lt
  rw [testBit_get hf]
  by_cases hi : i < f.width
  · have hlt : f.lsb + i < 64 := by
      unfold width at hi
      omega
    rw [getLsbD_set hf hlt]
    simp [hi]
  · have hbig : value < 2 ^ i :=
      Nat.lt_of_lt_of_le hv (Nat.pow_le_pow_right (by omega) (Nat.not_lt.mp hi))
    simp [hi, testBit_lt_two_pow hbig]

/-- A value that fits leaves the other fields. -/
theorem get_set_of_apart (hg : g.Proper) (hfg : f.Apart g) (hv : value < 2 ^ g.width) :
    f.get (g.set word (BitVec.ofNat 64 value)) = f.get word := by
  apply eq_of_testBit_eq
  intro i
  have hfle := hf.lsb_le
  have hfmsb := hf.msb_lt
  have hgle := hg.lsb_le
  rw [testBit_get hf, testBit_get hf]
  by_cases hi : i < f.width
  · have hlt : f.lsb + i < 64 := by
      unfold width at hi
      omega
    have hout : f.lsb + i < g.lsb ∨ g.lsb + g.width ≤ f.lsb + i := by
      unfold Apart width at *
      omega
    rw [getLsbD_set hg hlt]
    have hno : ¬(g.lsb ≤ f.lsb + i ∧ f.lsb + i < g.lsb + g.width) := by omega
    have hzero : (decide (g.lsb ≤ f.lsb + i) && value.testBit (f.lsb + i - g.lsb)) = false := by
      rcases hout with hlo | hhi
      · simp [Nat.not_le.mpr hlo]
      · have hbig : value < 2 ^ (f.lsb + i - g.lsb) :=
          Nat.lt_of_lt_of_le hv (Nat.pow_le_pow_right (by omega) (by omega))
        simp [testBit_lt_two_pow hbig]
    rw [hzero]
    simp [hno]
  · simp [hi]

end

end BitField

namespace HeaderFields

def freeReserved : BitField := ⟨7, 4⟩
def freeNextIndex : BitField := ⟨39, 16⟩
def freeEmpty : BitField := ⟨63, 40⟩
def reservedEmpty : BitField := ⟨63, 16⟩

end HeaderFields

namespace Container

variable {c : Container} {index j : BlockIndex} {f g : BitField} {value : ℕ}

def setHeaderField (c : Container) (index : BlockIndex) (f : BitField) (value : ℕ) : Container :=
  match c.getU64 (headerOffset index) with
  | some word => c.setU64 (headerOffset index) (f.set word (BitVec.ofNat 64 value))
  | none => c

def setHeaderValue (c : Container) (index : BlockIndex) (value : BitVec 64) : Container :=
  c.setU64 (headerOffset index) value

@[simp] theorem length_setHeaderField : (c.setHeaderField index f value).length = c.length := by
  unfold setHeaderField
  split
  · exact length_setU64
  · rfl

@[simp] theorem length_setHeaderValue {v : BitVec 64} :
    (c.setHeaderValue index v).length = c.length := length_setU64

def unit (c : Container) (index : BlockIndex) : List UInt8 := slice c (headerOffset index) 16

/-- Writing the header of a block leaves the other units. -/
theorem unit_setHeaderValue {v : BitVec 64} (h : j ≠ index) :
    (c.setHeaderValue index v).unit j = c.unit j := by
  refine slice_setU64 ?_
  unfold headerOffset Constants.minOrderSize
  rcases Nat.lt_or_gt_of_ne h with hlt | hgt <;> omega

theorem unit_setHeaderField (h : j ≠ index) :
    (c.setHeaderField index f value).unit j = c.unit j := by
  unfold setHeaderField
  split
  · exact unit_setHeaderValue h
  · rfl

/-- A header is read from the block's unit. -/
theorem getU64_of_unit {c' : Container} (hlen : c'.length = c.length)
    (h : c'.unit index = c.unit index) :
    c'.getU64 (headerOffset index) = c.getU64 (headerOffset index) := by
  have hslice : slice c' (headerOffset index) 8 = slice c (headerOffset index) 8 := by
    have htake := congrArg (List.take 8) h
    simpa [unit, slice, List.take_take] using htake
  unfold getU64 getSliceAt
  rw [hlen, hslice]

theorem headerField_of_unit {c' : Container} (hlen : c'.length = c.length)
    (h : c'.unit index = c.unit index) : c'.headerField index f = c.headerField index f := by
  unfold headerField
  rw [getU64_of_unit hlen h]

def HasHeader (c : Container) (index : BlockIndex) : Prop := headerOffset index + 8 ≤ c.length

section

variable (h : c.HasHeader index)
include h

theorem headerField_setHeaderField :
    (c.setHeaderField index f value).headerField index g =
      g.get (f.set (BitVec.ofNat 64 (ofLE (slice c (headerOffset index) 8)))
        (BitVec.ofNat 64 value)) := by
  unfold setHeaderField headerField
  rw [getU64_eq h]
  simp only [getU64_setU64_self h]

theorem headerField_set_self (hf : f.Proper)
    (hv : value < 2 ^ f.width) : (c.setHeaderField index f value).headerField index f = value := by
  rw [headerField_setHeaderField h, BitField.get_set_self hf hv]

theorem headerField_set_of_apart (hg : g.Proper) (hf : f.Proper)
    (hgf : g.Apart f) (hv : value < 2 ^ f.width) :
    (c.setHeaderField index f value).headerField index g = c.headerField index g := by
  rw [headerField_setHeaderField h, BitField.get_set_of_apart hg hf hgf hv, headerField,
    getU64_eq h]

end

end Container

end Smos.Inspect
