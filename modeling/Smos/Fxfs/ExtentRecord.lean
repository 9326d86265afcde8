import Mathlib.Data.Nat.Basic
import Mathlib.Tactic.Convert

/-!
Ranges of offsets, and extent records (`object_store/extent_record.rs`): the range of logical
offsets an extent covers and where, and in which mode, its blocks are on the device.

`pointAt` reads an extent at one logical offset.  Cutting an extent at a block boundary with
`offset_by` or `shrunk` does not change what it says about the offsets that remain.
-/
namespace Smos.Fxfs

open List

/-- `std::ops::Range<u64>`, of logical and device offsets alike.  The offsets are natural numbers,
and the models agree with the code for those up to `u64Max`.  Where the code adds one to the start
of a range it stays below the end of a range that is not empty; a key that is made from the end of
an extent wraps as in a release build. -/
structure Range where
  start : ℕ
  stop : ℕ
  deriving DecidableEq, Repr

def u64Max : ℕ := 0xffff_ffff_ffff_ffff

structure ExtentKey where
  range : Range
  deriving DecidableEq, Repr

namespace ExtentKey

def searchKeyFromOffset (offset : ℕ) : ExtentKey := ⟨⟨0, (offset + 1) % (u64Max + 1)⟩⟩

/-- `search_key`, which asserts that the range is not empty. -/
def searchKey (key : ExtentKey) : Option ExtentKey :=
  if key.range.start = key.range.stop then none else some (searchKeyFromOffset key.range.start)

def keyForMergeInto (key : ExtentKey) : ExtentKey := ⟨⟨0, key.range.start⟩⟩

def cmpUpperBound (a b : ExtentKey) : Ordering := compare a.range.stop b.range.stop

def cmpLowerBound (a b : ExtentKey) : Ordering := compare a.range.start b.range.start

def cmp (a b : ExtentKey) : Ordering :=
  (compare a.range.start b.range.start).then (compare a.range.stop b.range.stop)

end ExtentKey

/-- How an extent is written.  Checksums and bitmap have one entry per block; an extent without
checksums has an empty list of them. -/
inductive ExtentMode where
  | raw
  | cow (checksums : List ℕ)
  | overwritePartial (bitmap : List Bool)
  | overwrite
  deriving DecidableEq, Repr

inductive ExtentValue where
  | none
  | some (deviceOffset : ℕ) (mode : ExtentMode) (keyId : ℕ)
  deriving DecidableEq, Repr

namespace ExtentValue

def deletedExtent : ExtentValue := .none

def offsetBy (value : ExtentValue) (amount extentLen : ℕ) : ExtentValue :=
  match value with
  | .none => deletedExtent
  | .some deviceOffset mode keyId =>
    let mode := match mode with
      | .raw => .raw
      | .cow checksums =>
        if checksums.length > 0 then
          .cow (checksums.drop (amount / (extentLen / checksums.length)))
        else .cow []
      | .overwrite => .overwrite
      | .overwritePartial bitmap =>
        .overwritePartial (bitmap.drop (amount / (extentLen / bitmap.length)))
    .some (deviceOffset + amount) mode keyId

def shrunk (value : ExtentValue) (originalLen newLen : ℕ) : ExtentValue :=
  match value with
  | .none => deletedExtent
  | .some deviceOffset mode keyId =>
    let mode := match mode with
      | .raw => .raw
      | .cow checksums =>
        if checksums.length > 0 then
          .cow (checksums.take (newLen / (originalLen / checksums.length)))
        else .cow []
      | .overwrite => .overwrite
      | .overwritePartial bitmap =>
        .overwritePartial (bitmap.take (newLen / (originalLen / bitmap.length)))
    .some deviceOffset mode keyId

end ExtentValue

/-- The mode of one block of an extent, with the block's own checksum or bitmap entry. -/
inductive BlockMode where
  | raw
  | cow (checksum : Option ℕ)
  | overwritePartial (written : Option Bool)
  | overwrite
  deriving DecidableEq, Repr

inductive ExtentPoint where
  | deleted
  | mapped (deviceOffset : ℕ) (mode : BlockMode) (keyId : ℕ)
  deriving DecidableEq, Repr

def ExtentMode.atBlock (mode : ExtentMode) (index : ℕ) : BlockMode :=
  match mode with
  | .raw => .raw
  | .cow checksums => .cow checksums[index]?
  | .overwritePartial bitmap => .overwritePartial bitmap[index]?
  | .overwrite => .overwrite

/-- What an extent that starts at `start` says about the logical offset `x`. -/
def ExtentValue.pointAt (value : ExtentValue) (blockSize start x : ℕ) : ExtentPoint :=
  match value with
  | .none => .deleted
  | .some deviceOffset mode keyId =>
    .mapped (deviceOffset + (x - start)) (mode.atBlock ((x - start) / blockSize)) keyId

/-- The checksums and the bitmap have one entry for each of the extent's blocks. -/
def ExtentMode.Fits (mode : ExtentMode) (blockSize len : ℕ) : Prop :=
  match mode with
  | .cow checksums => checksums = [] ∨ checksums.length * blockSize = len
  | .overwritePartial bitmap => bitmap.length * blockSize = len
  | _ => True

/-- A non-empty, block-aligned extent whose checksums and bitmap fit it. -/
structure ExtentOk (blockSize : ℕ) (range : Range) (value : ExtentValue) : Prop where
  block_pos : 0 < blockSize
  nonempty : range.start < range.stop
  start_dvd : blockSize ∣ range.start
  stop_dvd : blockSize ∣ range.stop
  fits : ∀ offset mode keyId, value = .some offset mode keyId →
    mode.Fits blockSize (range.stop - range.start)

def ExtentMode.dropBlocks (mode : ExtentMode) (n : ℕ) : ExtentMode :=
  match mode with
  | .raw => .raw
  | .cow checksums => .cow (checksums.drop n)
  | .overwritePartial bitmap => .overwritePartial (bitmap.drop n)
  | .overwrite => .overwrite

def ExtentMode.takeBlocks (mode : ExtentMode) (n : ℕ) : ExtentMode :=
  match mode with
  | .raw => .raw
  | .cow checksums => .cow (checksums.take n)
  | .overwritePartial bitmap => .overwritePartial (bitmap.take n)
  | .overwrite => .overwrite

namespace ExtentMode

variable {mode : ExtentMode} {b len n : ℕ}

theorem atBlock_dropBlocks (mode : ExtentMode) (n index : ℕ) :
    (mode.dropBlocks n).atBlock index = mode.atBlock (n + index) := by
  cases mode with
  | raw => rfl
  | overwrite => rfl
  | cow checksums | overwritePartial bitmap => simp [dropBlocks, atBlock, getElem?_drop]

theorem atBlock_takeBlocks (mode : ExtentMode) {n index : ℕ} (h : index < n) :
    (mode.takeBlocks n).atBlock index = mode.atBlock index := by
  cases mode with
  | raw => rfl
  | overwrite => rfl
  | cow checksums | overwritePartial bitmap =>
    simp [takeBlocks, atBlock, getElem?_take_of_lt h]

theorem Fits.dropBlocks (h : mode.Fits b len) : (mode.dropBlocks n).Fits b (len - n * b) := by
  cases mode with
  | raw => trivial
  | overwrite => trivial
  | cow checksums =>
    rcases h with rfl | h
    · exact .inl drop_nil
    · refine .inr ?_
      rw [length_drop, Nat.sub_mul, h]
  | overwritePartial bitmap =>
    have h : bitmap.length * b = len := h
    change (bitmap.drop n).length * b = len - n * b
    rw [length_drop, Nat.sub_mul, h]

theorem Fits.takeBlocks (h : mode.Fits b len) (hn : n * b ≤ len) (hb : 0 < b) :
    (mode.takeBlocks n).Fits b (n * b) := by
  have hle : ∀ k : ℕ, k * b = len → n ≤ k := by
    intro k hk
    exact Nat.le_of_mul_le_mul_right (hk ▸ hn) hb
  cases mode with
  | raw => trivial
  | overwrite => trivial
  | cow checksums =>
    rcases h with rfl | h
    · exact .inl take_nil
    · refine .inr ?_
      rw [length_take, Nat.min_eq_left (hle _ h)]
  | overwritePartial bitmap =>
    have h : bitmap.length * b = len := h
    change (bitmap.take n).length * b = n * b
    rw [length_take, Nat.min_eq_left (hle _ h)]

end ExtentMode

section Cut

variable {b m offset keyId : ℕ} {range : Range} {value : ExtentValue} {mode : ExtentMode}

/-- Dividing the length by the number of entries gives back the block size. -/
private theorem div_length {α : Type} {l : List α} {len : ℕ} (hlen : l.length * b = len)
    (hpos : 0 < len) : len / l.length = b ∧ 0 < l.length := by
  subst hlen
  have hl : 0 < l.length := Nat.pos_of_mul_pos_right hpos
  exact ⟨Nat.mul_div_cancel_left b hl, hl⟩

/-- In a well-formed extent `offset_by` drops whole blocks, and `shrunk` keeps whole blocks. -/
private theorem offsetBy_shrunk_eq (h : ExtentOk b range (.some offset mode keyId)) (cut : ℕ) :
    (ExtentValue.some offset mode keyId).offsetBy cut (range.stop - range.start) =
        .some (offset + cut) (mode.dropBlocks (cut / b)) keyId ∧
      (ExtentValue.some offset mode keyId).shrunk (range.stop - range.start) cut =
        .some offset (mode.takeBlocks (cut / b)) keyId := by
  have hlen : 0 < range.stop - range.start := Nat.sub_pos_of_lt h.nonempty
  have hfits := h.fits offset mode keyId rfl
  cases mode with
  | raw => exact ⟨rfl, rfl⟩
  | overwrite => exact ⟨rfl, rfl⟩
  | cow checksums =>
    rcases hfits with rfl | hfits
    · simp [ExtentValue.offsetBy, ExtentValue.shrunk, ExtentMode.dropBlocks, ExtentMode.takeBlocks]
    · obtain ⟨hdiv, hpos⟩ := div_length hfits hlen
      simp [ExtentValue.offsetBy, ExtentValue.shrunk, ExtentMode.dropBlocks, ExtentMode.takeBlocks,
        hdiv, hpos]
  | overwritePartial bitmap =>
    obtain ⟨hdiv, -⟩ := div_length hfits hlen
    simp [ExtentValue.offsetBy, ExtentValue.shrunk, ExtentMode.dropBlocks, ExtentMode.takeBlocks,
      hdiv]

section

variable (h : ExtentOk b range value) (hm : b ∣ m)
include h hm

/-- Cutting off the blocks before a boundary leaves a well-formed extent. -/
theorem ExtentOk.offsetBy (hlo : range.start ≤ m) (hhi : m < range.stop) :
    ExtentOk b ⟨m, range.stop⟩ (value.offsetBy (m - range.start) (range.stop - range.start)) := by
  refine ⟨h.block_pos, hhi, hm, h.stop_dvd, ?_⟩
  intro offset mode keyId heq
  cases value with
  | none => cases heq
  | some off mode' key =>
    have hfits := h.fits off mode' key rfl
    rw [(offsetBy_shrunk_eq h _).1] at heq
    cases heq
    have hdiv : (m - range.start) / b * b = m - range.start :=
      Nat.div_mul_cancel (Nat.dvd_sub hm h.start_dvd)
    have hcut := hfits.dropBlocks (n := (m - range.start) / b)
    convert hcut using 1
    simp only
    omega

/-- Keeping the blocks before a boundary leaves a well-formed extent. -/
theorem ExtentOk.shrunk (hlo : range.start < m) (hhi : m ≤ range.stop) :
    ExtentOk b ⟨range.start, m⟩ (value.shrunk (range.stop - range.start) (m - range.start)) := by
  refine ⟨h.block_pos, hlo, h.start_dvd, hm, ?_⟩
  intro offset mode keyId heq
  cases value with
  | none => cases heq
  | some off mode' key =>
    have hfits := h.fits off mode' key rfl
    rw [(offsetBy_shrunk_eq h _).2] at heq
    cases heq
    have hdiv : (m - range.start) / b * b = m - range.start :=
      Nat.div_mul_cancel (Nat.dvd_sub hm h.start_dvd)
    have hcut := hfits.takeBlocks (n := (m - range.start) / b) (by omega) h.block_pos
    rwa [hdiv] at hcut

/-- What the rest of a cut extent says about its offsets is what the extent said. -/
theorem ExtentOk.pointAt_offsetBy (hlo : range.start ≤ m) {x : ℕ} (hx : m ≤ x) :
    (value.offsetBy (m - range.start) (range.stop - range.start)).pointAt b m x =
      value.pointAt b range.start x := by
  cases value with
  | none => rfl
  | some off mode key =>
    obtain ⟨k, hk⟩ := Nat.dvd_sub hm h.start_dvd
    have hindex : (m - range.start) / b + (x - m) / b = (x - range.start) / b := by
      have hxs : x - range.start = b * k + (x - m) := by omega
      rw [hxs, hk, Nat.mul_add_div h.block_pos, Nat.mul_div_cancel_left k h.block_pos]
    have hoffset : off + (m - range.start) + (x - m) = off + (x - range.start) := by omega
    rw [(offsetBy_shrunk_eq h _).1]
    simp only [ExtentValue.pointAt, ExtentMode.atBlock_dropBlocks, hindex, hoffset]

/-- What the beginning of a cut extent says about its offsets is what the extent said. -/
theorem ExtentOk.pointAt_shrunk {x : ℕ} (hlo : range.start ≤ x) (hx : x < m) :
    (value.shrunk (range.stop - range.start) (m - range.start)).pointAt b range.start x =
      value.pointAt b range.start x := by
  cases value with
  | none => rfl
  | some off mode key =>
    have hindex : (x - range.start) / b < (m - range.start) / b := by
      apply Nat.div_lt_div_of_lt_of_dvd (Nat.dvd_sub hm h.start_dvd)
      omega
    rw [(offsetBy_shrunk_eq h _).2]
    simp only [ExtentValue.pointAt, mode.atBlock_takeBlocks hindex]

end

end Cut

end Smos.Fxfs
