import Smos.Lib.Bytes

/-!
The bytes of an Inspect VMO and the bit fields of its blocks.

A block is known by its index, which counts units of 16 bytes.  Its first 64-bit word is the header
of the block and its second word starts the payload; the fields of both are ranges of bits.
-/
namespace Smos.Inspect

open Lib.Bytes

abbrev Container := List UInt8

abbrev BlockIndex := ℕ

inductive FormatError where
  | invalidOffset (offset : ℕ)
  | invalidBlockOrder (order : ℕ)
  | sizeNotWritten (size : ℕ)
  deriving DecidableEq, Repr

namespace Constants

def pageSizeBytes : ℕ := 4096
def headerSizeBytes : ℕ := 8
def headerMagicNumber : ℕ := 0x50534e49
def headerVersionNumber : ℕ := 2
def numOrders : ℕ := 8
def minOrderSize : ℕ := 16
def maxOrderSize : ℕ := 2048
def maxVmoSize : ℕ := 128 * 1024 * 1024
def headerOrder : ℕ := 1

/-- The generation count that marks a VMO as frozen, `u64::MAX - 1`. -/
def vmoFrozen : BitVec 64 := 0xfffffffffffffffe#64

end Constants

inductive BlockType where
  | free | reserved | header | nodeValue | intValue | uintValue | doubleValue | bufferValue
  | extent | name | tombstone | arrayValue | linkValue | boolValue | stringReference
  deriving DecidableEq, Repr

namespace BlockType

def toNat : BlockType → ℕ
  | free => 0
  | reserved => 1
  | header => 2
  | nodeValue => 3
  | intValue => 4
  | uintValue => 5
  | doubleValue => 6
  | bufferValue => 7
  | extent => 8
  | name => 9
  | tombstone => 10
  | arrayValue => 11
  | linkValue => 12
  | boolValue => 13
  | stringReference => 14

end BlockType

structure BitField where
  msb : ℕ
  lsb : ℕ

namespace BitField

def mask (f : BitField) : BitVec 64 := (1#64 <<< (f.msb - f.lsb + 1)) - 1#64

def get (f : BitField) (value : BitVec 64) : ℕ := ((value >>> f.lsb) &&& f.mask).toNat

end BitField

namespace HeaderFields

def order : BitField := ⟨3, 0⟩
def blockType : BitField := ⟨15, 8⟩
def headerVersion : BitField := ⟨31, 16⟩
def headerMagic : BitField := ⟨63, 32⟩

end HeaderFields

namespace Container

variable {c : Container} {offset : ℕ} {v : BitVec 64}

def getSliceAt (c : Container) (offset size : ℕ) : Option (List UInt8) :=
  if c.length ≤ offset ∨ c.length < offset + size then none else some (slice c offset size)

def getU32 (c : Container) (offset : ℕ) : Option (BitVec 32) :=
  (c.getSliceAt offset 4).map fun bytes => BitVec.ofNat 32 (ofLE bytes)

def getU64 (c : Container) (offset : ℕ) : Option (BitVec 64) :=
  (c.getSliceAt offset 8).map fun bytes => BitVec.ofNat 64 (ofLE bytes)

def setU64 (c : Container) (offset : ℕ) (value : BitVec 64) : Container :=
  if c.length < offset + 8 then c else splice c offset (leBytes 8 value.toNat)

@[simp] theorem length_setU64 : (c.setU64 offset v).length = c.length := by
  unfold setU64
  split
  · rfl
  · exact length_splice (by rw [length_leBytes]; omega)

/-- A word inside the container, read as a number. -/
theorem getU64_eq (h : offset + 8 ≤ c.length) :
    c.getU64 offset = some (BitVec.ofNat 64 (ofLE (slice c offset 8))) := by
  rw [getU64, getSliceAt, if_neg (by omega), Option.map_some]

theorem getU64_setU64_self (h : offset + 8 ≤ c.length) :
    (c.setU64 offset v).getU64 offset = some v := by
  have hself : slice (splice c offset (leBytes 8 v.toNat)) offset 8 = leBytes 8 v.toNat := by
    have hroom : offset + (leBytes 8 v.toNat).length ≤ c.length := by
      exact h
    simpa only [length_leBytes] using slice_splice_self hroom
  rw [getU64_eq (by rw [length_setU64]; omega), setU64, if_neg (by omega), hself,
    ofLE_leBytes_of_lt v.isLt, BitVec.ofNat_toNat, BitVec.setWidth_eq]

/-- Bytes outside a written word stay. -/
theorem slice_setU64 {pos n : ℕ} (hdisj : pos + n ≤ offset ∨ offset + 8 ≤ pos) :
    slice (c.setU64 offset v) pos n = slice c pos n := by
  unfold setU64
  split
  · rfl
  · exact slice_splice_of_disjoint (by rw [length_leBytes]; omega)
      (by rw [length_leBytes]; omega)

def headerOffset (index : BlockIndex) : ℕ := index * Constants.minOrderSize

def payloadOffset (index : BlockIndex) : ℕ := headerOffset index + Constants.headerSizeBytes

def headerField (c : Container) (index : BlockIndex) (f : BitField) : ℕ :=
  match c.getU64 (headerOffset index) with
  | some value => f.get value
  | none => 0

def payloadValue (c : Container) (index : BlockIndex) : BitVec 64 :=
  (c.getU64 (payloadOffset index)).getD 0

def setPayloadValue (c : Container) (index : BlockIndex) (value : BitVec 64) : Container :=
  c.setU64 (payloadOffset index) value

def headerIndex : BlockIndex := 0

def order (c : Container) (index : BlockIndex) : ℕ := c.headerField index HeaderFields.order

def isHeader (c : Container) : Bool :=
  c.headerField headerIndex HeaderFields.blockType == BlockType.header.toNat

def magicNumber (c : Container) : ℕ := c.headerField headerIndex HeaderFields.headerMagic

def version (c : Container) : ℕ := c.headerField headerIndex HeaderFields.headerVersion

def generationCount (c : Container) : BitVec 64 := c.payloadValue headerIndex

def vmoSize (c : Container) : Except FormatError (Option ℕ) :=
  if c.order headerIndex ≠ Constants.headerOrder then .ok none
  else
    match c.getU32 (headerOffset (headerIndex + 1)) with
    | some value => .ok (some value.toNat)
    | none => .error (.invalidOffset (headerOffset (headerIndex + 1)))

def isLocked (c : Container) : Bool := c.generationCount &&& 1#64 == 1#64

def incrementGenerationCount (c : Container) : Container :=
  c.setPayloadValue headerIndex (c.generationCount + 1#64)

end Container

end Smos.Inspect
