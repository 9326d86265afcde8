import Smos.Inspect.Fields

/-!
The conversions of blocks between the types that the heap deals with, and what they leave in the
order, the type and the next index of a block.
-/
namespace Smos.Inspect

open Lib.Bytes Constants

namespace Container

variable {c : Container} {index j : BlockIndex} {next order : ℕ}

def blockType (c : Container) (index : BlockIndex) : ℕ :=
  c.headerField index HeaderFields.blockType

def isFree (c : Container) (index : BlockIndex) : Bool :=
  c.blockType index == BlockType.free.toNat

def freeNextIndex (c : Container) (index : BlockIndex) : BlockIndex :=
  c.headerField index HeaderFields.freeNextIndex

def setFreeNextIndex (c : Container) (index next : BlockIndex) : Container :=
  c.setHeaderField index HeaderFields.freeNextIndex next

def setBlockType (c : Container) (index : BlockIndex) (blockType : BlockType) : Container :=
  c.setHeaderField index HeaderFields.blockType blockType.toNat

def becomeFree (c : Container) (index next : BlockIndex) : Container :=
  let c := c.setHeaderField index HeaderFields.freeReserved 0
  let c := c.setBlockType index .free
  let c := c.setFreeNextIndex index next
  c.setHeaderField index HeaderFields.freeEmpty 0

def setOrder (c : Container) (index : BlockIndex) (order : ℕ) : Except FormatError Container :=
  if Constants.numOrders ≤ order then .error (.invalidBlockOrder order)
  else .ok (c.setHeaderField index HeaderFields.order order)

def free (c : Container) (index : BlockIndex) (order : ℕ) (nextFree : BlockIndex) :
    Except FormatError Container :=
  if Constants.numOrders ≤ order then .error (.invalidBlockOrder order)
  else
    let c := c.setHeaderValue index 0
    let c := c.setHeaderField index HeaderFields.order order
    let c := c.setBlockType index .free
    .ok (c.setFreeNextIndex index nextFree)

def becomeReserved (c : Container) (index : BlockIndex) : Container :=
  let c := c.setBlockType index .reserved
  c.setHeaderField index HeaderFields.reservedEmpty 0

def setU32 (c : Container) (offset value : ℕ) : Option Container :=
  if c.length < offset + 4 then none else some (splice c offset (leBytes 4 value))

/-- The size in the `HEADER` block, which only a block of order `HEADER_ORDER` has room for. -/
def setVmoSize (c : Container) (size : ℕ) : Except FormatError Container :=
  if c.order headerIndex ≠ Constants.headerOrder then .ok c
  else
    match c.setU32 (headerOffset (headerIndex + 1)) size with
    | some c => .ok c
    | none => .error (.sizeNotWritten size)

def becomeHeader (c : Container) (size : ℕ) : Except FormatError Container :=
  let c := c.setHeaderField headerIndex HeaderFields.order Constants.headerOrder
  let c := c.setBlockType headerIndex .header
  let c := c.setHeaderField headerIndex HeaderFields.headerMagic Constants.headerMagicNumber
  let c := c.setHeaderField headerIndex HeaderFields.headerVersion Constants.headerVersionNumber
  let c := c.setPayloadValue headerIndex 0
  c.setVmoSize size

section Fields

variable {f g : BitField} {value : ℕ} {v : BitVec 64}

@[simp] theorem hasHeader_setHeaderField :
    (c.setHeaderField index f value).HasHeader j ↔ c.HasHeader j := by
  unfold HasHeader
  rw [length_setHeaderField]

@[simp] theorem hasHeader_setHeaderValue :
    (c.setHeaderValue index v).HasHeader j ↔ c.HasHeader j := by
  unfold HasHeader
  rw [length_setHeaderValue]

theorem freeNextIndex_lt (c : Container) (index : BlockIndex) :
    c.freeNextIndex index < 2 ^ HeaderFields.freeNextIndex.width := by
  unfold freeNextIndex headerField
  split
  · exact BitField.get_lt (by decide)
  · decide

end Fields

structure View where
  order : ℕ
  blockType : ℕ
  next : ℕ

def view (c : Container) (index : BlockIndex) : View :=
  ⟨c.order index, c.blockType index, c.freeNextIndex index⟩

theorem view_of_unit {c' : Container} (hlen : c'.length = c.length)
    (h : c'.unit index = c.unit index) : c'.view index = c.view index := by
  simp only [view, order, blockType, freeNextIndex, headerField_of_unit hlen h]

section Conversions

theorem view_setFreeNextIndex (h : c.HasHeader index)
    (hnext : next < 2 ^ HeaderFields.freeNextIndex.width) :
    (c.setFreeNextIndex index next).view index = { c.view index with next := next } := by
  simp (disch := first | assumption | decide) only [view, setFreeNextIndex, order, blockType,
    freeNextIndex, headerField_set_self, headerField_set_of_apart]

@[simp] theorem length_setFreeNextIndex : (c.setFreeNextIndex index next).length = c.length :=
  length_setHeaderField

theorem view_setHeaderField_order (h : c.HasHeader index)
    (horder : order < 2 ^ HeaderFields.order.width) :
    (c.setHeaderField index HeaderFields.order order).view index =
      { c.view index with order := order } := by
  simp (disch := first | assumption | decide) only [view, Container.order, blockType,
    freeNextIndex, headerField_set_self, headerField_set_of_apart]

theorem view_becomeFree (h : c.HasHeader index)
    (hnext : next < 2 ^ HeaderFields.freeNextIndex.width) :
    (c.becomeFree index next).view index =
      { c.view index with blockType := BlockType.free.toNat, next := next } := by
  simp (disch := first | assumption | decide | (simp only [hasHeader_setHeaderField]; assumption))
    only [view, becomeFree, setBlockType, setFreeNextIndex, order, blockType, freeNextIndex,
    headerField_set_self, headerField_set_of_apart]

theorem unit_becomeFree (h : j ≠ index) : (c.becomeFree index next).unit j = c.unit j := by
  simp only [becomeFree, setBlockType, setFreeNextIndex, unit_setHeaderField h]

@[simp] theorem length_becomeFree : (c.becomeFree index next).length = c.length := by
  simp [becomeFree, setBlockType, setFreeNextIndex]

theorem unit_becomeReserved (h : j ≠ index) : (c.becomeReserved index).unit j = c.unit j := by
  simp only [becomeReserved, setBlockType, unit_setHeaderField h]

@[simp] theorem length_becomeReserved : (c.becomeReserved index).length = c.length := by
  simp [becomeReserved, setBlockType]

theorem view_becomeReserved (h : c.HasHeader index) :
    ((c.becomeReserved index).view index).order = c.order index ∧
      ((c.becomeReserved index).view index).blockType = BlockType.reserved.toNat := by
  simp (disch := first | assumption | decide | (simp only [hasHeader_setHeaderField]; assumption))
    only [view, becomeReserved, setBlockType, order, blockType, headerField_set_self,
    headerField_set_of_apart, and_self]

/-- What initializing a free block leaves. -/
theorem free_spec (h : c.HasHeader index) (horder : order < numOrders)
    (hnext : next < 2 ^ HeaderFields.freeNextIndex.width) :
    ∃ c', c.free index order next = .ok c' ∧ c'.length = c.length ∧
      (∀ j, j ≠ index → c'.unit j = c.unit j) ∧
      c'.view index = ⟨order, BlockType.free.toNat, next⟩ := by
  have horder' : order < 2 ^ HeaderFields.order.width :=
    Nat.lt_of_lt_of_le horder (by decide)
  refine ⟨_, by rw [free, if_neg (Nat.not_le.mpr horder)], by simp [setBlockType, setFreeNextIndex],
    fun j hj => ?_, ?_⟩
  · simp only [setBlockType, setFreeNextIndex, unit_setHeaderField hj, unit_setHeaderValue hj]
  · simp (disch := first | assumption | decide |
        (simp only [hasHeader_setHeaderField, hasHeader_setHeaderValue]; assumption))
      only [view, setBlockType, setFreeNextIndex, Container.order, blockType, freeNextIndex,
      headerField_set_self, headerField_set_of_apart]

theorem setVmoSize_spec (hlen : 20 ≤ c.length) (size : ℕ) :
    ∃ c', c.setVmoSize size = .ok c' ∧ c'.length = c.length ∧
      ∀ j, j ≠ 1 → c'.unit j = c.unit j := by
  by_cases ho : c.order headerIndex = headerOrder
  · have hoff : headerOffset (headerIndex + 1) = 16 := rfl
    have hroom : 16 + (leBytes 4 size).length ≤ c.length := by
      exact hlen
    refine ⟨splice c 16 (leBytes 4 size), ?_, length_splice hroom, fun j hj => ?_⟩
    · rw [setVmoSize, if_neg (not_not.mpr ho), hoff, setU32, if_neg (Nat.not_lt.mpr hlen)]
    · unfold unit headerOffset minOrderSize
      refine slice_splice_of_disjoint hroom ?_
      rw [length_leBytes]
      rcases Nat.lt_or_gt_of_ne hj with hlt | hgt <;> omega
  · exact ⟨c, by rw [setVmoSize, if_pos ho], rfl, fun _ _ => rfl⟩

theorem unit_setPayloadValue {v : BitVec 64} (h : j ≠ index) :
    (c.setPayloadValue index v).unit j = c.unit j := by
  refine slice_setU64 ?_
  unfold payloadOffset headerOffset minOrderSize headerSizeBytes
  rcases Nat.lt_or_gt_of_ne h with hlt | hgt <;> omega

/-- A payload is behind the header. -/
theorem headerField_setPayloadValue {v : BitVec 64} {g : BitField} :
    (c.setPayloadValue index v).headerField index g = c.headerField index g := by
  have hslice : slice (c.setPayloadValue index v) (headerOffset index) 8 =
      slice c (headerOffset index) 8 := by
    refine slice_setU64 (.inl ?_)
    exact Nat.le_refl _
  unfold headerField getU64 getSliceAt
  rw [hslice, setPayloadValue, length_setU64]

theorem becomeHeader_spec (hlen : 20 ≤ c.length) (size : ℕ) :
    ∃ c', c.becomeHeader size = .ok c' ∧ c'.length = c.length ∧
      (∀ j, 2 ≤ j → c'.unit j = c.unit j) ∧ c'.order headerIndex = headerOrder ∧
      c'.blockType headerIndex = BlockType.header.toNat := by
  have hh : c.HasHeader headerIndex := by
    unfold HasHeader headerOffset headerIndex
    omega
  set c₁ := (c.setHeaderField headerIndex HeaderFields.order headerOrder) with hc₁
  set c₂ := c₁.setBlockType headerIndex .header with hc₂
  set c₃ := c₂.setHeaderField headerIndex HeaderFields.headerMagic headerMagicNumber
    with hc₃
  set c₄ := c₃.setHeaderField headerIndex HeaderFields.headerVersion
    headerVersionNumber with hc₄
  set c₅ := c₄.setPayloadValue headerIndex 0 with hc₅
  have hlen₅ : c₅.length = c.length := by
    simp [hc₅, hc₄, hc₃, hc₂, hc₁, setPayloadValue, setBlockType]
  obtain ⟨c', hset, hlen', hunit⟩ := c₅.setVmoSize_spec (by rwa [hlen₅]) size
  have hfields : c'.order headerIndex = c₄.order headerIndex ∧
      c'.blockType headerIndex = c₄.blockType headerIndex := by
    unfold Container.order blockType
    rw [headerField_of_unit hlen' (hunit headerIndex (by decide)),
      headerField_of_unit hlen' (hunit headerIndex (by decide)), headerField_setPayloadValue,
      headerField_setPayloadValue]
    exact ⟨rfl, rfl⟩
  refine ⟨c', hset, hlen'.trans hlen₅, fun j hj => ?_, hfields.1.trans ?_, hfields.2.trans ?_⟩
  · have hj0 : j ≠ headerIndex := Nat.ne_of_gt (Nat.lt_of_lt_of_le (by decide) hj)
    have hj1 : j ≠ 1 := Nat.ne_of_gt (Nat.lt_of_lt_of_le (by decide) hj)
    rw [hunit j hj1, unit_setPayloadValue hj0, unit_setHeaderField hj0, unit_setHeaderField hj0,
      hc₂, setBlockType, unit_setHeaderField hj0, unit_setHeaderField hj0]
  · simp (disch := first | assumption | decide | (simp only [hasHeader_setHeaderField]; assumption))
      only [hc₄, hc₃, hc₂, hc₁, setBlockType, Container.order, headerField_set_self,
      headerField_set_of_apart]
  · simp (disch := first | assumption | decide | (simp only [hasHeader_setHeaderField]; assumption))
      only [hc₄, hc₃, hc₂, hc₁, setBlockType, blockType, headerField_set_self,
      headerField_set_of_apart]

end Conversions

end Container

end Smos.Inspect
