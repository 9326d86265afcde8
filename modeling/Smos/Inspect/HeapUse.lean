import Smos.Inspect.HeapFree

/-!
The heap as its users see it: a new heap has the header block in use, an allocation puts one more
block in use and freeing a block takes it out of use, with the bytes of the other blocks in use
left alone.
-/
namespace Smos.Inspect.Heap

open Lib.Buddy Lib.Links Container.View Constants Function Nat

variable {h : Heap} {s : Shape} {B : ℕ → Option ℕ} {i k u : ℕ}

/-- The heap while the block for the header is split off: unit 0 starts a free block of order `k`,
and one free block of each order from `k` on is left over.  The lists are not yet those of a
layout, since their end 0 is the index of a free block. -/
structure Initial (h : Heap) (B : ℕ → Option ℕ) (k : ℕ) : Prop where
  size : h.currentSizeBytes = 4096
  fits : 4096 ≤ h.container.length
  hasHeader : h.hasHeader = false
  tiles : Tiles 7 B 256
  blocks : ∀ i l, B i = some l ↔ i = 0 ∧ l = k ∨ k ≤ l ∧ l ≤ 7 ∧ i = 2 ^ l
  first : h.container.view 0 = ⟨k, BlockType.free.toNat, 2 ^ k⟩
  rest : ∀ j, k ≤ j → j ≤ 7 → h.container.view (2 ^ j) = ⟨j, BlockType.free.toNat, 0⟩
  heads : ∀ j, h.freeHeadPerOrder j = if k < j ∧ j ≤ 7 then 2 ^ j else 0

namespace Initial

theorem hasHeaderAt (hi : Initial h B k) (hj : i < 256) : h.container.HasHeader i := by
  have hfits := hi.fits
  unfold Container.HasHeader Container.headerOffset minOrderSize
  omega

/-- The first block is at the head of its list. -/
theorem removeFree (hi : Initial h B k) (hk : k ≤ 7) :
    h.removeFree 0 = some (h.setFreeHead k (2 ^ k)) := by
  have horder : h.container.order 0 = k := congrArg order hi.first
  have hnext : h.container.freeNextIndex 0 = 2 ^ k := congrArg next hi.first
  have hno : ¬numOrders ≤ k := Nat.not_le.mpr (lt_succ_of_le hk)
  have hhead : h.freeHeadPerOrder k = 0 := by simp [hi.heads]
  simp only [Heap.removeFree, horder, hnext, if_neg hno, hhead, if_true]

/-- The heads of the lists without the first block. -/
theorem heads_removed (hi : Initial h B k) (hk : k ≤ 7) (j : ℕ) :
    update h.freeHeadPerOrder k (2 ^ k) j = if k ≤ j ∧ j ≤ 7 then 2 ^ j else 0 := by
  by_cases hj : j = k
  · subst hj
    simp [hk]
  · have hiff : (k < j ∧ j ≤ 7) ↔ (k ≤ j ∧ j ≤ 7) := by omega
    rw [update_of_ne hj, hi.heads]
    simp only [hiff]

theorem splitBlock (hi : Initial h B (k + 1)) (hk : k + 1 ≤ 7) :
    ∃ h', h.splitBlock 0 = some (.ok (), h') ∧ Initial h' (split B 0 k) k := by
  have hpos : 0 < 2 ^ k := Nat.two_pow_pos k
  have hle : 2 ^ k ≤ 2 ^ 6 := Nat.pow_le_pow_right (by decide) (by omega)
  have horder : h.container.order 0 = k + 1 := congrArg order hi.first
  have hbuddy : buddy 0 k = 2 ^ k := by rw [buddy_eq, Nat.zero_xor]
  have hno : ¬numOrders ≤ k + 1 := Nat.not_le.mpr (lt_succ_of_le hk)
  have hhead : h.freeHeadPerOrder k = 0 := by simp [hi.heads]
  have hsmall : 2 ^ k < 2 ^ HeaderFields.freeNextIndex.width := Nat.lt_of_le_of_lt hle (by decide)
  have hzero : h.container.HasHeader 0 := hi.hasHeaderAt (by decide)
  have hbehind : h.container.HasHeader (2 ^ k) := hi.hasHeaderAt (by omega)
  have hset : ∀ (c : Container) (j : ℕ),
      c.setOrder j k = .ok (c.setHeaderField j HeaderFields.order k) := fun c j =>
    Layout.setOrder_eq (by omega)
  obtain ⟨c₂, hc₂⟩ : ∃ c₂, c₂ =
      (h.container.setHeaderField 0 HeaderFields.order k).becomeFree 0 (2 ^ k) := ⟨_, rfl⟩
  obtain ⟨c₃, hc₃⟩ : ∃ c₃, c₃ =
      (c₂.setHeaderField (2 ^ k) HeaderFields.order k).becomeFree (2 ^ k) 0 := ⟨_, rfl⟩
  obtain ⟨hlen, hunit, hv0, hvk⟩ :=
    Layout.view_halves hc₂ hc₃ hzero hbehind (by omega) (by omega) hsmall (by decide)
  refine ⟨{ h with container := c₃, freeHeadPerOrder :=
    Function.update (Function.update h.freeHeadPerOrder (k + 1) (2 ^ (k + 1))) k 0 }, ?_, ?_⟩
  · have hk1 : k + 1 - 1 = k := rfl
    have hkne : k ≠ k + 1 := by omega
    simp only [Heap.splitBlock, horder, if_neg hno, succ_ne_zero, if_false,
      hi.removeFree hk, hk1, hbuddy, Heap.setFreeHead, hset, ← hc₂,
      update_of_ne hkne, hhead, ← hc₃]
  · constructor
    · exact hi.size
    · exact hi.fits.trans_eq hlen.symm
    · exact hi.hasHeader
    · exact hi.tiles.split ((hi.blocks 0 (k + 1)).mpr (.inl ⟨rfl, rfl⟩))
    · intro j l
      have hpow : ∀ {l}, k + 1 ≤ l → 2 ^ k < 2 ^ l := fun hl =>
        Nat.pow_lt_pow_right (by decide) hl
      rw [split_eq_some, hi.blocks, Nat.zero_add]
      constructor
      · rintro (⟨rfl | rfl, rfl⟩ | ⟨hj0, -, ⟨rfl, -⟩ | ⟨hkl, hl7, hj⟩⟩)
        · exact .inl ⟨rfl, rfl⟩
        · exact .inr ⟨Nat.le_refl l, by omega, rfl⟩
        · exact absurd rfl hj0
        · exact .inr ⟨by omega, hl7, hj⟩
      · rintro (⟨rfl, rfl⟩ | ⟨hkl, hl7, rfl⟩)
        · exact .inl ⟨.inl rfl, rfl⟩
        · rcases Nat.eq_or_lt_of_le hkl with rfl | hlt
          · exact .inl ⟨.inr rfl, rfl⟩
          · have hlarge := hpow hlt
            exact .inr ⟨by omega, by omega, .inr ⟨hlt, hl7, rfl⟩⟩
    · exact hv0
    · intro j hkj hj7
      rcases Nat.eq_or_lt_of_le hkj with rfl | hlt
      · exact hvk
      · have hlarge : 2 ^ k < 2 ^ j := Nat.pow_lt_pow_right (by decide) hlt
        have hsame := hunit (2 ^ j) (by omega) (by omega)
        exact (Container.view_of_unit hlen hsame).trans (hi.rest j hlt hj7)
    · intro j
      change Function.update (Function.update h.freeHeadPerOrder (k + 1) (2 ^ (k + 1))) k 0 j = _
      by_cases hjk : j = k
      · subst hjk
        simp
      · rw [update_of_ne hjk, hi.heads_removed hk]
        rfl

theorem splitLoop {fuel : ℕ} (hi : Initial h B k) (h1 : 1 ≤ k) (hk : k ≤ 7) (hfuel : k ≤ fuel) :
    ∃ h' B', splitLoop 0 1 fuel h = some (.ok (), h') ∧ Initial h' B' 1 := by
  induction fuel generalizing h B k with
  | zero => omega
  | succ fuel ih =>
    have horder : h.container.order 0 = k := congrArg order hi.first
    rcases Nat.eq_or_lt_of_le h1 with rfl | hlt
    · refine ⟨h, B, ?_, hi⟩
      simp [Heap.splitLoop, horder]
    · obtain ⟨k, rfl⟩ := exists_eq_succ_of_ne_zero (Nat.ne_of_gt h1)
      obtain ⟨h₁, hsplit, hi₁⟩ := hi.splitBlock hk
      obtain ⟨h', B', hrun, hi'⟩ := ih hi₁ (by omega) (by omega) (by omega)
      refine ⟨h', B', ?_, hi'⟩
      simp only [Heap.splitLoop, horder, if_pos hlt, hsplit, hrun]

end Initial

/-- A heap without a header is one page. -/
theorem empty_initial {c : Container} (hlen : 4096 ≤ c.length) :
    ∃ h B, empty c = some (.ok h) ∧ Initial h B 7 := by
  obtain ⟨c₁, hloop, hlen₁, -, hv0, hv128⟩ := growLoop_page (c := c) (n := 0) 0 257 (by omega)
    (by decide) (by decide) (by decide)
  refine ⟨⟨c₁, 4096, update (fun _ => 0) 7 0, 0, 0, 0, false⟩,
    update (update (fun _ => none) 0 (some 7)) (0 + 2 ^ 7) (some 7), ?_,
    ⟨rfl, hlen.trans_eq hlen₁.symm, rfl, ?_, ?_, hv0, ?_, ?_⟩⟩
  · have hroom : ¬(c.length < 4096 ∨ maxVmoSize < 4096) := by
      have hmax : maxVmoSize = 134217728 := rfl
      omega
    have hpage : pageSizeBytes = 4096 := rfl
    have hmin : BlockIndex.fromOffset 0 = 0 := rfl
    have hcurr : BlockIndex.fromOffset (4096 - 4096 % 4096) = 256 := rfl
    have hloop : growLoop 0 (256 + 1) c 256 0 = some (c₁, 0) := hloop
    simp only [empty, growHeap, hpage, if_neg hroom, Nat.min_eq_right hlen, hmin, hcurr, hloop]
    rfl
  · have hempty : Tiles 7 (fun _ => none) 0 := by
      constructor <;> simp
    exact (hempty.extend (by decide)).extend (by decide)
  · intro i l
    have hseven : 7 ≤ l ∧ l ≤ 7 ∧ i = 2 ^ l ↔ i = 128 ∧ l = 7 := by
      constructor
      · rintro ⟨h1, h2, rfl⟩
        obtain rfl : l = 7 := by omega
        exact ⟨rfl, rfl⟩
      · rintro ⟨rfl, rfl⟩
        decide
    rw [hseven]
    simp only [update_apply, Nat.zero_add, reducePow]
    split_ifs with h128 h0
    · simp [h128, eq_comm]
    · simp [h0, eq_comm]
    · simp [h128, h0]
  · intro j h1 h2
    have hj : j = 7 := by omega
    subst hj
    exact hv128
  · intro j
    simp [update_apply]

def newShape (B : ℕ → Option ℕ) : Shape :=
  { blocks := B
    free := fun j => if 1 ≤ j ∧ j ≤ 7 then [2 ^ j] else []
    limbo := fun _ => False }

theorem mem_newShape : i ∈ (newShape B).free k ↔ 1 ≤ k ∧ k ≤ 7 ∧ i = 2 ^ k := by
  unfold newShape
  by_cases hk : 1 ≤ k ∧ k ≤ 7
  · simp [hk]
  · simp only [hk, if_false, List.not_mem_nil, false_iff]
    exact fun h' => hk ⟨h'.1, h'.2.1⟩

/-- The block at unit 0 is the only one that is found on a free list. -/
theorem findOrder_initial (hi : Initial h B 7) : h.findOrder 1 = some 7 := by
  have hfree : ∀ order, h.isFreeBlock (h.freeHeadPerOrder order) order = (7 == order) := by
    intro order
    have hhead : h.freeHeadPerOrder order = 0 := by
      have hno : ¬(7 < order ∧ order ≤ 7) := by omega
      rw [hi.heads, if_neg hno]
    have horder : h.container.order 0 = 7 := congrArg Container.View.order hi.first
    have htype : h.container.blockType 0 = BlockType.free.toNat :=
      congrArg blockType hi.first
    have hin : ¬h.currentSizeBytes / minOrderSize ≤ 0 := by
      rw [hi.size]
      decide
    rw [hhead, Heap.isFreeBlock, if_neg hin]
    simp [Container.isFree, htype, horder]
  unfold Heap.findOrder
  simp only [hfree]
  decide

/-- What is left over behind the block of the header is free. -/
theorem layout_newShape (hi : Initial h B 1) {c : Container}
    (hlen : c.length = h.container.length) (horder : c.order 0 = 1)
    (htype : c.blockType 0 = BlockType.header.toNat)
    (hrest : ∀ l, 1 ≤ l → l ≤ 7 → c.view (2 ^ l) = ⟨l, BlockType.free.toNat, 0⟩) (n : ℕ) :
    Layout
      { h with container := c, hasHeader := true,
               freeHeadPerOrder := update h.freeHeadPerOrder 1 (2 ^ 1), allocatedBlocks := n }
      (newShape B) := by
  have hblocks := hi.blocks
  constructor
  · exact ⟨⟨0, hi.size⟩, hi.fits.trans_eq hlen.symm |>.trans' hi.size.le,
      hi.size.le.trans (by decide)⟩
  · have hunits : h.units = 256 := by
      unfold units
      rw [hi.size]
      rfl
    change Tiles 7 B h.units
    rw [hunits]
    exact hi.tiles
  · intro j l hj
    rcases (hblocks j l).mp hj with ⟨rfl, rfl⟩ | ⟨h1, h7, rfl⟩
    · exact horder
    · exact congrArg Container.View.order (hrest l h1 h7)
  · exact (hblocks 0 1).mpr (.inl ⟨rfl, rfl⟩)
  · exact htype
  · rfl
  · intro l hl7
    change Chain c.freeNextIndex (update h.freeHeadPerOrder 1 (2 ^ 1) l)
      (if 1 ≤ l ∧ l ≤ 7 then [2 ^ l] else []) 0
    rw [hi.heads_removed (by decide)]
    by_cases hl1 : 1 ≤ l ∧ l ≤ 7
    · rw [if_pos hl1, if_pos hl1]
      refine ⟨rfl, ?_⟩
      have hnext : c.freeNextIndex (2 ^ l) = 0 := congrArg next (hrest l hl1.1 hl1.2)
      exact hnext
    · rw [if_neg hl1, if_neg hl1]
      exact rfl
  · intro l
    change (if 1 ≤ l ∧ l ≤ 7 then [2 ^ l] else []).Nodup
    split <;> simp
  · intro j l hj
    obtain ⟨h1, h7, rfl⟩ := mem_newShape.mp hj
    exact ⟨(hblocks _ l).mpr (.inr ⟨h1, h7, rfl⟩),
      congrArg blockType (hrest l h1 h7), id⟩
  · intro j l hj hjt _
    rcases (hblocks j l).mp hj with ⟨rfl, rfl⟩ | ⟨h1, h7, rfl⟩
    · have : BlockType.header.toNat = BlockType.free.toNat := htype.symm.trans hjt
      exact absurd this (by decide)
    · exact mem_newShape.mpr ⟨h1, h7, rfl⟩

theorem initHeader_spec (hi : Initial h B 7) :
    ∃ h' B', h.initHeader = some (.ok h') ∧ h'.Layout (newShape B') ∧
      ∀ i k, B' i = some k → i ≠ 0 → i ∈ (newShape B').free k := by
  have hfit : Utils.fitOrder (Utils.orderToSize headerOrder) = 1 := by decide
  have hfind := findOrder_initial hi
  have hhead : h.freeHeadPerOrder 7 = 0 := by simp [hi.heads]
  obtain ⟨h₁, B₁, hsplit, hi₁⟩ := hi.splitLoop (by decide) (by decide) (show 7 ≤ 16 by decide)
  have hremove := hi₁.removeFree (by decide)
  have hlenr : (h₁.container.becomeReserved 0).length = h₁.container.length :=
    Container.length_becomeReserved
  have hfits := hi₁.fits
  obtain ⟨c, hheader, hlen, hunit, horder, htype⟩ :=
    Container.becomeHeader_spec (c := h₁.container.becomeReserved 0) (by omega) h₁.currentSizeBytes
  have hrest : ∀ l, 1 ≤ l → l ≤ 7 → c.view (2 ^ l) = ⟨l, BlockType.free.toNat, 0⟩ := by
    intro l h1 h7
    have htwo : 2 ≤ 2 ^ l := Nat.pow_le_pow_right (show 0 < 2 by decide) h1
    have hunit' := (hunit _ htwo).trans
      (Container.unit_becomeReserved (Nat.ne_of_gt (zero_lt_of_lt htwo)))
    exact (Container.view_of_unit (hlen.trans hlenr) hunit').trans (hi₁.rest l h1 h7)
  refine ⟨{ h₁ with container := c, hasHeader := true,
                    freeHeadPerOrder := update h₁.freeHeadPerOrder 1 (2 ^ 1),
                    allocatedBlocks := h₁.allocatedBlocks + 1 }, B₁, ?_, ?_, ?_⟩
  · have hno : ¬numOrders ≤ 1 := by decide
    have hsize : (h₁.setFreeHead 1 (2 ^ 1)).currentSizeBytes = h₁.currentSizeBytes := rfl
    have hcont : (h₁.setFreeHead 1 (2 ^ 1)).container = h₁.container := rfl
    simp only [Heap.initHeader, Heap.allocateBlock, hfit, if_neg hno, hfind, Heap.allocateFrom,
      hhead, hsplit, hremove, hsize, hcont, hheader]
    rfl
  · exact layout_newShape hi₁ (hlen.trans hlenr) horder htype hrest _
  · intro j l hj hj0
    rcases (hi₁.blocks j l).mp hj with ⟨rfl, -⟩ | hpow
    · exact absurd rfl hj0
    · exact mem_newShape.mpr hpow

/-- The heap has the shape `s`, and `used` gives the order of each block in use. -/
structure Holds (h : Heap) (s : Shape) (used : ℕ → Option ℕ) : Prop where
  layout : h.Layout s
  limbo : ∀ j, ¬s.limbo j
  buddies : s.NoBuddies fun _ => False
  used : ∀ i k, used i = some k ↔
    s.blocks i = some k ∧ h.container.blockType i ≠ BlockType.free.toNat

/-- The bytes of the blocks in use are the same, up to the size of the heap in the header block. -/
structure SameUse (h : Heap) (used : ℕ → Option ℕ) (h' : Heap) : Prop where
  length : h'.container.length = h.container.length
  unit : ∀ {i k u}, used i = some k → i ≤ u → u < i + 2 ^ k → u ≠ 1 →
    h'.container.unit u = h.container.unit u

section Use

variable {used : ℕ → Option ℕ} {j l : ℕ}

namespace Holds

variable (hh : h.Holds s used)
include hh

theorem block (hi : used i = some k) : s.blocks i = some k :=
  ((hh.used i k).mp hi).1

theorem header : used 0 = some 1 := by
  refine (hh.used 0 1).mpr ⟨hh.layout.header, ?_⟩
  rw [hh.layout.headerType]
  decide

/-- No block starts at unit 1, which is inside the header block. -/
theorem ne_one (hi : s.blocks i = some k) : i ≠ 1 := by
  rintro rfl
  rw [hh.layout.tiles.none_of_inside hh.layout.header (by decide) (by decide)] at hi
  cases hi

theorem not_spare (hi : used i = some k) (hiu : i ≤ u)
    (hui : u < i + 2 ^ k) : ¬h.Spare s u := by
  obtain ⟨hb, ht⟩ := (hh.used i k).mp hi
  exact hh.layout.not_spare hb (fun hf => ht (hh.layout.mem hf).2.1) (hh.limbo i) hiu hui

theorem not_spare_start (hi : used i = some k) : ¬h.Spare s i :=
  hh.not_spare hi (Nat.le_refl i) (Nat.lt_add_of_pos_right (Nat.two_pow_pos k))

/-- A block that does not start at a spare unit is in use. -/
theorem used_of_not_spare (hb : s.blocks i = some k)
    (hi : ¬h.Spare s i) : used i = some k := by
  refine (hh.used i k).mpr ⟨hb, fun ht => hi (.inr ⟨i, k, hb, ?_, Nat.le_refl i, ?_⟩)⟩
  · exact .inl (hh.layout.listed hb ht (hh.limbo i))
  · exact Nat.lt_add_of_pos_right (Nat.two_pow_pos k)

theorem disjoint (hi : used i = some k) (hj : used j = some l)
    (hij : i < j) : i + 2 ^ k ≤ j :=
  hh.layout.tiles.disjoint (hh.block hi) (hh.block hj) hij

end Holds

/-- The type of a block is in its first unit. -/
theorem blockType_of_unit {c c' : Container} (hlen : c'.length = c.length)
    (hunit : c'.unit i = c.unit i) : c'.blockType i = c.blockType i :=
  congrArg blockType (Container.view_of_unit hlen hunit)

namespace Holds

theorem allocateBlock (hh : h.Holds s used) (size : ℕ) :
    (∃ i h' s', h.allocateBlock size = some (.ok i, h') ∧
      h'.Holds s' (update used i (some (Utils.fitOrder size))) ∧ used i = none ∧
      h'.container.blockType i = BlockType.reserved.toNat ∧ SameUse h used h' ∧
      Retypes h h' s') ∨
    ∃ error n, h.allocateBlock size = some (.error error, { h with failedAllocations := n }) := by
  refine (hh.layout.allocateBlock hh.limbo hh.buddies size).imp_left ?_
  rintro ⟨i, h', s', hrun, hl', ht, hlimbo', hnb', hretype⟩
  have hpos : 0 < 2 ^ Utils.fitOrder size := Nat.two_pow_pos _
  have hspare : h.Spare s i := (ht.spare i).mpr (.inr ⟨Nat.le_refl i, by omega⟩)
  have hnone : used i = none := by
    cases hi : used i with
    | none => rfl
    | some k => exact absurd hspare (hh.not_spare_start hi)
  have htype : ∀ {j}, ¬h.Spare s j → j ≠ 1 →
      h'.container.blockType j = h.container.blockType j := fun hj h1 =>
    blockType_of_unit ht.length (ht.unit _ hj h1)
  refine ⟨i, h', s', hrun, ⟨hl', hlimbo', hnb', fun j l => ?_⟩, hnone, ht.blockType,
    ⟨ht.length, fun hj hju huj h1 => ht.unit _ (hh.not_spare hj hju huj) h1⟩, hretype⟩
  by_cases hji : j = i
  · subst hji
    rw [update_self, ht.block, ht.blockType]
    refine ⟨fun heq => ⟨heq, by decide⟩, And.left⟩
  · rw [update_of_ne hji]
    constructor
    · intro hj
      obtain ⟨hb, hbt⟩ := (hh.used j l).mp hj
      have hns := hh.not_spare_start hj
      exact ⟨(ht.blocks j hns).trans hb, (htype hns (hh.ne_one hb)).trans_ne hbt⟩
    · rintro ⟨hb, hbt⟩
      have hns' : ¬h'.Spare s' j := hl'.not_spare hb (fun hf => hbt (hl'.mem hf).2.1)
        (hlimbo' j) (Nat.le_refl j) (Nat.lt_add_of_pos_right (Nat.two_pow_pos l))
      have hns : ¬h.Spare s j := by
        rw [ht.spare]
        rintro (hs | ⟨hij, hji'⟩)
        · exact hns' hs
        · exact hji (hl'.tiles.eq_of_mem ht.block hb hij hji')
      exact hh.used_of_not_spare ((ht.blocks j hns).symm.trans hb) hns

theorem freeBlock (hh : h.Holds s used) (hi : used i = some k) (hi0 : i ≠ 0) :
    ∃ h' s', h.freeBlock i = some (.ok (), h') ∧
      h'.Holds s' (update used i none) ∧
      SameUse h (update used i none) h' ∧ Retypes h h' s' := by
  obtain ⟨hb, ht⟩ := (hh.used i k).mp hi
  obtain ⟨h', s', hrun, hl', hkeep, hlimbo', hnb', hretype⟩ :=
    hh.layout.freeBlock hh.limbo hh.buddies hb hi0 ht
  have hspare : ∀ u, h'.Spare s' u ↔ h.Spare s u ∨ i ≤ u ∧ u < i + 2 ^ k := fun u =>
    (hkeep.spare u).trans (Layout.spare_release hh.limbo hb)
  -- The blocks that stay in use are apart from the freed one.
  have hns : ∀ {j l u}, j ≠ i → used j = some l → j ≤ u → u < j + 2 ^ l →
      ¬h.Spare (s.release i) u := by
    intro j l u hji hj hju huj
    rw [Layout.spare_release hh.limbo hb]
    rintro (hs | ⟨hiu, hui⟩)
    · exact hh.not_spare hj hju huj hs
    · rcases Nat.lt_or_gt_of_ne hji with hlt | hgt
      · have hd := hh.disjoint hj hi hlt
        omega
      · have hd := hh.disjoint hi hj hgt
        omega
  have hstart : ∀ {j l}, j ≠ i → used j = some l → ¬h.Spare (s.release i) j := fun hji hj =>
    hns hji hj (Nat.le_refl _) (Nat.lt_add_of_pos_right (Nat.two_pow_pos _))
  have hrest : ∀ {j l}, update used i none j = some l → j ≠ i ∧ used j = some l := by
    intro j l hj
    by_cases hji : j = i
    · rw [hji, update_self] at hj
      cases hj
    · rw [update_of_ne hji] at hj
      exact ⟨hji, hj⟩
  refine ⟨h', s', hrun, ⟨hl', hlimbo', hnb', fun j l => ⟨fun hj => ?_, ?_⟩⟩,
    ⟨hkeep.length, fun hj hju huj h1 => ?_⟩, hretype⟩
  · obtain ⟨hji, hj⟩ := hrest hj
    obtain ⟨hjb, hjt⟩ := (hh.used j l).mp hj
    have hjs := hstart hji hj
    exact ⟨(hkeep.blocks j hjs).trans hjb,
      (blockType_of_unit hkeep.length (hkeep.unit j hjs (hh.ne_one hjb))).trans_ne hjt⟩
  · rintro ⟨hjb, hjt⟩
    have hjs' : ¬h'.Spare s' j := hl'.not_spare hjb (fun hf => hjt (hl'.mem hf).2.1)
      (hlimbo' j) (Nat.le_refl j) (Nat.lt_add_of_pos_right (Nat.two_pow_pos l))
    have hjs : ¬h.Spare s j := fun hs => hjs' ((hspare j).mpr (.inl hs))
    have hji : j ≠ i := by
      rintro rfl
      exact hjs' ((hspare j).mpr (.inr ⟨Nat.le_refl j, Nat.lt_add_of_pos_right
        (Nat.two_pow_pos k)⟩))
    rw [update_of_ne hji]
    refine hh.used_of_not_spare ?_ hjs
    exact (hkeep.blocks j fun hs => hjs' ((hkeep.spare j).mpr hs)).symm.trans hjb
  · obtain ⟨hji, hj⟩ := hrest hj
    exact hkeep.unit _ (hns hji hj hju huj) h1

end Holds

/-- Every container of a page or more gives a heap with only the header in use. -/
theorem new_holds {c : Container} (hlen : 4096 ≤ c.length) :
    ∃ h B, new c = some (.ok h) ∧
      h.Holds (newShape B) (update (fun _ => none) 0 (some 1)) := by
  obtain ⟨h₁, B, hempty, hi⟩ := empty_initial hlen
  obtain ⟨h, B', hinit, hl, hfree⟩ := initHeader_spec hi
  refine ⟨h, B', by simp only [new, hempty, hinit], hl, fun _ => id, ?_, fun i k => ?_⟩
  · intro j l hl7 hj hj'
    obtain ⟨h1, -, rfl⟩ := mem_newShape.mp hj
    obtain ⟨-, -, hx⟩ := mem_newShape.mp hj'
    have hpos : 0 < 2 ^ l := Nat.two_pow_pos l
    rw [Nat.xor_self] at hx
    omega
  · by_cases hi0 : i = 0
    · subst hi0
      have htype : h.container.blockType 0 ≠ BlockType.free.toNat := by
        rw [hl.headerType]
        decide
      rw [hl.header]
      exact ⟨fun heq => ⟨heq, htype⟩, And.left⟩
    · rw [update_of_ne hi0]
      refine ⟨nofun, fun hb => absurd (hl.mem (hfree i k hb.1 hi0)).2.1 hb.2⟩

end Use

end Smos.Inspect.Heap
