import Smos.Inspect.HeapLayout

/-!
Allocation: a free block is split down to the smallest order that fits, and the heap grows by a
page if there is none.
-/
namespace Smos.Inspect.Heap

open Lib.Buddy Lib.Links Container Constants HeaderFields Shape Function Nat

variable {h h' : Heap} {s : Shape} {i k u j l m n order : ℕ} {c : Container}

/-- The source's buddy is the block's index with the bit of its size flipped. -/
theorem buddy_eq (index order : ℕ) : buddy index order = index ^^^ 2 ^ order := by
  have hsize : BlockIndex.fromOffset (Utils.orderToSize order) = 2 ^ order := by
    unfold BlockIndex.fromOffset Utils.orderToSize minOrderSize
    rw [shiftLeft_eq]
    exact Nat.mul_div_cancel_left _ (by decide)
  rw [buddy, hsize]

def Shape.split (s : Shape) (i k : ℕ) : Shape :=
  { s with
    blocks := Lib.Buddy.split s.blocks i k
    free := update (update s.free (k + 1) ((s.free (k + 1)).erase i)) k
      (i :: (i + 2 ^ k) :: s.free k) }

theorem Shape.mem_split (hnd : (s.free (k + 1)).Nodup) :
    j ∈ (s.split i k).free l ↔
      l = k ∧ (j = i ∨ j = i + 2 ^ k) ∨ j ∈ s.free l ∧ (l = k + 1 → j ≠ i) := by
  unfold split
  by_cases hlk : l = k
  · subst hlk
    simp [or_assoc]
  · by_cases hlk' : l = k + 1
    · subst hlk'
      simp [hnd.mem_erase_iff, and_comm]
    · simp [hlk, hlk']

namespace Layout

/-- What is written when a block becomes a free block of an order. -/
theorem view_order_free {next : ℕ} (hj : c.HasHeader j)
    (horder : order ≤ 7) (hnext : next < 2 ^ freeNextIndex.width) :
    ((c.setHeaderField j HeaderFields.order order).becomeFree j next).view j =
      ⟨order, BlockType.free.toNat, next⟩ := by
  have hlt : order < 2 ^ HeaderFields.order.width := Nat.lt_of_le_of_lt horder (by decide)
  rw [view_becomeFree (hasHeader_setHeaderField.mpr hj) hnext,
    view_setHeaderField_order hj hlt]

theorem setOrder_eq (horder : order ≤ 7) :
    c.setOrder j order = .ok (c.setHeaderField j HeaderFields.order order) := by
  have hno : ¬numOrders ≤ order := Nat.not_le.mpr (lt_succ_of_le horder)
  rw [setOrder, if_neg hno]

/-- The header writes of a split: both halves are free blocks, the first in front of the other. -/
theorem view_halves {c₂ c₃ : Container} {i next : ℕ}
    (h₂ : c₂ = (c.setHeaderField i HeaderFields.order order).becomeFree i j)
    (h₃ : c₃ = (c₂.setHeaderField j HeaderFields.order order).becomeFree j next)
    (hi : c.HasHeader i) (hj : c.HasHeader j) (hne : i ≠ j) (horder : order ≤ 7)
    (hlt : j < 2 ^ freeNextIndex.width)
    (hnext : next < 2 ^ freeNextIndex.width) :
    c₃.length = c.length ∧ (∀ l, l ≠ i → l ≠ j → c₃.unit l = c.unit l) ∧
      c₃.view i = ⟨order, BlockType.free.toNat, j⟩ ∧
      c₃.view j = ⟨order, BlockType.free.toNat, next⟩ := by
  have hlen₂ : c₂.length = c.length := by simp [h₂]
  have hlen₃ : c₃.length = c₂.length := by simp [h₃]
  have hunit : ∀ l, l ≠ j → c₃.unit l = c₂.unit l := fun l hlj => by
    rw [h₃, unit_becomeFree hlj, unit_setHeaderField hlj]
  refine ⟨hlen₃.trans hlen₂, fun l hli hlj => ?_, ?_, ?_⟩
  · rw [hunit l hlj, h₂, unit_becomeFree hli, unit_setHeaderField hli]
  · rw [view_of_unit hlen₃ (hunit i hne), h₂]
    exact view_order_free hi horder hlt
  · rw [h₃]
    refine view_order_free ?_ horder hnext
    unfold Container.HasHeader at hj ⊢
    rwa [hlen₂]

section Split

variable {c₁ c₃ : Container} {heads : ℕ → BlockIndex}

/-- The header writes of a split give the layout with the two halves at the head of their list. -/
theorem of_split (hl : h.Layout s) (hi : i ∈ s.free (k + 1)) (hnolimbo : ¬s.limbo (i + 2 ^ k))
    (hl₁ : Layout { h with container := c₁, freeHeadPerOrder := heads } (s.unlist i (k + 1)))
    (hlen₃ : c₃.length = c₁.length) (hvi : c₃.view i = ⟨k, BlockType.free.toNat, i + 2 ^ k⟩)
    (hvj : c₃.view (i + 2 ^ k) = ⟨k, BlockType.free.toNat, heads k⟩)
    (hvo : ∀ j, j ≠ i → j ≠ i + 2 ^ k → c₃.view j = c₁.view j) :
    Layout { h with container := c₃, freeHeadPerOrder := update heads k i }
      (s.split i k) := by
  obtain ⟨hb, -, hlimbo⟩ := hl.mem hi
  have hpos : 0 < 2 ^ k := Nat.two_pow_pos k
  have hbn : s.blocks (i + 2 ^ k) = none := hl.tiles.none_of_inside hb (by omega) (by omega)
  have hi0 : i ≠ 0 := fun h0 => hl.zero_not_free (h0 ▸ hi)
  have hend : 0 ≠ i + 2 ^ k := by omega
  refine hl₁.prepend [i, i + 2 ^ k]
    ⟨hl.sized.pages, hlen₃.symm ▸ hl₁.sized.fits, hl.sized.bound⟩ (hl.tiles.split hb) hl.hasHeader
    (by simp [hi0.symm, hend]) (fun l hlk => update_of_ne hlk _ _) ?_ (by simp)
    (by simp [Shape.split, unlist]) ?_ ?_
  · exact ⟨update_self _ _ _, congrArg View.next hvi,
      congrArg View.next hvj⟩
  · intro j hj
    rcases List.mem_pair.mp hj with rfl | rfl
    · exact ⟨split_eq_some.mpr (.inl ⟨.inl rfl, rfl⟩), congrArg View.order hvi,
        congrArg View.blockType hvi, hlimbo, fun l hj => (hl₁.mem hj).2.2 (.inl rfl)⟩
    · refine ⟨split_eq_some.mpr (.inl ⟨.inr rfl, rfl⟩), congrArg View.order hvj,
        congrArg View.blockType hvj, hnolimbo, fun l hj => ?_⟩
      exact absurd (hbn.symm.trans (hl₁.mem hj).1) (by simp)
  · intro j hj
    obtain ⟨hji, hjb⟩ := not_or.mp (mt List.mem_pair.mpr hj)
    refine ⟨?_, ?_, fun _ _ => hvo j hji hjb⟩
    · simp [Shape.split, unlist, Lib.Buddy.split, hji, hjb]
    · simp [Shape.split, unlist, hji]

theorem keeps_split (hl : h.Layout s) (hi : i ∈ s.free (k + 1))
    (hkeep₁ : Keeps h s { h with container := c₁, freeHeadPerOrder := heads }
      (s.unlist i (k + 1)))
    (hlen₃ : c₃.length = c₁.length)
    (hunit : ∀ j, j ≠ i → j ≠ i + 2 ^ k → c₃.unit j = c₁.unit j) :
    Keeps h s { h with container := c₃, freeHeadPerOrder := update heads k i }
      (s.split i k) := by
  have hb := (hl.mem hi).1
  have hpos : 0 < 2 ^ k := Nat.two_pow_pos k
  have hspare : ∀ {u}, i ≤ u → u < i + 2 ^ (k + 1) → h.Spare s u := fun h1 h2 =>
    .inr ⟨i, k + 1, hb, .inl hi, h1, h2⟩
  refine ⟨fun u => or_congr Iff.rfl ⟨?_, ?_⟩, ?_, ?_, hlen₃.trans hkeep₁.length⟩
  · rintro ⟨j, l, hjb, hj, hju, huj⟩
    rcases split_eq_some.mp hjb with ⟨rfl | rfl, rfl⟩ | ⟨hji, hjb', hjb⟩
    · exact ⟨j, l + 1, hb, .inl hi, hju, by omega⟩
    · exact ⟨i, l + 1, hb, .inl hi, by omega, by omega⟩
    · refine ⟨j, l, hjb, ?_, hju, huj⟩
      rcases hj with hj | hj
      · rcases (mem_split (hl.nodup _)).mp hj with ⟨rfl, rfl | rfl⟩ | ⟨hj, -⟩
        · exact absurd rfl hji
        · exact absurd rfl hjb'
        · exact .inl hj
      · exact .inr hj
  · rintro ⟨j, l, hjb, hj, hju, huj⟩
    by_cases hji : j = i
    · subst hji
      obtain rfl := hl.order_unique hi hjb
      rcases Nat.lt_or_ge u (j + 2 ^ k) with hlt | hge
      · exact ⟨j, k, split_eq_some.mpr (.inl ⟨.inl rfl, rfl⟩),
          .inl ((mem_split (hl.nodup _)).mpr (.inl ⟨rfl, .inl rfl⟩)), hju, hlt⟩
      · exact ⟨j + 2 ^ k, k, split_eq_some.mpr (.inl ⟨.inr rfl, rfl⟩),
          .inl ((mem_split (hl.nodup _)).mpr (.inl ⟨rfl, .inr rfl⟩)), hge, by omega⟩
    · have hne : j ≠ i + 2 ^ k := by
        rintro rfl
        rw [hl.tiles.none_of_inside hb (by omega) (by omega)] at hjb
        cases hjb
      refine ⟨j, l, split_eq_some.mpr (.inr ⟨hji, hne, hjb⟩), ?_, hju, huj⟩
      rcases hj with hj | hj
      · exact .inl ((mem_split (hl.nodup _)).mpr (.inr ⟨hj, fun _ => hji⟩))
      · exact .inr hj
  · intro u hu
    have hui : u ≠ i := fun hui => hu (hspare (by omega) (by omega))
    have huj : u ≠ i + 2 ^ k := fun huj => hu (hspare (by omega) (by omega))
    change Lib.Buddy.split s.blocks i k u = s.blocks u
    simp [Lib.Buddy.split, hui, huj]
  · intro u hu h1
    have hui : u ≠ i := fun hui => hu (hspare (by omega) (by omega))
    have huj : u ≠ i + 2 ^ k := fun huj => hu (hspare (by omega) (by omega))
    exact (hunit u hui huj).trans (hkeep₁.unit u hu h1)

end Split

theorem splitBlock (hl : h.Layout s) (hi : i ∈ s.free (k + 1))
    (hnolimbo : ¬s.limbo (i + 2 ^ k)) :
    ∃ h', h.splitBlock i = some (.ok (), h') ∧ h'.Layout (s.split i k) ∧
      Keeps h s h' (s.split i k) ∧ Retypes h h' (s.split i k) := by
  obtain ⟨hb, htype, hlimbo⟩ := hl.mem hi
  have hk7 := hl.order_le hb
  have horder := hl.order hb
  have hpos : 0 < 2 ^ k := Nat.two_pow_pos k
  have hin := hl.tiles.inside hb
  have hbuddy : buddy i k = i + 2 ^ k := by
    rw [buddy_eq]
    exact xor_of_dvd (hl.tiles.aligned hb)
  obtain ⟨c₁, heads, hremove, hl₁, hkeep₁, htypes⟩ := hl.removeFree hi
  have hheadlt : heads k < 2 ^ HeaderFields.freeNextIndex.width := hl₁.head_lt (by omega)
  have hih : c₁.HasHeader i := hl₁.hasHeaderAt hb
  have hjh : c₁.HasHeader (i + 2 ^ k) := hl₁.sized.hasHeader (by
    change i + 2 ^ k < h.units
    omega)
  have hjlt : i + 2 ^ k < 2 ^ HeaderFields.freeNextIndex.width := hl.sized.index_lt (by omega)
  set c₂ := (c₁.setHeaderField i HeaderFields.order k).becomeFree i (i + 2 ^ k) with hc₂
  set c₃ := (c₂.setHeaderField (i + 2 ^ k) HeaderFields.order k).becomeFree (i + 2 ^ k) (heads k)
    with hc₃
  obtain ⟨hlen₃, hunit, hvi, hvj⟩ :=
    view_halves hc₂ hc₃ hih hjh (by omega) (by omega) hjlt hheadlt
  have hvo : ∀ j, j ≠ i → j ≠ i + 2 ^ k → c₃.view j = c₁.view j := fun j hji hjb =>
    view_of_unit hlen₃ (hunit j hji hjb)
  refine ⟨{ h with container := c₃, freeHeadPerOrder := update heads k i }, ?_, ?_, ?_, ?_⟩
  · have hno : ¬numOrders ≤ k + 1 := Nat.not_le.mpr (lt_succ_of_le hk7)
    simp only [Heap.splitBlock, horder, if_neg hno, succ_ne_zero, if_false, hremove,
      Nat.add_sub_cancel, setOrder_eq (show k ≤ 7 by omega), hbuddy, setFreeHead, hc₃, hc₂]
  · exact hl.of_split hi hnolimbo hl₁ hlen₃ hvi hvj hvo
  · exact hl.keeps_split hi hkeep₁ hlen₃ hunit
  · clear_value c₃
    intro u _
    by_cases hui : u = i
    · exact .inr (starts_update (.inl hui))
    · by_cases huj : u = i + 2 ^ k
      · exact .inr (starts_update (.inr (.inl huj)))
      · exact .inl ((congrArg View.blockType (hvo u hui huj)).trans (htypes u))

end Layout

/-- No two free buddies of an order below the largest, unless one of them is exempt. -/
def Shape.NoBuddies (s : Shape) (exempt : ℕ → Prop) : Prop :=
  ∀ j l, l < 7 → j ∈ s.free l → j ^^^ 2 ^ l ∈ s.free l → exempt j ∨ exempt (j ^^^ 2 ^ l)

/-- The halves of a split block are buddies; while it is being split it does not count. -/
theorem Shape.NoBuddies.split (hnb : s.NoBuddies (· = i)) (hnd : (s.free (k + 1)).Nodup)
    (hal : 2 ^ (k + 1) ∣ i) : (s.split i k).NoBuddies (· = i) := by
  have hxor := xor_of_dvd hal
  intro j l hl7 hj hj'
  rcases (mem_split hnd).mp hj with ⟨rfl, rfl | rfl⟩ | ⟨hj, -⟩
  · exact .inl rfl
  · refine .inr ?_
    rw [← hxor, xor_xor_cancel_right]
  · rcases (mem_split hnd).mp hj' with ⟨rfl, hji | hji⟩ | ⟨hj', -⟩
    · exact .inr hji
    · refine .inl ?_
      rw [← xor_xor_cancel_right j (2 ^ l), hji, ← hxor, xor_xor_cancel_right]
    · exact hnb j l hl7 hj hj'

namespace Layout

theorem splitLoop {fuel : ℕ} (hl : h.Layout s) (hi : i ∈ s.free k) (hm : m ≤ k)
    (hfuel : k - m < fuel) (hlimbo : ∀ j, ¬s.limbo j) (hnb : s.NoBuddies (· = i)) :
    ∃ h' s', splitLoop i m fuel h = some (.ok (), h') ∧ h'.Layout s' ∧ Keeps h s h' s' ∧
      i ∈ s'.free m ∧ (∀ j, ¬s'.limbo j) ∧ s'.NoBuddies (· = i) ∧ Retypes h h' s' ∧
      ∀ u, s.blocks u ≠ none → s'.blocks u ≠ none := by
  induction fuel generalizing h s k with
  | zero => omega
  | succ fuel ih =>
    have hb := (hl.mem hi).1
    rcases Nat.eq_or_lt_of_le hm with rfl | hlt
    · refine ⟨h, s, ?_, hl, Keeps.refl h s, hi, hlimbo, hnb, fun _ _ => .inl rfl, fun _ => id⟩
      simp [Heap.splitLoop, hl.order hb]
    · obtain ⟨k, rfl⟩ := exists_eq_succ_of_ne_zero (Nat.ne_of_gt (zero_lt_of_lt hlt))
      obtain ⟨h₁, hsplit, hl₁, hkeep₁, hretype₁⟩ := hl.splitBlock hi (hlimbo _)
      have hi₁ : i ∈ (s.split i k).free k := by simp [Shape.split]
      obtain ⟨h', s', hrun, hl', hkeep', hi', hlimbo', hnb', hretype', hstarts⟩ := ih hl₁ hi₁
        (by omega) (by omega) hlimbo (hnb.split (hl.nodup _) (hl.tiles.aligned hb))
      refine ⟨h', s', ?_, hl', hkeep₁.trans hkeep', hi', hlimbo', hnb',
        hretype₁.trans hretype' hstarts, fun u hu => hstarts u (starts_update (.inr (.inr hu)))⟩
      simp only [Heap.splitLoop, hl.order hb, if_pos hlt, hsplit, hrun]

/-- Units of a block that is neither free nor in limbo are not spare. -/
theorem not_spare (hl : h.Layout s) (hb : s.blocks i = some k) (hfree : i ∉ s.free k)
    (hlimbo : ¬s.limbo i) (hiu : i ≤ u) (hui : u < i + 2 ^ k) : ¬h.Spare s u := by
  rintro (hge | ⟨j, l, hjb, hj, hju, huj⟩)
  · have hin := hl.tiles.inside hb
    omega
  · have hji : j = i := by
      rcases Nat.le_total j i with hle | hle
      · exact (hl.tiles.eq_of_mem hjb hb hle (by omega)).symm
      · exact hl.tiles.eq_of_mem hb hjb hle (by omega)
    subst hji
    rw [hb, Option.some.injEq] at hjb
    subst hjb
    rcases hj with hj | hj
    · exact hfree hj
    · exact hlimbo hj

end Layout

def Shape.take (s : Shape) (i k : ℕ) : Shape :=
  { s with free := update s.free k ((s.free k).erase i) }

theorem Layout.mem_take (hl : h.Layout s) (hi : i ∈ s.free k) :
    j ∈ (s.take i k).free l ↔ j ∈ s.free l ∧ j ≠ i :=
  hl.mem_unlist hi

/-- A block was handed out: it was spare before, and nothing else changed for the blocks in use. -/
structure Takes (h : Heap) (s : Shape) (h' : Heap) (s' : Shape) (i k : ℕ) : Prop where
  block : s'.blocks i = some k
  blockType : h'.container.blockType i = BlockType.reserved.toNat
  spare : ∀ u, h.Spare s u ↔ h'.Spare s' u ∨ i ≤ u ∧ u < i + 2 ^ k
  blocks : ∀ u, ¬h.Spare s u → s'.blocks u = s.blocks u
  unit : ∀ u, ¬h.Spare s u → u ≠ 1 → h'.container.unit u = h.container.unit u
  length : h'.container.length = h.container.length

theorem Keeps.takes {h₁ : Heap} {s₁ s' : Shape} (hk : Keeps h s h₁ s₁)
    (ht : Takes h₁ s₁ h' s' i k) : Takes h s h' s' i k where
  block := ht.block
  blockType := ht.blockType
  spare := fun u => (hk.spare u).symm.trans (ht.spare u)
  blocks := fun u hu => (ht.blocks u fun h' => hu ((hk.spare u).mp h')).trans (hk.blocks u hu)
  unit := fun u hu h1 =>
    (ht.unit u (fun h' => hu ((hk.spare u).mp h')) h1).trans (hk.unit u hu h1)
  length := ht.length.trans hk.length

namespace Layout

/-- Taking a free block off its list and reserving it. -/
theorem reserve (hl : h.Layout s) (hi : i ∈ s.free k) (hlimbo : ∀ j, ¬s.limbo j) :
    ∃ h₁, h.removeFree i = some h₁ ∧ ∀ n,
      Layout { h₁ with container := h₁.container.becomeReserved i, allocatedBlocks := n }
        (s.take i k) ∧
      Takes h s { h₁ with container := h₁.container.becomeReserved i, allocatedBlocks := n }
        (s.take i k) i k ∧
      Retypes h { h₁ with container := h₁.container.becomeReserved i, allocatedBlocks := n }
        (s.take i k) := by
  obtain ⟨hb, htype, -⟩ := hl.mem hi
  have hpos : 0 < 2 ^ k := Nat.two_pow_pos k
  have hi0 : i ≠ 0 := fun h0 => hl.zero_not_free (h0 ▸ hi)
  obtain ⟨c₁, heads, hremove, hl₁, hkeep₁, htypes⟩ := hl.removeFree hi
  refine ⟨_, hremove, fun n => ?_⟩
  obtain ⟨hro, hrt⟩ := view_becomeReserved (hl₁.hasHeaderAt hb)
  have hlen : (c₁.becomeReserved i).length = c₁.length := length_becomeReserved
  have hvo : ∀ j, j ≠ i → (c₁.becomeReserved i).view j = c₁.view j := fun j hj =>
    view_of_unit hlen (unit_becomeReserved hj)
  have hl' : Layout { h with container := c₁.becomeReserved i, freeHeadPerOrder := heads,
                             allocatedBlocks := n } (s.take i k) := by
    constructor
    · exact ⟨hl.sized.pages, hlen.symm ▸ hl₁.sized.fits, hl.sized.bound⟩
    · exact hl.tiles
    · intro j l hj
      by_cases hji : j = i
      · subst hji
        exact hro.trans (hl₁.order hj)
      · exact (congrArg View.order (hvo j hji)).trans (hl₁.order hj)
    · exact hl.header
    · exact (congrArg View.blockType (hvo 0 hi0.symm)).trans hl₁.headerType
    · exact hl.hasHeader
    · intro l hl7
      refine (hl₁.list l hl7).congr fun j hj => ?_
      exact congrArg View.next (hvo j ((hl.mem_unlist hi).mp hj).2)
    · exact hl₁.nodup
    · intro j l hj
      obtain ⟨hjb, hjt, hjl⟩ := hl₁.mem hj
      have hjl : j ≠ i ∧ ¬s.limbo j := not_or.mp hjl
      exact ⟨hjb, (congrArg View.blockType (hvo j hjl.1)).trans hjt, hjl.2⟩
    · intro j l hjb hjt _
      by_cases hji : j = i
      · subst hji
        have : BlockType.reserved.toNat = BlockType.free.toNat := hrt.symm.trans hjt
        exact absurd this (by decide)
      · refine hl₁.listed hjb ?_ (not_or.mpr ⟨hji, hlimbo j⟩)
        exact (congrArg View.blockType (hvo j hji)).symm.trans hjt
  refine ⟨hl', ⟨hb, hrt, fun u => ?_, fun u _ => rfl, fun u hu h1 => ?_,
    hlen.trans hkeep₁.length⟩, fun u _ => ?_⟩
  · constructor
    · rintro (hge | ⟨j, l, hjb, hj, hju, huj⟩)
      · exact .inl (.inl hge)
      · by_cases hji : j = i
        · subst hji
          obtain rfl := hl.order_unique hi hjb
          exact .inr ⟨hju, huj⟩
        · refine .inl (.inr ⟨j, l, hjb, ?_, hju, huj⟩)
          rcases hj with hj | hj
          · exact .inl ((hl.mem_take hi).mpr ⟨hj, hji⟩)
          · exact .inr hj
    · rintro ((hge | ⟨j, l, hjb, hj, hju, huj⟩) | ⟨hiu, hui⟩)
      · exact .inl hge
      · refine .inr ⟨j, l, hjb, ?_, hju, huj⟩
        rcases hj with hj | hj
        · exact .inl ((hl.mem_take hi).mp hj).1
        · exact .inr hj
      · exact .inr ⟨i, k, hb, .inl hi, hiu, hui⟩
  · have hui : u ≠ i := by
      rintro rfl
      exact hu (.inr ⟨u, k, hb, .inl hi, Nat.le_refl u, by omega⟩)
    exact (unit_becomeReserved hui).trans (hkeep₁.unit u hu h1)
  · by_cases hui : u = i
    · exact .inr (by simp [hui, take, hb])
    · exact .inl ((congrArg View.blockType (hvo u hui)).trans (htypes u))

/-- The block at the head of a free list is handed out after enough splits. -/
theorem allocateFrom (hl : h.Layout s) (hne : s.free k ≠ []) (hk : k ≤ 7) (hm : m ≤ k)
    (hlimbo : ∀ j, ¬s.limbo j) (hnb : s.NoBuddies fun _ => False) :
    ∃ h' s', h.allocateFrom k m = some (.ok (h.freeHeadPerOrder k), h') ∧ h'.Layout s' ∧
      Takes h s h' s' (h.freeHeadPerOrder k) m ∧ (∀ j, ¬s'.limbo j) ∧
      (s'.NoBuddies fun _ => False) ∧ Retypes h h' s' ∧
      ∀ u, s.blocks u ≠ none → s'.blocks u ≠ none := by
  obtain ⟨i, l, hfree⟩ := List.exists_cons_of_ne_nil hne
  have hhead : h.freeHeadPerOrder k = i := by
    rw [(hl.list k hk).head, hfree]
    rfl
  have hi : i ∈ s.free k := by simp [hfree]
  obtain ⟨h₁, s₁, hsplit, hl₁, hkeep, hi₁, hlimbo₁, hnb₁, hretype₁, hstarts⟩ := hl.splitLoop hi hm
    (show k - m < 16 by omega) hlimbo fun j l hl7 hj hj' => (hnb j l hl7 hj hj').elim False.elim
      False.elim
  obtain ⟨h₂, hremove, htake⟩ := hl₁.reserve hi₁ hlimbo₁
  obtain ⟨hl', ht, hretype₂⟩ := htake (h₂.allocatedBlocks + 1)
  rw [hhead]
  refine ⟨_, s₁.take i m, ?_, hl', hkeep.takes ht, hlimbo₁, ?_,
    hretype₁.trans hretype₂ fun _ => id, hstarts⟩
  · simp only [Heap.allocateFrom, hhead, hsplit, hremove]
  · intro j l hl7 hjt hjt'
    obtain ⟨hj, hji⟩ := (hl₁.mem_take hi₁).mp hjt
    obtain ⟨hj', hji'⟩ := (hl₁.mem_take hi₁).mp hjt'
    exact (hnb₁ j l hl7 hj hj').imp hji hji'

/-- The order that is found has a free block. -/
theorem findOrder_some (hl : h.Layout s) (hfind : h.findOrder m = some k) :
    m ≤ k ∧ k ≤ 7 ∧ s.free k ≠ [] := by
  have hmem := List.mem_of_find?_eq_some hfind
  have hfree := List.find?_some hfind
  simp only [List.mem_range'_1, numOrders] at hmem
  refine ⟨hmem.1, by omega, fun hnil => ?_⟩
  have hhead : h.freeHeadPerOrder k = 0 := by
    rw [(hl.list k (by omega)).head, hnil]
    rfl
  have htype := hl.headerType
  simp [hhead, Heap.isFreeBlock, isFree, htype, BlockType.toNat] at hfree

end Layout

section Grow

/-- A page is two free blocks of the largest order. -/
theorem growLoop_page (last fuel : ℕ) (hlen : 16 * (n + 256) ≤ c.length)
    (hn : n + 256 ≤ 2 ^ freeNextIndex.width)
    (hlast : last < 2 ^ freeNextIndex.width) (hfuel : 2 ≤ fuel) :
    ∃ c', growLoop n fuel c (n + 256) last = some (c', n) ∧ c'.length = c.length ∧
      (∀ j, j ≠ n → j ≠ n + 128 → c'.unit j = c.unit j) ∧
      c'.view n = ⟨7, BlockType.free.toNat, n + 128⟩ ∧
      c'.view (n + 128) = ⟨7, BlockType.free.toNat, last⟩ := by
  obtain ⟨fuel, rfl⟩ := Nat.exists_eq_add_of_le' hfuel
  have hheader : ∀ {d : Container} {j : ℕ}, d.length = c.length → j < n + 256 → d.HasHeader j := by
    intro d j hd hj
    unfold Container.HasHeader headerOffset minOrderSize
    omega
  have hstep : BlockIndex.fromOffset maxOrderSize = 128 := by decide
  have hseven : numOrders - 1 = 7 := by decide
  obtain ⟨c₁, hfree₁, hlen₁, hunit₁, hview₁⟩ := free_spec
    (hheader (d := c) (j := n + 128) rfl (by omega)) (show 7 < numOrders by decide) hlast
  obtain ⟨c₂, hfree₂, hlen₂, hunit₂, hview₂⟩ := free_spec
    (hheader (d := c₁) (j := n) hlen₁ (by omega)) (show 7 < numOrders by decide)
    (show n + 128 < 2 ^ freeNextIndex.width by omega)
  refine ⟨c₂, ?_, hlen₂.trans hlen₁, fun j hj hj' => (hunit₂ j hj).trans (hunit₁ j hj'), hview₂, ?_⟩
  · have h1 : n + 256 - 128 = n + 128 := by omega
    have h2 : n + 128 - 128 = n := by omega
    simp only [growLoop, hstep, hseven, h1, hfree₁, h2, hfree₂]
    simp
  · rw [view_of_unit hlen₂ (hunit₂ (n + 128) (Nat.ne_of_gt (by omega))), hview₁]

def Shape.grow (s : Shape) (n : ℕ) : Shape :=
  { s with
    blocks := update (update s.blocks n (some 7)) (n + 128) (some 7)
    free := update s.free 7 (n :: (n + 128) :: s.free 7) }

theorem Shape.blocks_grow : (s.grow n).blocks j = some l ↔
    (j = n ∨ j = n + 128) ∧ l = 7 ∨ j ≠ n ∧ j ≠ n + 128 ∧ s.blocks j = some l := by
  unfold grow
  by_cases hj : j = n + 128
  · subst hj
    simp [eq_comm]
  · by_cases hj' : j = n
    · subst hj'
      simp [eq_comm]
    · simp [hj, hj']

theorem Shape.mem_grow : j ∈ (s.grow n).free l ↔
    l = 7 ∧ (j = n ∨ j = n + 128) ∨ j ∈ s.free l := by
  unfold grow
  by_cases hl : l = 7
  · subst hl
    simp [or_assoc]
  · simp [hl]

namespace Layout

theorem of_grow (hl : h.Layout s) (hlimbo : ∀ j, ¬s.limbo j)
    (hsize : h'.currentSizeBytes = h.currentSizeBytes + 4096) (hsized : h'.Sized)
    (hheader : h'.hasHeader = true)
    (hheads : h'.freeHeadPerOrder = update h.freeHeadPerOrder 7 h.units)
    (hvn : h'.container.view h.units = ⟨7, BlockType.free.toNat, h.units + 128⟩)
    (hvm : h'.container.view (h.units + 128) =
      ⟨7, BlockType.free.toNat, h.freeHeadPerOrder 7⟩)
    (hvo : ∀ j < h.units, j ≠ 1 → h'.container.view j = h.container.view j) :
    h'.Layout (s.grow h.units) := by
  have hunits : h'.units = h.units + 2 ^ 7 + 2 ^ 7 := by
    unfold units minOrderSize
    omega
  have hdvd := hl.sized.dvd_units
  have hone : s.blocks 1 = none := hl.tiles.none_of_inside hl.header (by decide) (by decide)
  have hpos := hl.lt_units hl.header
  have hnot : ∀ {j l}, h.units ≤ j → j ∉ s.free l := fun hge hj =>
    Nat.not_lt.mpr hge (hl.lt_units (hl.mem hj).1)
  refine hl.prepend [h.units, h.units + 128] hsized ?_ hheader
    (by simp [hpos.ne]) (fun l hl7 => by rw [hheads, update_of_ne hl7]) ?_ (by simp) rfl ?_ ?_
  · rw [hunits]
    exact (hl.tiles.extend hdvd).extend (Nat.dvd_add hdvd (Nat.dvd_refl _))
  · rw [hheads]
    exact ⟨rfl, congrArg View.next hvn, congrArg View.next hvm⟩
  · intro j hj
    rcases List.mem_pair.mp hj with rfl | rfl
    · exact ⟨blocks_grow.mpr (.inl ⟨.inl rfl, rfl⟩), congrArg View.order hvn,
        congrArg View.blockType hvn, hlimbo _, fun l => hnot (Nat.le_refl _)⟩
    · exact ⟨blocks_grow.mpr (.inl ⟨.inr rfl, rfl⟩), congrArg View.order hvm,
        congrArg View.blockType hvm, hlimbo _, fun l => hnot (Nat.le_add_right _ _)⟩
  · intro j hj
    obtain ⟨hjn, hjm⟩ := not_or.mp (mt List.mem_pair.mpr hj)
    refine ⟨by simp [grow, hjn, hjm], Iff.rfl, fun l hjb => hvo j (hl.lt_units hjb) ?_⟩
    rintro rfl
    rw [hone] at hjb
    cases hjb

theorem keeps_grow (hl : h.Layout s)
    (hsize : h'.currentSizeBytes = h.currentSizeBytes + 4096)
    (hlen : h'.container.length = h.container.length)
    (hunit : ∀ j < h.units, j ≠ 1 → h'.container.unit j = h.container.unit j) :
    Keeps h s h' (s.grow h.units) := by
  have hunits : h'.units = h.units + 256 := by
    unfold units minOrderSize
    omega
  have hused : ∀ {u}, ¬h.Spare s u → u < h.units := fun hu =>
    Nat.lt_of_not_le fun hge => hu (.inl hge)
  refine ⟨fun u => ⟨?_, ?_⟩, fun u hu => ?_, fun u hu h1 => hunit u (hused hu) h1, hlen⟩
  · rintro (hge | ⟨j, l, hjb, hj, hju, huj⟩)
    · exact .inl (by omega)
    · rcases blocks_grow.mp hjb with ⟨hj, rfl⟩ | ⟨hj1, hj2, hjb⟩
      · exact .inl (by omega)
      · refine .inr ⟨j, l, hjb, ?_, hju, huj⟩
        rcases hj with hj | hj
        · rcases mem_grow.mp hj with ⟨-, rfl | rfl⟩ | hj
          · exact absurd rfl hj1
          · exact absurd rfl hj2
          · exact .inl hj
        · exact .inr hj
  · rintro (hge | ⟨j, l, hjb, hj, hju, huj⟩)
    · rcases Nat.lt_or_ge u (h.units + 256) with hlt | hge'
      · rcases Nat.lt_or_ge u (h.units + 128) with hlt' | hge''
        · exact .inr ⟨h.units, 7, blocks_grow.mpr (.inl ⟨.inl rfl, rfl⟩),
            .inl (mem_grow.mpr (.inl ⟨rfl, .inl rfl⟩)), hge, hlt'⟩
        · exact .inr ⟨h.units + 128, 7, blocks_grow.mpr (.inl ⟨.inr rfl, rfl⟩),
            .inl (mem_grow.mpr (.inl ⟨rfl, .inr rfl⟩)), hge'', hlt⟩
      · exact .inl (by omega)
    · have hlt := hl.lt_units hjb
      refine .inr ⟨j, l, blocks_grow.mpr (.inr ⟨by omega, by omega, hjb⟩), ?_, hju, huj⟩
      exact hj.imp (fun hj => mem_grow.mpr (.inr hj)) id
  · have hlt := hused hu
    have h1 : u ≠ h.units := by omega
    have h2 : u ≠ h.units + 128 := by omega
    simp [grow, h1, h2]

/-- The heap can grow by a page if the container and the largest VMO have room for it. -/
theorem growHeap (hl : h.Layout s) (hlimbo : ∀ j, ¬s.limbo j)
    (hfits : h.currentSizeBytes + 4096 ≤ h.container.length)
    (hbound : h.currentSizeBytes + 4096 ≤ maxVmoSize) :
    ∃ h', h.growHeap (h.currentSizeBytes + pageSizeBytes) = some (.ok (), h') ∧
      h'.Layout (s.grow h.units) ∧ Keeps h s h' (s.grow h.units) ∧
      Retypes h h' (s.grow h.units) := by
  obtain ⟨p, hp⟩ := hl.sized.pages
  have hn : h.units = 256 * (p + 1) := by
    unfold units minOrderSize
    omega
  have hunits : 16 * (h.units + 256) = h.currentSizeBytes + 4096 := by
    rw [hn, hp]
    ring
  have hlen : 16 * (h.units + 256) ≤ h.container.length := hunits.trans_le hfits
  have hindex : 16 * (h.units + 256) ≤ 134217728 := hunits.trans_le hbound
  have hmin : BlockIndex.fromOffset h.currentSizeBytes = h.units := rfl
  have hcurr : BlockIndex.fromOffset (h.currentSizeBytes + 4096 -
      (h.currentSizeBytes + 4096) % 4096) = h.units + 256 := by
    rw [hn, hp]
    unfold BlockIndex.fromOffset minOrderSize
    rw [show 4096 * (p + 1) + 4096 - (4096 * (p + 1) + 4096) % 4096 = 4096 * (p + 2) by omega]
    exact Nat.div_eq_of_eq_mul_right (by decide) (by ring)
  -- the units of the largest VMO fit in the field for the next index
  have hwidth : freeNextIndex.width = 24 := rfl
  obtain ⟨c₁, hloop, hlen₁, hunit₁, hvn, hvm⟩ := growLoop_page
    (h.freeHeadPerOrder 7) (h.units + 256 + 1) hlen (by rw [hwidth]; omega)
    (hl.head_lt (Nat.le_refl 7)) (Nat.le_add_left 2 _)
  obtain ⟨c₂, hset, hlen₂, hunit₂⟩ := setVmoSize_spec (c := c₁)
    (by omega) (h.currentSizeBytes + 4096)
  have hview : ∀ j, j ≠ 1 → c₂.view j = c₁.view j := fun j hj =>
    view_of_unit hlen₂ (hunit₂ j hj)
  refine ⟨{ h with container := c₂, currentSizeBytes := h.currentSizeBytes + 4096,
                   freeHeadPerOrder := update h.freeHeadPerOrder 7 h.units },
    ?_, ?_, ?_, fun u h1 => ?_⟩
  · have hpage : pageSizeBytes = 4096 := rfl
    have hnum : numOrders - 1 = 7 := rfl
    have hroom : ¬(h.container.length < h.currentSizeBytes + 4096 ∨
        maxVmoSize < h.currentSizeBytes + 4096) := by omega
    have hheader : h.hasHeader = true := hl.hasHeader
    simp only [Heap.growHeap, hpage, hnum, if_neg hroom, Nat.min_eq_right hfits, hmin, hcurr, hloop,
      Heap.setFreeHead, hheader, hset, if_true]
  · refine hl.of_grow hlimbo rfl ⟨⟨p + 1, ?_⟩, ?_, hbound⟩ hl.hasHeader rfl ?_ ?_ fun j hj h1 => ?_
    · rw [hp]
      ring
    · exact hfits.trans_eq (hlen₂.trans hlen₁).symm
    · exact (hview _ (Nat.ne_of_gt (by omega))).trans hvn
    · exact (hview _ (Nat.ne_of_gt (by omega))).trans hvm
    · exact (hview j h1).trans
        (view_of_unit hlen₁ (hunit₁ j (Nat.ne_of_lt hj) (Nat.ne_of_lt (by omega))))
  · refine hl.keeps_grow rfl (hlen₂.trans hlen₁) fun j hj h1 => ?_
    exact (hunit₂ j h1).trans (hunit₁ j (Nat.ne_of_lt hj) (Nat.ne_of_lt (by omega)))
  · by_cases hun : u = h.units
    · exact .inr (starts_update (.inl hun))
    · by_cases hum : u = h.units + 128
      · exact .inr (starts_update (.inr (.inl hum)))
      · exact .inl (congrArg View.blockType ((hview u h1).trans
          (view_of_unit hlen₁ (hunit₁ u hun hum))))

end Layout

end Grow

/-- The smallest order that fits. -/
theorem fitOrder_le_iff {size : ℕ} (hsize : 1 ≤ size) :
    Utils.fitOrder size ≤ k ↔ size ≤ Utils.orderToSize k := by
  unfold Utils.fitOrder Utils.orderToSize minOrderSize
  have hpow : 16 <<< k = 2 ^ (k + 4) := by
    rw [Nat.pow_add]
    omega
  have hne : size ≠ 0 := one_le_iff_ne_zero.mp hsize
  by_cases h0 : size - 1 = 0
  · have hpos : 0 < 2 ^ (k + 4) := Nat.two_pow_pos _
    simp only [hne, h0, if_true, if_false]
    omega
  · have hlog : log2 (size - 1) < k + 4 ↔ size - 1 < 2 ^ (k + 4) := log2_lt h0
    simp only [hne, h0, if_false]
    omega

namespace Layout

/-- An allocation hands out a spare block of the smallest order that fits, or it fails and changes
only its count of failures. -/
theorem allocateBlock (hl : h.Layout s) (hlimbo : ∀ j, ¬s.limbo j)
    (hnb : s.NoBuddies fun _ => False) (size : ℕ) :
    (∃ i h' s', h.allocateBlock size = some (.ok i, h') ∧ h'.Layout s' ∧
      Takes h s h' s' i (Utils.fitOrder size) ∧ (∀ j, ¬s'.limbo j) ∧
      (s'.NoBuddies fun _ => False) ∧ Retypes h h' s') ∨
    ∃ error n, h.allocateBlock size = some (.error error, { h with failedAllocations := n }) := by
  by_cases hbig : numOrders ≤ Utils.fitOrder size
  · exact .inr ⟨.invalidBlockOrder (Utils.fitOrder size), h.failedAllocations, by
      simp only [Heap.allocateBlock, if_pos hbig]⟩
  have hm : Utils.fitOrder size ≤ 7 := le_of_lt_succ (Nat.lt_of_not_le hbig)
  cases hfind : h.findOrder (Utils.fitOrder size) with
  | some order =>
    obtain ⟨hle, h7, hne⟩ := hl.findOrder_some hfind
    obtain ⟨h', s', hrun, hl', ht, hlimbo', hnb', hretype, -⟩ :=
      hl.allocateFrom hne h7 hle hlimbo hnb
    exact .inl ⟨_, h', s', by simp only [Heap.allocateBlock, if_neg hbig, hfind, hrun], hl', ht,
      hlimbo', hnb', hretype⟩
  | none =>
    by_cases hroom : h.container.length < h.currentSizeBytes + pageSizeBytes ∨
        maxVmoSize < h.currentSizeBytes + pageSizeBytes
    · refine .inr ⟨.heapMaxSizeReached, h.failedAllocations + 1, ?_⟩
      simp only [Heap.allocateBlock, if_neg hbig, hfind, Heap.growHeap, if_pos hroom]
    · have hpage : pageSizeBytes = 4096 := rfl
      obtain ⟨h₁, hgrow, hl₁, hkeep, hretype₁⟩ := hl.growHeap hlimbo (by omega) (by omega)
      have hne : (s.grow h.units).free 7 ≠ [] := by simp [grow]
      have hnb₁ : (s.grow h.units).NoBuddies fun _ => False := by
        intro j l hl7 hj hj'
        have hfree : (s.grow h.units).free l = s.free l := by
          simp [grow, Nat.ne_of_lt hl7]
        rw [hfree] at hj hj'
        exact hnb j l hl7 hj hj'
      obtain ⟨h', s', hrun, hl', ht, hlimbo', hnb', hretype, hstarts⟩ :=
        hl₁.allocateFrom hne (Nat.le_refl 7) hm hlimbo hnb₁
      refine .inl ⟨_, h', s', ?_, hl', hkeep.takes ht, hlimbo', hnb',
        hretype₁.trans hretype hstarts⟩
      have hnum : numOrders - 1 = 7 := rfl
      simp only [Heap.allocateBlock, if_neg hbig, hfind, hgrow, hnum, hrun]

end Layout

end Smos.Inspect.Heap
