import Smos.Inspect.HeapAllocate

/-!
Freeing a block: it is merged with its buddy as long as that is free and whole, and the merged
block is put on the list of its order.
-/
namespace Smos.Inspect.Heap

open Lib.Buddy Lib.Links Container Function

variable {h : Heap} {s : Shape} {i k u : ℕ}

def Shape.release (s : Shape) (i : ℕ) : Shape := { s with limbo := (· = i) }

def Shape.merge (s : Shape) (i k : ℕ) : Shape :=
  { s with blocks := Lib.Buddy.merge s.blocks i k, limbo := (· = i) }

def Shape.push (s : Shape) (i k : ℕ) : Shape :=
  { s with free := update s.free k (i :: s.free k), limbo := fun _ => False }

theorem Shape.mem_push {j l : ℕ} :
    j ∈ (s.push i k).free l ↔ l = k ∧ j = i ∨ j ∈ s.free l := by
  unfold Shape.push
  by_cases hl : l = k
  · subst hl
    simp
  · simp [hl]

namespace Layout

theorem release (hl : h.Layout s) (hlimbo : ∀ j, ¬s.limbo j)
    (htype : h.container.blockType i ≠ BlockType.free.toNat) : h.Layout (s.release i) := by
  refine { hl with mem := ?_, listed := fun hj hjt _ => hl.listed hj hjt (hlimbo _) }
  intro j l hj
  obtain ⟨hjb, hjt, -⟩ := hl.mem hj
  exact ⟨hjb, hjt, fun hji => htype (hji ▸ hjt)⟩

/-- What is spare while a used block is in limbo. -/
theorem spare_release (hlimbo : ∀ j, ¬s.limbo j) (hb : s.blocks i = some k) :
    h.Spare (s.release i) u ↔ h.Spare s u ∨ i ≤ u ∧ u < i + 2 ^ k := by
  constructor
  · rintro (hge | ⟨j, l, hjb, hj | rfl, hju, huj⟩)
    · exact .inl (.inl hge)
    · exact .inl (.inr ⟨j, l, hjb, .inl hj, hju, huj⟩)
    · have hkl : k = l := Option.some.inj (hb.symm.trans hjb)
      exact .inr ⟨hju, hkl ▸ huj⟩
  · rintro ((hge | ⟨j, l, hjb, hj | hj, hju, huj⟩) | ⟨hiu, hui⟩)
    · exact .inl hge
    · exact .inr ⟨j, l, hjb, .inl hj, hju, huj⟩
    · exact absurd hj (hlimbo j)
    · exact .inr ⟨i, k, hb, .inr rfl, hiu, hui⟩

section

variable (hl : h.Layout s) (hi : s.blocks i = some k)
include hl hi

/-- Raising the order of the lower one of two buddies in limbo merges them. -/
theorem merge (hj : s.blocks (i + 2 ^ k) = some k)
    (hal : 2 ^ (k + 1) ∣ i) (hk : k < 7) (hi0 : i ≠ 0)
    (hlimbo : ∀ j, s.limbo j ↔ j = i ∨ j = i + 2 ^ k) :
    Layout { h with container := h.container.setHeaderField i HeaderFields.order (k + 1) }
        (s.merge i k) ∧
      Keeps h s { h with container := h.container.setHeaderField i HeaderFields.order (k + 1) }
        (s.merge i k) ∧
      ∀ u, (h.container.setHeaderField i HeaderFields.order (k + 1)).blockType u =
        h.container.blockType u := by
  have hlt : k + 1 < 2 ^ HeaderFields.order.width := Nat.lt_of_lt_of_le (Nat.succ_lt_succ hk)
    (by decide)
  have hview := view_setHeaderField_order (hl.hasHeaderAt hi) hlt
  have hunit : ∀ j, j ≠ i →
      (h.container.setHeaderField i HeaderFields.order (k + 1)).unit j = h.container.unit j :=
    fun j hj => unit_setHeaderField hj
  have hlen : (h.container.setHeaderField i HeaderFields.order (k + 1)).length =
      h.container.length := length_setHeaderField
  revert hview hunit hlen
  generalize h.container.setHeaderField i HeaderFields.order (k + 1) = c
  intro hview hunit hlen
  have hvo : ∀ j, j ≠ i → c.view j = h.container.view j := fun j hj =>
    view_of_unit hlen (hunit j hj)
  have hfree : ∀ {j l}, j ∈ s.free l → j ≠ i ∧ j ≠ i + 2 ^ k := fun hj =>
    not_or.mp fun h' => (hl.mem hj).2.2 ((hlimbo _).mpr h')
  have hcover : ∀ {u}, i ≤ u → u < i + 2 ^ (k + 1) →
      ∃ j l, s.blocks j = some l ∧ (j ∈ s.free l ∨ s.limbo j) ∧ j ≤ u ∧ u < j + 2 ^ l := by
    intro u hiu hui
    rcases Nat.lt_or_ge u (i + 2 ^ k) with hlt | hge
    · exact ⟨i, k, hi, .inr ((hlimbo i).mpr (.inl rfl)), hiu, hlt⟩
    · exact ⟨i + 2 ^ k, k, hj, .inr ((hlimbo _).mpr (.inr rfl)), hge, by omega⟩
  have hused : ∀ {u}, ¬h.Spare s u → u ≠ i ∧ u ≠ i + 2 ^ k := fun hu =>
    ⟨fun hui => hu (.inr (hcover (by omega) (by omega))),
      fun huj => hu (.inr (hcover (by omega) (by omega)))⟩
  refine ⟨?_, ?_, fun u => ?_⟩
  · constructor
    · exact ⟨hl.sized.pages, hlen.symm ▸ hl.sized.fits, hl.sized.bound⟩
    · exact hl.tiles.merge hi hj hal hk
    · intro j l hjb
      rcases merge_eq_some.mp hjb with ⟨rfl, rfl⟩ | ⟨hji, -, hjb⟩
      · exact congrArg View.order hview
      · exact (congrArg View.order (hvo j hji)).trans (hl.order hjb)
    · exact merge_eq_some.mpr (.inr ⟨hi0.symm, by omega, hl.header⟩)
    · exact (congrArg View.blockType (hvo 0 hi0.symm)).trans hl.headerType
    · exact hl.hasHeader
    · intro l hl7
      exact (hl.list l hl7).congr fun a ha =>
        congrArg View.next (hvo a (hfree ha).1)
    · exact hl.nodup
    · intro j l hjf
      obtain ⟨hjb, hjt, -⟩ := hl.mem hjf
      obtain ⟨hji, hji'⟩ := hfree hjf
      exact ⟨merge_eq_some.mpr (.inr ⟨hji, hji', hjb⟩),
        (congrArg View.blockType (hvo j hji)).trans hjt, hji⟩
    · intro j l hjb hjt hji
      rcases merge_eq_some.mp hjb with ⟨rfl, -⟩ | ⟨hji, hji', hjb⟩
      · exact absurd rfl hji
      · refine hl.listed hjb ?_ fun h' => ?_
        · exact (congrArg View.blockType (hvo j hji)).symm.trans hjt
        · exact ((hlimbo j).mp h').elim hji hji'
  · refine ⟨fun u => or_congr_right ?_, fun u hu => ?_, fun u hu _ => hunit u (hused hu).1, hlen⟩
    · constructor
      · rintro ⟨j, l, hjb, hjf, hju, huj⟩
        rcases merge_eq_some.mp hjb with ⟨rfl, rfl⟩ | ⟨hji, hji', hjb⟩
        · exact hcover hju huj
        · exact ⟨j, l, hjb, .inl (hjf.resolve_right hji), hju, huj⟩
      · rintro ⟨j, l, hjb, hjf, hju, huj⟩
        by_cases hji : j = i ∨ j = i + 2 ^ k
        · refine ⟨i, k + 1, merge_eq_some.mpr (.inl ⟨rfl, rfl⟩), .inr rfl, ?_⟩
          have hlk : l = k := by
            rcases hji with rfl | rfl
            · exact Option.some.inj (hjb.symm.trans hi)
            · exact Option.some.inj (hjb.symm.trans hj)
          subst hlk
          omega
        · have hjf := hjf.resolve_right fun h' => hji ((hlimbo j).mp h')
          exact ⟨j, l, merge_eq_some.mpr (.inr ⟨(hfree hjf).1, (hfree hjf).2, hjb⟩), .inl hjf,
            hju, huj⟩
    · change Lib.Buddy.merge s.blocks i k u = s.blocks u
      simp [Lib.Buddy.merge, (hused hu).1, (hused hu).2]
  · by_cases hui : u = i
    · subst hui
      exact congrArg View.blockType hview
    · exact congrArg View.blockType (hvo u hui)

/-- A block in limbo is put at the head of the list of its order. -/
theorem push (hi0 : i ≠ 0) (hlimbo : ∀ j, s.limbo j ↔ j = i) (n : ℕ) :
    Layout { h with
        container := h.container.becomeFree i (h.freeHeadPerOrder k)
        freeHeadPerOrder := update h.freeHeadPerOrder k i
        deallocatedBlocks := n } (s.push i k) ∧
      Keeps h s { h with
        container := h.container.becomeFree i (h.freeHeadPerOrder k)
        freeHeadPerOrder := update h.freeHeadPerOrder k i
        deallocatedBlocks := n } (s.push i k) := by
  have hpos : 0 < 2 ^ k := Nat.two_pow_pos k
  have hview := view_becomeFree (hl.hasHeaderAt hi) (hl.head_lt (hl.order_le hi))
  refine ⟨?_, ?_⟩
  · refine hl.prepend [i]
      ⟨hl.sized.pages, length_becomeFree.symm ▸ hl.sized.fits, hl.sized.bound⟩ hl.tiles hl.hasHeader
      (by simpa using hi0.symm) (fun l hlk => update_of_ne hlk _ _) ?_ (by simp) rfl ?_ ?_
    · exact ⟨update_self _ _ _, congrArg View.next hview⟩
    · intro j hj
      obtain rfl := List.mem_singleton.mp hj
      exact ⟨hi, (congrArg View.order hview).trans (hl.order hi),
        congrArg View.blockType hview, False.elim,
        fun l hj => (hl.mem hj).2.2 ((hlimbo j).mpr rfl)⟩
    · intro j hj
      have hji : j ≠ i := mt List.mem_singleton.mpr hj
      refine ⟨rfl, ?_, fun _ _ => view_of_unit length_becomeFree (unit_becomeFree hji)⟩
      exact ⟨False.elim, fun h' => hji ((hlimbo j).mp h')⟩
  · refine ⟨fun u => spare_congr Iff.rfl fun j l hjb => ?_, fun u _ => rfl,
      fun u hu _ => unit_becomeFree fun hui => ?_, length_becomeFree⟩
    · rw [Shape.mem_push, hlimbo]
      by_cases hji : j = i
      · subst hji
        simp [Option.some.inj (hjb.symm.trans hi)]
      · simp [Shape.push, hji]
    · subst hui
      exact hu (.inr ⟨u, k, hi, .inr ((hlimbo u).mpr rfl), Nat.le_refl u, by omega⟩)

/-- A block can be merged with its buddy exactly if the buddy is on the list of the same order. -/
theorem possibleToMerge_iff (hlimbo : ∀ j, s.limbo j ↔ j = i) :
    h.possibleToMerge (buddy i k) i = true ↔ k < 7 ∧ i ^^^ 2 ^ k ∈ s.free k := by
  have horder := hl.order hi
  rw [buddy_eq, Heap.possibleToMerge]
  constructor
  · intro hmerge
    have hif : h.container.isFree (i ^^^ 2 ^ k) = true := by
      by_contra hno
      simp [hno] at hmerge
    simp only [hif, if_true, horder, Bool.and_eq_true, decide_eq_true_eq, beq_iff_eq] at hmerge
    obtain ⟨hk, hsame⟩ := hmerge
    have hk : k < 7 := hk
    obtain ⟨l, -, hbuddy⟩ := hl.tiles.buddy_start hl.sized.dvd_units hi hk
    have hlk : k = l := hsame.trans (hl.order hbuddy)
    subst hlk
    have htype : h.container.blockType (i ^^^ 2 ^ k) = BlockType.free.toNat := by
      simpa [isFree] using hif
    refine ⟨hk, hl.listed hbuddy htype fun h' => ?_⟩
    have hpos : 0 < 2 ^ k := Nat.two_pow_pos k
    have hself := (hlimbo _).mp h'
    rcases buddy_cases (hl.tiles.aligned hi) with ⟨-, heq⟩ | ⟨-, heq⟩ <;> omega
  · rintro ⟨hk, hfree⟩
    obtain ⟨hb, htype, -⟩ := hl.mem hfree
    have hk : k < Constants.numOrders - 1 := hk
    simp [isFree, htype, horder, hk, hl.order hb]

theorem mergeLoop {fuel : ℕ} (hi0 : i ≠ 0)
    (hlimbo : ∀ j, s.limbo j ↔ j = i) (hnb : s.NoBuddies fun _ => False) (hfuel : 7 - k < fuel) :
    ∃ m l h' s', Heap.mergeLoop fuel h (buddy i k) i = some (.ok m, h') ∧ h'.Layout s' ∧
      Keeps h s h' s' ∧ s'.blocks m = some l ∧ m ≠ 0 ∧ (∀ j, s'.limbo j ↔ j = m) ∧
      (s'.NoBuddies fun _ => False) ∧ (l < 7 → m ^^^ 2 ^ l ∉ s'.free l) ∧
      ∀ u, h'.container.blockType u = h.container.blockType u := by
  induction fuel generalizing h s i k with
  | zero => omega
  | succ fuel ih =>
    by_cases hmerge : h.possibleToMerge (buddy i k) i = true
    · have hmerge' := (hl.possibleToMerge_iff hi hlimbo).mp hmerge
      rw [← buddy_eq] at hmerge'
      obtain ⟨hk, hfree⟩ := hmerge'
      obtain ⟨c₁, heads, hremove, hl₁, hkeep₁, htypes₁⟩ := hl.removeFree hfree
      have hbb := (hl.mem hfree).1
      have hb0 : buddy i k ≠ 0 := fun h0 => hl.zero_not_free (h0 ▸ hfree)
      have hnb₁ : (s.unlist (buddy i k) k).NoBuddies fun _ => False := by
        intro j l hl7 hj hj'
        exact hnb j l hl7 ((hl.mem_unlist hfree).mp hj).1 ((hl.mem_unlist hfree).mp hj').1
      -- The lower one of the two buddies is the merged block.
      have hlower : ∃ m, m = min (buddy i k) i ∧ 2 ^ (k + 1) ∣ m ∧ m ≠ 0 ∧
          s.blocks m = some k ∧ s.blocks (m + 2 ^ k) = some k ∧
          ∀ j, (s.unlist (buddy i k) k).limbo j ↔ j = m ∨ j = m + 2 ^ k := by
        have hlim : ∀ j, (s.unlist (buddy i k) k).limbo j ↔ j = buddy i k ∨ j = i := fun j =>
          or_congr_right (hlimbo j)
        rcases buddy_cases (hl.tiles.aligned hi) with ⟨hal, heq⟩ | ⟨hal, heq⟩
        · rw [← buddy_eq] at heq
          refine ⟨i, ?_, hal, hi0, hi, heq ▸ hbb, fun j => ?_⟩
          · rw [heq]
            exact (Nat.min_eq_right (Nat.le_add_right _ _)).symm
          · rw [hlim, ← heq, or_comm]
        · rw [← buddy_eq] at heq hal
          refine ⟨buddy i k, ?_, hal, hb0, hbb, heq ▸ hi, fun j => ?_⟩
          · exact (Nat.min_eq_left (Nat.le.intro heq.symm)).symm
          · rw [hlim, ← heq]
      obtain ⟨m, hm, hal, hm0, hmb, hmb', hlim⟩ := hlower
      obtain ⟨hl₂, hkeep₂, htypes₂⟩ := hl₁.merge hmb hmb' hal hk hm0 hlim
      have hmb₂ : ((s.unlist (buddy i k) k).merge m k).blocks m = some (k + 1) :=
        merge_eq_some.mpr (.inl ⟨rfl, rfl⟩)
      obtain ⟨m', l, h', s', hrun, hl', hkeep', hb', hm', hlim', hnb', hnot, htypes'⟩ :=
        ih hl₂ hmb₂ hm0 (fun _ => Iff.rfl) hnb₁ (by omega)
      refine ⟨m', l, h', s', ?_, hl', (hkeep₁.trans hkeep₂).trans hkeep', hb', hm', hlim', hnb',
        hnot, fun u => (htypes' u).trans ((htypes₂ u).trans (htypes₁ u))⟩
      have horder : c₁.order m = k := hl₁.order hmb
      have hset : c₁.setOrder m (k + 1) = .ok (c₁.setHeaderField m HeaderFields.order (k + 1)) :=
        setOrder_eq hk
      simp only [Heap.mergeLoop, hmerge, if_true, hremove, ← hm, horder, hset, hrun]
    · refine ⟨i, k, h, s, ?_, hl, Keeps.refl h s, hi, hi0, hlimbo, hnb, fun hk hfree => ?_,
        fun _ => rfl⟩
      · simp [Heap.mergeLoop, Bool.eq_false_iff.mpr hmerge]
      · exact hmerge ((hl.possibleToMerge_iff hi hlimbo).mpr ⟨hk, hfree⟩)

end

/-- Freeing a used block other than the header succeeds. -/
theorem freeBlock (hl : h.Layout s) (hlimbo : ∀ j, ¬s.limbo j) (hnb : s.NoBuddies fun _ => False)
    (hi : s.blocks i = some k) (hi0 : i ≠ 0)
    (htype : h.container.blockType i ≠ BlockType.free.toNat) :
    ∃ h' s', h.freeBlock i = some (.ok (), h') ∧ h'.Layout s' ∧ Keeps h (s.release i) h' s' ∧
      (∀ j, ¬s'.limbo j) ∧ (s'.NoBuddies fun _ => False) ∧ Retypes h h' s' := by
  have hnotfree : h.container.isFree i = false := by simp [isFree, htype]
  have hl₁ := hl.release hlimbo htype
  obtain ⟨m, l, h₂, s₂, hrun, hl₂, hkeep₂, hm, hm0, hlim₂, hnb₂, hnot, htypes⟩ :=
    hl₁.mergeLoop hi hi0 (fun _ => Iff.rfl) hnb (show 7 - k < 16 by omega)
  obtain ⟨hl', hkeep'⟩ := hl₂.push hm hm0 hlim₂ (h₂.deallocatedBlocks + 1)
  refine ⟨_, s₂.push m l, ?_, hl', hkeep₂.trans hkeep', fun _ => id, ?_, fun u _ => ?_⟩
  · have horder : h₂.container.order m = l := hl₂.order hm
    have hno : ¬Constants.numOrders ≤ l := Nat.not_le.mpr (Nat.lt_succ_of_le (hl₂.order_le hm))
    simp only [Heap.freeBlock, hnotfree, hl.order hi, hrun, horder, if_neg hno, Heap.setFreeHead]
    simp
  · intro j n hn7 hjp hjp'
    rcases Shape.mem_push.mp hjp with ⟨rfl, rfl⟩ | hj
    · have hpos : 0 < 2 ^ n := Nat.two_pow_pos n
      rcases Shape.mem_push.mp hjp' with ⟨-, hself⟩ | hj'
      · rcases buddy_cases (hl₂.tiles.aligned hm) with ⟨-, heq⟩ | ⟨-, heq⟩ <;> omega
      · exact absurd hj' (hnot hn7)
    · rcases Shape.mem_push.mp hjp' with ⟨rfl, hself⟩ | hj'
      · rw [← hself, Nat.xor_xor_cancel_right] at hnot
        exact absurd hj (hnot hn7)
      · exact hnb₂ j n hn7 hj hj'
  · by_cases hum : u = m
    · exact .inr (by simp [hum, Shape.push, hm])
    · exact .inl ((congrArg View.blockType (view_of_unit length_becomeFree
        (unit_becomeFree hum))).trans (htypes u))

end Layout

end Smos.Inspect.Heap
