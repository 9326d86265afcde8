import Smos.Fxfs.LsmScan
import Smos.Fxfs.ExtentRecord
import Smos.Lib.FirstWins
import Smos.Lib.Overlay

/-!
The records of the allocator and their merge function (`object_store/allocator.rs`,
`object_store/allocator/merge.rs`).  An allocator layer assigns values to ranges of device bytes.
-/
namespace Smos.Fxfs.Allocator

open Lib Lib.Spans Fxfs.Lsm

structure AllocatorKey where
  deviceRange : Range
  deriving DecidableEq, Repr

inductive AllocatorValue where
  | none
  | abs (count ownerObjectId : ℕ)
  deriving DecidableEq, Repr

abbrev AllocatorItem := Item AllocatorKey AllocatorValue

def AllocatorKey.lowerBoundForMergeInto (key : AllocatorKey) : AllocatorKey :=
  ⟨⟨0, key.deviceRange.start⟩⟩

instance : LayerKey AllocatorKey where
  cmpUpperBound a b := compare a.deviceRange.stop b.deviceRange.stop
  cmpLowerBound a b := (compare a.deviceRange.start b.deviceRange.start).then
    (compare a.deviceRange.stop b.deviceRange.stop)
  mergeType _ := .optimizedMerge

def merge (left right : LayerItem AllocatorKey AllocatorValue) : MergeResult AllocatorItem :=
  let l := left.key.deviceRange
  let r := right.key.deviceRange
  if l.stop < r.start then .emitLeft
  else if l.stop = r.start then
    if left.value = right.value then
      .other none .discard
        (.replace ⟨⟨⟨l.start, r.stop⟩⟩, left.value, min left.sequence right.sequence⟩)
    else .emitLeft
  else if l.start = r.start then
    if l.stop < r.stop then
      if left.layerIndex < right.layerIndex then
        .other none .keep
          (if l.stop = r.stop then .discard
          else .replace ⟨⟨⟨l.stop, r.stop⟩⟩, right.value, right.sequence⟩)
      else .other none .discard .keep
    else
      if right.layerIndex < left.layerIndex then
        .other none
          (if r.stop = l.stop then .discard
          else .replace ⟨⟨⟨r.stop, l.stop⟩⟩, left.value, left.sequence⟩)
          .keep
      else .other none .keep .discard
  else
    .other (some ⟨⟨⟨l.start, r.start⟩⟩, left.value, left.sequence⟩)
      (.replace ⟨⟨⟨r.start, l.stop⟩⟩, left.value, left.sequence⟩) .keep

def valueAt (item : AllocatorItem) (p : ℕ) : FirstWins AllocatorValue Unit :=
  if item.key.deviceRange.start ≤ p ∧ p < item.key.deviceRange.stop then .of item.value else 1

def span : Span AllocatorItem ℕ (FirstWins AllocatorValue Unit) where
  lo item := item.key.deviceRange.start
  hi item := item.key.deviceRange.stop
  den := valueAt
  weight item := item.key.deviceRange.stop - item.key.deviceRange.start + 1
  Ok item := item.key.deviceRange.start < item.key.deviceRange.stop
  lo_lt_hi _ h := h
  den_before item p h := by
    simp only [valueAt]
    rw [if_neg (by omega)]
  den_after item p h := by
    simp only [valueAt]
    rw [if_neg (by omega)]
  weight_pos _ := by omega

section

variable (item : AllocatorItem)
include item

theorem valueAt_of_mem {p : ℕ} (hlo : item.key.deviceRange.start ≤ p)
    (hhi : p < item.key.deviceRange.stop) : valueAt item p = .of item.value := by
  simp [valueAt, hlo, hhi]

theorem span_absorbs : Absorbs span item := by
  intro p hlo hhi m
  change valueAt item p * m = valueAt item p
  rw [valueAt_of_mem item hlo hhi, FirstWins.of_mul]

theorem span_hasValue : HasValue span item (.of item.value) :=
  fun _ hlo hhi => valueAt_of_mem item hlo hhi

/-- The item with its range cut down. -/
theorem span_restricts {start stop seq : ℕ} (hlt : start < stop)
    (hlo : item.key.deviceRange.start ≤ start) (hhi : stop ≤ item.key.deviceRange.stop) :
    Restricts span ⟨⟨⟨start, stop⟩⟩, item.value, seq⟩ item start stop := by
  refine ⟨hlt, rfl, rfl, ?_⟩
  intro p h₁ h₂
  change valueAt _ p = valueAt item p
  rw [valueAt_of_mem item (by omega) (by omega)]
  exact valueAt_of_mem _ h₁ h₂

end

def rank (key : AllocatorKey) : ℕ ×ₗ ℕ := toLex (key.deviceRange.start, key.deviceRange.stop)

theorem rank_le_start {j k : AllocatorKey} (h : rank j ≤ rank k) :
    j.deviceRange.start ≤ k.deviceRange.start := by
  simp only [rank, Prod.Lex.toLex_le_toLex] at h
  rcases h with h | h
  · exact h.le
  · exact h.1.le

private theorem precedes_start_le {left right : LayerItem AllocatorKey AllocatorValue}
    (h : Precedes rank left right) :
    left.key.deviceRange.start ≤ right.key.deviceRange.start := by
  rcases h with h | h
  · exact rank_le_start h.le
  · exact rank_le_start h.1.le

/-- Every answer other than to emit the left item is a sound merge step. -/
private theorem merge_other_sound (left right : LayerItem AllocatorKey AllocatorValue)
    (emit : Option AllocatorItem) (l r : ItemOp AllocatorItem) (hl : span.Ok left.toItem)
    (hr : span.Ok right.toItem) (hprec : Precedes rank left right)
    (hne : left.layerIndex ≠ right.layerIndex) (hres : merge left right = .other emit l r) :
    MergeSound span left.layerIndex left.toItem right.layerIndex right.toItem emit
      (l.apply left.toItem) (r.apply right.toItem) := by
  have hl : left.key.deviceRange.start < left.key.deviceRange.stop := hl
  have hr : right.key.deviceRange.start < right.key.deviceRange.stop := hr
  have hle := precedes_start_le hprec
  have hsame (hstart : left.key.deviceRange.start = right.key.deviceRange.start) :
      left.key.deviceRange.stop < right.key.deviceRange.stop ∨
        left.key.deviceRange.stop = right.key.deviceRange.stop ∧
          left.layerIndex < right.layerIndex := by
    simp only [Precedes, rank, Prod.Lex.toLex_lt_toLex, EmbeddingLike.apply_eq_iff_eq,
      Prod.mk.injEq, hstart] at hprec
    omega
  simp only [merge] at hres
  split_ifs at hres with h₁ h₂ h₃ h₄ h₅ h₆ h₇ h₈ h₉ <;> cases hres
  all_goals simp only [ItemOp.apply]
  · -- The ranges touch and carry one value: they become one item of the right layer.
    have hvalue := span_hasValue right.toItem
    rw [← h₃] at hvalue
    refine MergeSound.join_right (FirstWins.of_mul _) (.inl h₂) h₂.ge ?_ hle
      (span_hasValue left.toItem) hvalue ?_ rfl rfl (span_hasValue _) ?_
    all_goals
      simp only [span]
      omega
  · omega
  · -- The newer left range hides the beginning of the right one.
    refine MergeSound.trim_right h₆ hl hle ?_ (span_absorbs _)
      (span_restricts right.toItem h₅ (by omega) le_rfl) ?_
    all_goals
      simp only [span]
      omega
  · -- The newer right range covers the left one.
    refine MergeSound.discard_left (by omega) hr h₄ ?_ ?_ (span_absorbs _)
    all_goals
      simp only [span]
      omega
  · omega
  · omega
  · -- Equal ranges: the left one is of the newer layer.
    refine MergeSound.discard_right (by omega) hl hle ?_ ?_ (span_absorbs _)
    all_goals
      simp only [span]
      omega
  · -- The part of the left range before the right one is emitted.
    refine MergeSound.split_left hr ?_ hle
      (span_restricts left.toItem (by omega) le_rfl (by omega))
      (span_restricts left.toItem (by omega) hle le_rfl) ?_
    all_goals
      simp only [span]
      omega

/-- The merge function's answers are sound for any two items that the heap presents. -/
theorem mergeLaws : MergeLaws span rank merge where
  cmp_eq _ _ := rfl
  lo_le _ _ h := rank_le_start h
  emitLeft left right hl hr hprec hne hres := by
    change left.key.deviceRange.stop ≤ right.key.deviceRange.start
    simp only [merge] at hres
    split_ifs at hres
    all_goals omega
  other := merge_other_sound

end Smos.Fxfs.Allocator
