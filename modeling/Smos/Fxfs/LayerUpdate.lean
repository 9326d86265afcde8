import Smos.Fxfs.AllocatorScan
import Smos.Fxfs.LsmMergeInto
import Smos.Fxfs.ObjectScan
import Smos.Lib.Intervals

/-!
Merging a record into the mutable layer is an update of the map that the layer stands for: of the
device bytes for the allocator, and of the offsets of an attribute for the object store.

The layers of the object store may hold tombstones here.  The lower bound of an extent lies after
the tombstone of its object, so that the two never meet.
-/
namespace Smos.Fxfs

open Lib Lib.Spans Fxfs.Lsm

namespace Allocator

/-- Merging a record into an allocator layer sets the value of its range. -/
theorem mergeInto_lookup {items : List AllocatorItem} (hlayer : IsLayer span items)
    (item : AllocatorItem) (hok : item.key.deviceRange.start < item.key.deviceRange.stop) {fuel : ℕ}
    (hfuel : span.weight item + (items.map span.weight).sum < fuel) :
    ∃ out, mergeInto merge fuel items item item.key.lowerBoundForMergeInto = some out ∧
      IsLayer span out ∧ ∀ p, lookup out p =
        if item.key.deviceRange.start ≤ p ∧ p < item.key.deviceRange.stop then some item.value
        else lookup items p := by
  have hbound : ∀ x ∈ items, cmpUpperBound x.key item.key.lowerBoundForMergeInto = .lt →
      span.hi x ≤ span.lo item := by
    intro x _ hlt
    exact (compare_lt_iff_lt.mp hlt).le
  obtain ⟨out, hrun, hout, hden⟩ := mergeInto_spec mergeLaws hlayer hok hbound hfuel
  refine ⟨out, hrun, hout, ?_⟩
  intro p
  rw [← lookup_cons, lookup_eq_listDen, lookup_eq_listDen, hden, listDen_cons]

end Allocator

namespace ObjectStore

variable {D : Type} {b : ℕ} {rules : ItemRules} {oid i : ℕ} {items : List (ObjectItem D)}

/-- Extents of an attribute are merged into extents of the attribute. -/
private theorem mergeExtents_isExtentOf {left right : LayerItem ObjectKey (ObjectValue D)}
    {l r : ExtentKey} {v w : ExtentValue} {emit : Option (ObjectItem D)}
    {lop rop : ItemOp (ObjectItem D)}
    (hres : mergeExtents oid i left right l r v w = .other emit lop rop) :
    ∀ z, emit = some z ∨ lop = .replace z ∨ rop = .replace z → isExtentOf oid i z = true := by
  intro z hz
  have hkey : ∃ range, z.key = .extent oid i range := by
    simp only [mergeExtents, mergeDeletedExtents] at hres
    split_ifs at hres <;> cases hres
    all_goals
      simp only [ItemOp.replace.injEq, Option.some.injEq, reduceCtorEq, or_false, false_or] at hz
    · exact ⟨_, (congrArg Item.key hz).symm⟩
    · rcases hz with hz | hz
      · exact ⟨_, (congrArg Item.key hz).symm⟩
      · exact ⟨_, (congrArg Item.key hz).symm⟩
    · exact ⟨_, (congrArg Item.key hz).symm⟩
  obtain ⟨range, hkey⟩ := hkey
  exact isExtentOf_of_key hkey

private theorem not_isTombstone_of_isExtentOf {item : ObjectItem D}
    (h : isExtentOf oid i item = true) : isTombstone item = false := by
  obtain ⟨-, e, hdata⟩ := isExtentOf_iff.mp h
  simp [isTombstone, hdata]

/-- The extents of an attribute are a family. -/
theorem staysIn_isExtentOf (D : Type) (oid i : ℕ) :
    StaysIn (mergeRecords (D := D)) fun item => isExtentOf oid i item = true := by
  refine ⟨?_, ?_⟩
  · intro left right hne
    refine mergeRecords_of_stream_ne fun hstream => hne ⟨?_, ?_⟩
    · exact isExtentOf_of_stream_eq hstream
    · exact isExtentOf_of_stream_eq hstream.symm
  · intro left right emit lop rop hleft hres
    obtain ⟨rfl, e, hdata⟩ := isExtentOf_iff.mp hleft
    unfold mergeRecords merge at hres
    rw [if_neg (by simp [not_isTombstone_of_isExtentOf hleft])] at hres
    by_cases hoid : left.key.objectId = right.key.objectId
    swap
    · rw [if_pos hoid] at hres
      cases hres
    rw [if_neg (not_not.mpr hoid)] at hres
    split at hres
    · next j l j' r v w hdl _ _ _ =>
      cases hdata.symm.trans hdl
      split_ifs at hres
      exact mergeExtents_isExtentOf hres
    · next hdl _ _ _ => cases hdata.symm.trans hdl
    · next hdl _ => cases hdata.symm.trans hdl
    · split_ifs at hres
      cases hres
      simp

/-- Past the lower bound of an extent there is no tombstone of its object. -/
private theorem objectId_ne_of_isTombstone
    (h : IsObjectLayer b rules items) {range : Range} {x : ObjectItem D}
    (hx : x ∈ items.dropWhile fun x =>
      (Bound.included (ObjectKey.extent oid i range).keyForMergeInto).isBefore x.key)
    (htomb : isTombstone x = true) : x.key.objectId ≠ oid := by
  rintro rfl
  let bound := Bound.included (ObjectKey.extent x.key.objectId i range).keyForMergeInto
  have hafter : bound.isBefore x.key = false := by
    refine Lib.Intervals.not_of_mem_dropWhile h.sorted ?_ x hx
    intro x y hlt hx
    rw [← Bool.not_eq_true] at hx ⊢
    refine mt ?_ hx
    intro hy
    have hlt := (ObjectKey.cmpUpperBound_compares _ _).eq_lt.mp hlt
    simp only [Bound.isBefore, beq_iff_eq] at hy ⊢
    have hy := (ObjectKey.cmpUpperBound_compares _ _).eq_lt.mp hy
    exact (ObjectKey.cmpUpperBound_compares _ _).eq_lt.mpr (hlt.trans hy)
  have hdata : x.key.data = .object := by
    unfold isTombstone at htomb
    split at htomb
    · next hdata _ => exact hdata
    · cases htomb
  apply Bool.eq_false_iff.mp hafter
  simp only [bound, Bound.isBefore, beq_iff_eq]
  change x.key.cmpUpperBound _ = .lt
  simp [ObjectKey.cmpUpperBound, ObjectKey.cmpBound, ObjectKey.keyForMergeInto, ObjectKey.extent,
    hdata, ObjectKeyData.cmp, ObjectKeyData.index]
  rfl

/-- Up to tombstones before the lower bound, tombstones are records like any other. -/
private theorem mergeInto_eq_mergeRecords
    (h : IsObjectLayer b rules items) (fuel : ℕ) (range : Range) (v : ExtentValue) (seq : ℕ) :
    mergeInto merge fuel items (extentItem D oid i range v seq)
        (ObjectKey.extent oid i range).keyForMergeInto =
      mergeInto mergeRecords fuel items (extentItem D oid i range v seq)
        (ObjectKey.extent oid i range).keyForMergeInto := by
  refine mergeInto_congr (B := fun x => isTombstone x = true → x.key.objectId ≠ oid)
    (staysIn_isExtentOf D oid i) ?_ ?_ ?_ fuel (isExtentOf_of_key rfl)
    fun x hx => objectId_ne_of_isTombstone h hx
  · intro z hz
    simp [not_isTombstone_of_isExtentOf hz]
  · intro x y hx hy
    by_cases htomb : isTombstone x = true
    · have hne : x.key.objectId ≠ y.key.objectId := by
        rw [(isExtentOf_iff.mp hy).1]
        exact hx htomb
      have hkey : x.key ≠ y.key := fun h => hne (congrArg ObjectKey.objectId h)
      simp [merge, mergeRecords, htomb, hne, hkey]
    · simp [mergeRecords, htomb]
  · intro x y _ hy
    simp [mergeRecords, not_isTombstone_of_isExtentOf hy]

/-- Merging an extent into a layer of the object store sets what its offsets are mapped to, and
changes no item that is not an extent of the attribute. -/
theorem mergeInto_extentAt (hlayer : IsObjectLayer b rules items)
    {range : Range} {v : ExtentValue} (hok : ExtentOk b range v) (seq : ℕ) {fuel : ℕ}
    (hfuel : (span D b rules).weight (extentItem D oid i range v seq) +
      (items.map (span D b rules).weight).sum < fuel) :
    ∃ out, mergeInto merge fuel items (extentItem D oid i range v seq)
        (ObjectKey.extent oid i range).keyForMergeInto = some out ∧
      IsObjectLayer b rules out ∧
      (∀ objectId attributeId x, extentAt b out objectId attributeId x =
        if oid = objectId ∧ i = attributeId ∧ range.start ≤ x ∧ x < range.stop then
          some (v.pointAt b range.start x)
        else extentAt b items objectId attributeId x) ∧
      (out.filter fun x => ¬ isExtentOf oid i x = true) =
        items.filter fun x => ¬ isExtentOf oid i x = true := by
  have hbound : ∀ x ∈ items,
      cmpUpperBound x.key (ObjectKey.extent oid i range).keyForMergeInto = .lt →
        (span D b rules).hi x ≤ (span D b rules).lo (extentItem D oid i range v seq) := by
    intro x _ hlt
    exact ((ObjectKey.cmpUpperBound_compares _ _).eq_lt.mp hlt).le
  have hitem : (span D b rules).Ok (extentItem D oid i range v seq) := extentItem_ok rules hok
  obtain ⟨out, hrun, hout, hden⟩ :=
    mergeInto_spec (mergeRecordsLaws D b rules) hlayer.isLayer hitem hbound hfuel
  refine ⟨out, (mergeInto_eq_mergeRecords hlayer fuel range v seq).trans hrun,
    (isObjectLayer_of_isLayer hout).1, ?_,
    mergeInto_frame (staysIn_isExtentOf D oid i) (isExtentOf_of_key rfl) hrun⟩
  intro objectId attributeId x
  apply Option.map_injective (fun _ _ h => PointValue.extent.inj h)
  rw [extentAt_eq_listDen hout.ok, hden, FirstWins.toOption_mul,
    toOption_den_extentPos (extentItem_ok rules hok),
    ← extentAt_eq_listDen hlayer.ok]
  by_cases hx : oid = objectId ∧ i = attributeId ∧ range.start ≤ x ∧ x < range.stop
  · have hin : itemExtentAt b objectId attributeId x (extentItem D oid i range v seq) =
        some (v.pointAt b range.start x) := if_pos hx
    rw [hin, if_pos hx]
    rfl
  · have hout : itemExtentAt b objectId attributeId x (extentItem D oid i range v seq) = none :=
      if_neg hx
    rw [hout, if_neg hx]
    rfl

end ObjectStore

/-- Merging a record into a mutable layer, for the allocator and for the extents of the object
store, is an update of the map that the layer stands for. -/
theorem mergeInto_refines_update :
    (∀ (items : List Allocator.AllocatorItem) (item : Allocator.AllocatorItem),
      IsLayer Allocator.span items → item.key.deviceRange.start < item.key.deviceRange.stop →
      ∀ fuel, Allocator.span.weight item + (items.map Allocator.span.weight).sum < fuel →
      ∃ out, mergeInto Allocator.merge fuel items item item.key.lowerBoundForMergeInto = some out ∧
        IsLayer Allocator.span out ∧ ∀ p, Allocator.lookup out p =
          if item.key.deviceRange.start ≤ p ∧ p < item.key.deviceRange.stop then some item.value
          else Allocator.lookup items p) ∧
    ∀ (D : Type) (b : ℕ) (items : List (ObjectStore.ObjectItem D)) (oid i : ℕ) (range : Range)
      (v : ExtentValue) (seq : ℕ), ObjectStore.IsObjectLayer b .any items → ExtentOk b range v →
      ∀ fuel, (ObjectStore.span D b .any).weight (ObjectStore.extentItem D oid i range v seq) +
        (items.map (ObjectStore.span D b .any).weight).sum < fuel →
      ∃ out, mergeInto ObjectStore.merge fuel items (ObjectStore.extentItem D oid i range v seq)
          (ObjectKey.extent oid i range).keyForMergeInto = some out ∧
        ObjectStore.IsObjectLayer b .any out ∧
        (∀ objectId attributeId x, ObjectStore.extentAt b out objectId attributeId x =
          if oid = objectId ∧ i = attributeId ∧ range.start ≤ x ∧ x < range.stop then
            some (v.pointAt b range.start x)
          else ObjectStore.extentAt b items objectId attributeId x) ∧
        (out.filter fun x => ¬ ObjectStore.isExtentOf oid i x = true) =
          items.filter fun x => ¬ ObjectStore.isExtentOf oid i x = true := by
  refine ⟨?_, ?_⟩
  · intro items item hlayer hok fuel hfuel
    exact Allocator.mergeInto_lookup hlayer item hok hfuel
  · intro D b items oid i range v seq hlayer hok fuel hfuel
    exact ObjectStore.mergeInto_extentAt hlayer hok seq hfuel

/-- An allocation over part of another one, and a write over the middle of a file. -/
theorem mergeInto_refines_update_overlap :
    (∃ out, mergeInto Allocator.merge 100 [⟨⟨⟨0, 10⟩⟩, .abs 1 7, 0⟩] ⟨⟨⟨4, 6⟩⟩, .none, 0⟩
        (Allocator.AllocatorKey.lowerBoundForMergeInto ⟨⟨4, 6⟩⟩) = some out ∧
      Allocator.lookup out 5 = some .none ∧ Allocator.lookup out 7 = some (.abs 1 7)) ∧
    ∃ out, mergeInto ObjectStore.merge 100
        [ObjectStore.extentItem Unit 1 0 ⟨0, 12⟩ (.some 16 (.cow [7, 8, 9]) 0) 0]
        (ObjectStore.extentItem Unit 1 0 ⟨4, 8⟩ (.some 40 .raw 0) 0)
        (ObjectKey.extent 1 0 ⟨4, 8⟩).keyForMergeInto = some out ∧
      ObjectStore.extentAt 4 out 1 0 5 = some (.mapped 41 .raw 0) ∧
      ObjectStore.extentAt 4 out 1 0 8 = some (.mapped 24 (.cow (some 9)) 0) := by
  obtain ⟨hallocator, hobjects⟩ := mergeInto_refines_update
  refine ⟨?_, ?_⟩
  · obtain ⟨out, hrun, -, hlookup⟩ := hallocator [⟨⟨⟨0, 10⟩⟩, .abs 1 7, 0⟩] ⟨⟨⟨4, 6⟩⟩, .none, 0⟩
      ⟨by simp [Allocator.span], List.pairwise_singleton _ _⟩ (by decide) 100 (by decide)
    exact ⟨out, hrun, (hlookup 5).trans rfl, (hlookup 7).trans rfl⟩
  · obtain ⟨out, hrun, -, hextents, -⟩ := hobjects Unit 4
      [ObjectStore.extentItem Unit 1 0 ⟨0, 12⟩ (.some 16 (.cow [7, 8, 9]) 0) 0] 1 0 ⟨4, 8⟩
      (.some 40 .raw 0) 0
      (ObjectStore.isObjectLayer_singleton (ObjectStore.extentItem_ok .any
        ⟨by decide, by decide, by decide, by decide, by
          intro offset mode keyId h
          cases h
          exact .inr rfl⟩))
      ⟨by decide, by decide, by decide, by decide, by
        intro offset mode keyId h
        cases h
        trivial⟩ 100 (by decide)
    exact ⟨out, hrun, (hextents 1 0 5).trans rfl, (hextents 1 0 8).trans rfl⟩

end Smos.Fxfs
