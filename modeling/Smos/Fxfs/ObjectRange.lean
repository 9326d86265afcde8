import Smos.Fxfs.LsmPutBack
import Smos.Fxfs.ObjectScan

/-!
Range queries for the extents of an attribute.  Layers are consulted lazily, and every offset is
read from the first extent emitted for it.  Only a deletion that has been joined with one of the
adjacent older layer can be emitted over offsets that have been passed already.
-/
namespace Smos.Fxfs.ObjectStore

open Lib Lib.Spans Fxfs.Lsm List

variable {D : Type} {b oid i : ℕ} {rules : ItemRules} {item : ObjectItem D} {x : ℕ} {range : Range}

instance : Nontrivial (Meaning D) :=
  ⟨.amount 0, .amount ⟨1, 0⟩, by simp [Usage.ext_iff]⟩

section Merge

variable {left right : LayerItem ObjectKey (ObjectValue D)}

def DeletesIn (oid i : ℕ) (deleting : ℕ → Prop) (z : LayerItem ObjectKey (ObjectValue D)) : Prop :=
  isExtentOf oid i z.toItem = true → z.value = .extent .none → deleting z.layerIndex

/-- A part of an extent is a deletion only if the extent is one. -/
theorem DeletesIn.part {deleting : ℕ → Prop} {z : LayerItem ObjectKey (ObjectValue D)}
    (h : DeletesIn oid i deleting z) {j seq : ℕ} {e : ExtentKey} {v w : ExtentValue}
    (hdata : z.key.data = .attribute j (.extent e)) (hvalue : z.value = .extent w)
    (hv : v = .none → w = .none) (range : Range) :
    DeletesIn (D := D) oid i deleting
      ⟨⟨.extent z.key.objectId j range, .extent v, seq⟩, z.layerIndex⟩ := by
  intro hext hdeleted
  obtain ⟨hoid, e', hdata'⟩ := isExtentOf_iff.mp hext
  obtain rfl : j = i := (ObjectKeyData.attribute.inj hdata').1
  refine h (isExtentOf_iff.mpr ⟨hoid, e, hdata⟩) ?_
  rw [hvalue, hv (ObjectValue.extent.inj hdeleted)]

end Merge

section Run

variable {n x₀ fuel : ℕ} {meaning : List ℕ ×ₗ ℕ → Meaning D}
  {pending : List (ℕ × Layer ObjectKey (ObjectValue D))} {heap : Heap ObjectKey (ObjectValue D)}
  {bound : Bound ObjectKey} {current : CurrentItem ObjectKey (ObjectValue D)}
  {m : MergerIterator ObjectKey (ObjectValue D)} {x : ObjectItem D}

/-- The bound passes over what ends before the offset, or there is nothing to pass over. -/
def BoundAt (b oid i x₀ : ℕ) (heap : Heap ObjectKey (ObjectValue D)) (bound : Bound ObjectKey) :
    Prop :=
  (∀ x : ObjectItem D, bound.isBefore x.key = true ↔ x.key.hi ≤ extentPos oid i x₀) ∨
    bound = .unbounded ∧
      ∀ j, ∀ y ∈ heapRem heap j, extentPos oid i x₀ ≤ (span D b .noTombstones).lo y

theorem BoundAt.hi_le (h : BoundAt b oid i x₀ heap bound) (hx : bound.isBefore x.key = true) :
    x.key.hi ≤ extentPos oid i x₀ := by
  rcases h with h | ⟨rfl, -⟩
  · exact (h x).mp hx
  · cases hx

def Apart (deleting : ℕ → Prop) : Prop := ∀ a, deleting a → ¬ deleting (a + 1)

variable {deleting : ℕ → Prop}

/-- From an offset on, the first item that covers an offset has what is to be read there, and live
extents have nothing else; nor has any item if `sure` holds. -/
structure Reads (b oid i : ℕ) (meaning : List ℕ ×ₗ ℕ → Meaning D) (sure : Prop) (x₀ : ℕ)
    (out : List (ObjectItem D)) : Prop where
  first : ∀ x, x₀ ≤ x →
    (extentAt b out oid i x).map PointValue.extent = (meaning (extentPos oid i x)).toOption
  agrees : ∀ item ∈ out, item.value ≠ .extent .none ∨ sure → ∀ x, x₀ ≤ x → ∀ point,
    itemExtentAt b oid i x item = some point →
      (meaning (extentPos oid i x)).toOption = some (.extent point)

variable {sure : Prop}

theorem Reads.nil (h : ∀ x, x₀ ≤ x → meaning (extentPos oid i x) = 1) :
    Reads b oid i meaning sure x₀ [] := by
  refine ⟨?_, by simp⟩
  intro x hx
  rw [h x hx]
  rfl

theorem itemExtentAt_eq_none {y : ℕ} (hok : ItemOk b rules item)
    (h : extentPos oid i y < item.key.lo) : itemExtentAt b oid i y item = none := by
  have hden := toOption_den_extentPos hok oid i y
  rw [(span D b rules).den_before item _ h] at hden
  exact Option.map_eq_none_iff.mp hden.symm

/-- Reading on from the end of an emitted extent. -/
theorem Reads.cons {v : ExtentValue} {seq : ℕ} {out : List (ObjectItem D)}
    (hok : ∀ item ∈ out, ItemOk b .noTombstones item)
    (hcovers : ∀ y, x₀ ≤ y → range.start ≤ y → y < range.stop →
      meaning (extentPos oid i y) = .of (.extent (v.pointAt b range.start y)))
    (hbefore : ∀ y, x₀ ≤ y → y < range.start → meaning (extentPos oid i y) = 1 ∧
      ∀ item ∈ out, extentPos oid i range.stop ≤ item.key.lo)
    (hlater : ∀ item ∈ out, item.value ≠ .extent .none ∨ sure →
      extentPos oid i range.stop ≤ item.key.lo)
    (hne : range.start < range.stop) (h : Reads b oid i meaning sure range.stop out) :
    Reads b oid i meaning sure x₀ (extentItem D oid i range v seq :: out) := by
  have hitem : ∀ y, itemExtentAt b oid i y (extentItem D oid i range v seq) =
      if range.start ≤ y ∧ y < range.stop then some (v.pointAt b range.start y) else none := by
    intro y
    simp [itemExtentAt, ObjectKey.extent]
  constructor
  · intro y hy
    rw [extentAt, findSome?_cons, hitem]
    rcases lt_or_ge y range.start with hlt | hge
    · obtain ⟨hone, hafter⟩ := hbefore y hy hlt
      have hnone : out.findSome? (itemExtentAt b oid i y) = none := by
        rw [findSome?_eq_none_iff]
        intro item hitem
        refine itemExtentAt_eq_none (hok item hitem) ?_
        exact (extentPos_lt.mpr (by omega)).trans_le (hafter item hitem)
      rw [if_neg (by omega), hone]
      simp [hnone]
    · rcases lt_or_ge y range.stop with hlt | hge'
      · rw [if_pos ⟨hge, hlt⟩, hcovers y hy hge hlt]
        rfl
      · rw [if_neg (by omega)]
        exact h.first y hge'
  · intro item hmem hvalue y hy point hpoint
    rcases mem_cons.mp hmem with rfl | hmem
    · rw [hitem] at hpoint
      split_ifs at hpoint with hrange
      cases hpoint
      rw [hcovers y hy hrange.1 hrange.2]
      rfl
    · refine h.agrees item hmem hvalue y ?_ point hpoint
      by_contra hlt
      rw [itemExtentAt_eq_none (hok item hmem)
        ((extentPos_lt.mpr (not_le.mp hlt)).trans_le (hlater item hmem hvalue))] at hpoint
      cases hpoint

section Emitted

variable {heap₀ heap' : Heap ObjectKey (ObjectValue D)}
  {item : CurrentItem ObjectKey (ObjectValue D)} {v : ExtentValue} {seq : ℕ}
  (h : Ready (span D b .noTombstones) n (extentPos oid i x₀) meaning pending heap)
  (hskip : Skipped (span D b .noTombstones) n (extentPos oid i x₀) heap heap₀)
  (hemits : Emits (span D b .noTombstones) n heap₀ (extentItem D oid i range v seq) item heap')
include h hskip hemits

end Emitted

end Run

section Query

variable {layers : List (Layer ObjectKey (ObjectValue D))} {out : List (ObjectItem D)} {x : ℕ}

def Deletes (oid i : ℕ) (layer : Layer ObjectKey (ObjectValue D)) : Prop :=
  ∃ item ∈ layer.items, isExtentOf oid i item = true ∧ item.value = .extent .none

/-- No two adjacent layers that a query consults both have deletions in the attribute. -/
def DeletesApart (oid i : ℕ) (query : Query ObjectKey)
    (layers : List (Layer ObjectKey (ObjectValue D))) : Prop :=
  ∀ a layer next, layers[a]? = some layer → layers[a + 1]? = some next →
    query.needsLayer layer = true → query.needsLayer next = true →
    Deletes oid i layer → ¬ Deletes oid i next

theorem DeletesApart.apart (hlen : layers.length ≤ 65536) {query : Query ObjectKey}
    (h : DeletesApart oid i query layers) :
    Apart fun a => ∃ layer, (a, layer) ∈ queriedLayers query layers ∧ Deletes oid i layer := by
  have hmem : ∀ a layer, (a, layer) ∈ queriedLayers query layers →
      layers[a]? = some layer ∧ query.needsLayer layer = true := by
    intro a layer hlayer
    obtain ⟨hlayer, hneeds⟩ := mem_filter.mp hlayer
    rw [mergerIterators_of_le hlen] at hlayer
    obtain ⟨⟨layer', a'⟩, hzip, heq⟩ := mem_map.mp hlayer
    cases heq
    exact ⟨mem_zipIdx_iff_getElem?.mp hzip, hneeds⟩
  rintro a ⟨layer, hlayer, hdeletes⟩ ⟨next, hnext, hdeletes'⟩
  obtain ⟨hget, hneeds⟩ := hmem a layer hlayer
  obtain ⟨hget', hneeds'⟩ := hmem (a + 1) next hnext
  exact h a layer next hget hget' hneeds hneeds' hdeletes hdeletes'

section Reads

variable (hlen : layers.length ≤ 65536)
  (hlayers : ∀ layer ∈ layers, IsObjectLayer b .noTombstones layer.items)
  (hends : ∀ layer ∈ layers, ∀ item ∈ layer.items, item.key.range.stop < u64Max) (oid i : ℕ)
  (range : Range)
include hlen hlayers hends

end Reads

end Query

end Smos.Fxfs.ObjectStore
