import Smos.Fxfs.LsmRange

/-!
An emitted item that is put back in front of older layers.  The merger meets it again after the
older items that start before it, passes over it once, and emits nothing that starts before its
end, provided that the merge function keeps the item whole when it meets the items that the merger
holds.
-/
namespace Smos.Fxfs.Lsm

open Lib.Spans List Option

variable {K V : Type} {P M Q : Type} [LinearOrder P] [Monoid M] [LinearOrder Q]
  {S : Span (Item K V) P M} {n a : ℕ} {heap heap' : Heap K V} {f : P} {y : Item K V}

theorem GuardedBy.perm (h : GuardedBy S f heap a y) (hp : heap.Perm heap') :
    GuardedBy S f heap' a y := by
  obtain ⟨it, hit, hindex, hcur⟩ := h.shows_item
  exact ⟨⟨it, hp.mem_iff.mp hit, hindex, hcur⟩, fun it hit => h.others it (hp.mem_iff.mpr hit)⟩

section Step

variable {it it' : MergeLayerIterator K V} {op : ItemOp (Item K V)}

theorem mem_updateItem (h : it' ∈ updateItem heap (it.maybeAdvance op) op) :
    it'.layerIndex = it.layerIndex ∨ it' ∈ heap := by
  cases op with
  | keep =>
    rcases mem_cons.mp h with rfl | h
    · exact .inl rfl
    · exact .inr h
  | discard =>
    rcases mem_pushSome h with rfl | h
    · exact .inl it.advance_layerIndex
    · exact .inr h
  | replace x =>
    rcases mem_cons.mp h with rfl | h
    · exact .inl it.advance_layerIndex
    · exact .inr h

theorem mem_updateItem_of_mem (h : it' ∈ heap) :
    it' ∈ updateItem heap (it.maybeAdvance op) op := by
  cases op with
  | keep => exact mem_cons_of_mem _ h
  | discard => exact mem_pushSome_of_mem h
  | replace x => exact mem_cons_of_mem _ h

theorem updateItem_keep : it ∈ updateItem heap (it.maybeAdvance .keep) .keep :=
  mem_cons_self

variable {low second : MergeLayerIterator K V} {others : Heap K V} {l r : ItemOp (Item K V)}

/-- The guarding item stays if it is kept and the other iterator is of an older layer. -/
theorem GuardedBy.merged (h : GuardedBy S f (low :: second :: others) a y)
    (hlow : low.layerIndex = a ∧ l = .keep ∨ a < low.layerIndex)
    (hsecond : second.layerIndex = a ∧ r = .keep ∨ a < second.layerIndex) :
    GuardedBy S f (updateItem (updateItem others (low.maybeAdvance l) l)
      (second.maybeAdvance r) r) a y := by
  obtain ⟨it, hit, hindex, hcur⟩ := h.shows_item
  refine ⟨⟨it, ?_, hindex, hcur⟩, ?_⟩
  · rcases mem_cons.mp hit with rfl | hit
    · rcases hlow with ⟨-, rfl⟩ | hlt
      · exact mem_updateItem_of_mem updateItem_keep
      · omega
    rcases mem_cons.mp hit with rfl | hit
    · rcases hsecond with ⟨-, rfl⟩ | hlt
      · exact updateItem_keep
      · omega
    · exact mem_updateItem_of_mem (mem_updateItem_of_mem hit)
  · intro it' hit'
    rcases mem_updateItem hit' with heq | hit'
    · rw [heq]
      rcases hsecond with ⟨heq, -⟩ | hlt
      · exact .inl heq
      · exact .inr (.inl hlt)
    rcases mem_updateItem hit' with heq | hit'
    · rw [heq]
      rcases hlow with ⟨heq, -⟩ | hlt
      · exact .inl heq
      · exact .inr (.inl hlt)
    · exact h.others it' (by simp [hit'])

end Step

section Items

variable {R : LayerItem K V → Prop} {it : MergeLayerIterator K V} {z : Item K V}

structure MergeLayerIterator.Has (R : LayerItem K V → Prop) (it : MergeLayerIterator K V) :
    Prop where
  iter : ∀ z ∈ it.iter, R ⟨z, it.layerIndex⟩
  item : ∀ z, it.item = .item z → R ⟨z, it.layerIndex⟩

namespace MergeLayerIterator.Has

theorem current (h : it.Has R) (hz : it.current = some z) : R ⟨z, it.layerIndex⟩ := by
  unfold MergeLayerIterator.current at hz
  cases hitem : it.item with
  | none => simp [hitem] at hz
  | item y =>
    obtain rfl : y = z := by simpa [hitem] using hz
    exact h.item y hitem
  | iter => exact h.iter z (mem_of_head? (by simpa [hitem] using hz))

theorem setItemFromIter (h : ∀ z ∈ it.iter, R ⟨z, it.layerIndex⟩) : it.setItemFromIter.Has R := by
  refine ⟨h, fun z hz => ?_⟩
  simp only [MergeLayerIterator.setItemFromIter] at hz
  split at hz <;> cases hz

theorem advance (h : it.Has R) : it.advance.Has R := by
  unfold MergeLayerIterator.advance
  split
  · exact setItemFromIter fun z hz => h.iter z (mem_of_mem_tail hz)
  · exact setItemFromIter h.iter

theorem replace (h : it.Has R) (hz : R ⟨z, it.layerIndex⟩) : (it.replace z).Has R := by
  refine ⟨h.iter, fun y hy => ?_⟩
  cases hy
  exact hz

theorem updateItem {op : ItemOp (Item K V)} (hheap : ∀ it ∈ heap, it.Has R) (h : it.Has R)
    (hop : ∀ z, op = .replace z → R ⟨z, it.layerIndex⟩) :
    ∀ it' ∈ updateItem heap (it.maybeAdvance op) op, it'.Has R := by
  cases op with
  | keep => exact forall_mem_cons.mpr ⟨h, hheap⟩
  | discard =>
    intro it' hit'
    rcases mem_pushSome hit' with rfl | hit'
    · exact h.advance
    · exact hheap it' hit'
  | replace y =>
    refine forall_mem_cons.mpr ⟨h.advance.replace ?_, hheap⟩
    rw [advance_layerIndex]
    exact hop y rfl

end MergeLayerIterator.Has

structure MergerIterator.Has (R : LayerItem K V → Prop) (m : MergerIterator K V) : Prop where
  pending : ∀ q ∈ m.pendingIterators, ∀ z ∈ q.2.items, R ⟨z, q.1⟩
  heap : ∀ it ∈ m.heap, it.Has R
  item : ∀ it, m.item = .iterator it → it.Has R

variable [LayerKey K] {mergeFn : MergeFn K V} {fuel : ℕ} {bound : Bound K}

omit [LayerKey K] in
theorem pushSome_has (hheap : ∀ it ∈ heap, it.Has R) (h : it.Has R) :
    ∀ it' ∈ heap.pushSome it, it'.Has R := by
  intro it' hit'
  rcases mem_pushSome hit' with rfl | hit'
  · exact h
  · exact hheap it' hit'

theorem pushIterators_has {nextKey : Option K} {pending pending' : List (ℕ × Layer K V)}
    (hpending : ∀ q ∈ pending, ∀ z ∈ q.2.items, R ⟨z, q.1⟩) (hheap : ∀ it ∈ heap, it.Has R)
    (hrun : pushIterators nextKey bound pending heap = (pending', heap')) :
    (∀ q ∈ pending', ∀ z ∈ q.2.items, R ⟨z, q.1⟩) ∧ ∀ it ∈ heap', it.Has R := by
  induction pending generalizing heap with
  | nil =>
    cases hrun
    exact ⟨hpending, hheap⟩
  | cons q pending ih =>
    obtain ⟨index, layer⟩ := q
    unfold pushIterators at hrun
    split at hrun
    · refine ih (forall_mem_cons.mp hpending).2 (pushSome_has hheap ?_) hrun
      exact .setItemFromIter fun z hz =>
        (forall_mem_cons.mp hpending).1 z ((dropWhile_sublist _).mem hz)
    · cases hrun
      exact ⟨hpending, hheap⟩

theorem MergerIterator.Has.advanceItem {m : MergerIterator K V} (h : m.Has R)
    (nextKey : Option K) (bound : Bound K) : (m.advanceItem nextKey bound).Has R := by
  have hpush := pushIterators_has h.pending h.heap
    (rfl : pushIterators nextKey bound m.pendingIterators m.heap = _)
  unfold MergerIterator.advanceItem
  cases hitem : m.item with
  | none => exact ⟨hpush.1, hpush.2, nofun⟩
  | item e => exact ⟨hpush.1, hpush.2, nofun⟩
  | iterator it =>
    have hit := h.item it hitem
    dsimp only
    split_ifs
    · exact ⟨h.pending, pushSome_has h.heap hit.advance, nofun⟩
    · split
      · exact ⟨h.pending, h.heap, nofun⟩
      · next existing hexisting =>
        refine ⟨hpush.1, pushSome_has hpush.2 (hit.advance.replace ?_), nofun⟩
        rw [MergeLayerIterator.advance_layerIndex]
        exact hit.current hexisting
    · exact ⟨h.pending, pushSome_has h.heap hit.advance, nofun⟩

end Items

variable [LayerKey K] {rank : K → Q} {mergeFn : MergeFn K V} {R : LayerItem K V → Prop}

omit [LayerKey K] in
/-- An iterator of another layer that starts before the frontier is of an older layer. -/
theorem GuardedBy.older (h : GuardedBy S f heap a y) (hok : HeapOk S n heap)
    {it : MergeLayerIterator K V} {z : Item K V} (hit : it ∈ heap) (hz : it.current = some z)
    (hne : it.layerIndex ≠ a) (hlt : S.lo z < f) : a < it.layerIndex := by
  rcases h.others it hit with heq | hlt' | hle
  · exact absurd heq hne
  · exact hlt'
  · obtain ⟨w, l, hl, hw⟩ := hok.exists_current hit
    obtain rfl : z = w := some.inj (hz.symm.trans hw)
    exact absurd (hle z (hl ▸ mem_cons_self)) (not_le.mpr hlt)

namespace TwoLowest

variable {low second it : MergeLayerIterator K V} {others : Heap K V} {left right : Item K V}
  {ra rb : List (Item K V)} {emit : Option (Item K V)} {l r : ItemOp (Item K V)}
  (h : TwoLowest S n rank heap low second others left right ra rb)
include h
omit [LayerKey K]

theorem left_current : low.current = some left := MergeLayerIterator.current_of_remaining h.left_eq

theorem right_current : second.current = some right :=
  MergeLayerIterator.current_of_remaining h.right_eq

theorem left_ok : S.Ok left := h.heapOk.ok_current mem_cons_self h.left_current

theorem right_ok : S.Ok right := h.heapOk.tail.ok_current mem_cons_self h.right_current

end TwoLowest

variable {pending : List (ℕ × Layer K V)} {bound : Bound K} {fuel : ℕ}
  {current : CurrentItem K V} {m : MergerIterator K V} {x : Item K V}

section Split

variable {R : Item K V → Item K V → Prop} {e : Item K V}

section

variable (hsplit : ∀ (left right : LayerItem K V) (e : Item K V) (l r : ItemOp (Item K V)),
  mergeFn left right = .other (some e) l r → r = .keep ∧ R e right.toItem)
include hsplit

end

end Split

end Smos.Fxfs.Lsm
