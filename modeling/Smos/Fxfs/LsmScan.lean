import Smos.Fxfs.LsmHeap

/-!
A full scan of the merger: every layer is consulted before the first item is emitted, and the items
emitted until the heap is empty form one layer with the meaning of the whole stack.
-/
namespace Smos.Fxfs.Lsm

open Lib.Spans MergerIterator List

variable {K V : Type} [LayerKey K]

/-- `Merger::query` with `Query::FullScan`, followed by `advance` until there is no item. -/
def fullScan (mergeFn : MergeFn K V) (fuel : ℕ) (layers : List (Layer K V)) :
    Option (List (Item K V)) := do
  let m ← mergerQuery mergeFn fuel layers .fullScan
  (mergerIterator mergeFn fuel).collect fuel m

/-- Without a bound every pending iterator is pushed. -/
theorem pushIterators_unbounded (pending : List (ℕ × Layer K V)) (heap : Heap K V) :
    pushIterators none .unbounded pending heap =
      ([], pending.foldl (fun h p => h.pushSome (openLayer p.1 p.2 .unbounded)) heap) := by
  induction pending generalizing heap with
  | nil => rfl
  | cons p pending ih =>
    obtain ⟨index, layer⟩ := p
    have hneeds : needsMoreIterators ((index, layer) :: pending) heap none .unbounded = true := by
      unfold needsMoreIterators
      split
      · next h => simp at h
      · split <;> rfl
    simp [pushIterators, hneeds, ih]

section

variable (index : ℕ) (layer : Layer K V) (bound : Bound K)
include index layer bound

theorem openLayer_remaining :
    (openLayer index layer bound).remaining = seek layer.items bound :=
  MergeLayerIterator.setItemFromIter_remaining

theorem openLayer_isSome :
    (openLayer index layer bound).isSome = true ↔
      (openLayer index layer bound).remaining ≠ [] :=
  MergeLayerIterator.setItemFromIter_isSome

@[simp] theorem openLayer_layerIndex :
    (openLayer index layer bound).layerIndex = index := rfl

end

@[simp] theorem seek_unbounded (items : List (Item K V)) : seek items .unbounded = items := by
  unfold seek
  cases items with
  | nil => rfl
  | cons x l => simp [Bound.isBefore]

/-- Layers with no items leave no iterator in the heap. -/
theorem foldl_pushSome_empty {pending : List (ℕ × Layer K V)} (heap : Heap K V)
    (h : ∀ p ∈ pending, p.2.items = []) :
    pending.foldl (fun h p => Heap.pushSome h (openLayer p.1 p.2 .unbounded)) heap = heap := by
  induction pending generalizing heap with
  | nil => rfl
  | cons p pending ih =>
    have hp := h p mem_cons_self
    have hpush : Heap.pushSome heap (openLayer p.1 p.2 .unbounded) = heap := by
      simp [Heap.pushSome, openLayer, seek, hp, MergeLayerIterator.setItemFromIter,
        MergeLayerIterator.isSome]
    rw [foldl_cons, hpush, ih heap fun q hq => h q (mem_cons_of_mem p hq)]

/-- Layers of which only the second and the last hold items, with `m` empty ones between. -/
def wrappedLayers (m : ℕ) (second last : List (Item K V)) : List (Layer K V) :=
  { items := [] } :: { items := second } ::
    (List.replicate m { items := [] } ++ [{ items := last }])

/-- When the index of the last layer does not fit into 16 bits, its items come first. -/
theorem mergerQuery_wrappedLayers (mergeFn : MergeFn K V) (fuel : ℕ) {m : ℕ}
    (hm : (2 + m) % 65536 = 0) (x y : Item K V) (second last : List (Item K V)) :
    mergerQuery mergeFn fuel (wrappedLayers m (x :: second) (y :: last)) .fullScan =
      advanceImpl mergeFn .unbounded fuel
        ⟨[], [⟨y :: last, 0, .iter⟩, ⟨x :: second, 1, .iter⟩], .none⟩ := by
  let empties := ((replicate m ({ items := [] } : Layer K V)).zipIdx 2).map
    fun entry => (entry.2 % 65536, entry.1)
  have hempty : ∀ p ∈ empties, p.2.items = [] := by
    intro p hp
    obtain ⟨⟨layer, index⟩, hq, rfl⟩ := mem_map.mp hp
    have hq : layer ∈ replicate m _ := fst_mem_of_mem_zipIdx hq
    simp only [eq_of_mem_replicate hq]
  have hiterators : mergerIterators (wrappedLayers m (x :: second) (y :: last)) =
      (0, { items := [] }) :: (1, { items := x :: second }) ::
        (empties ++ [(0, { items := y :: last })]) := by
    simp only [mergerIterators, wrappedLayers, zipIdx_cons, zipIdx_append,
      map_cons, map_append, length_replicate, zipIdx_nil, map_nil, hm,
      empties]
  simp only [mergerQuery, Query.needsLayer, Query.bound, Option.bind_eq_bind, Option.bind_some,
    MergerIterator.seek, pushIterators_unbounded, hiterators, filter_true, foldl_cons, foldl_append,
    foldl_nil]
  have h₀ : Heap.pushSome [] (openLayer 0 ({ items := [] } : Layer K V) .unbounded) = [] := rfl
  rw [h₀, foldl_pushSome_empty _ hempty]
  rfl

variable {P M Q : Type} [LinearOrder P] [Monoid M] [LinearOrder Q] {S : Span (Item K V) P M}
  {rank : K → Q} {mergeFn : MergeFn K V} {layers : List (Layer K V)}

def layerAt (layers : List (Layer K V)) (i : ℕ) : List (Item K V) :=
  (layers[i]?.map Layer.items).getD []

def layersWeight (S : Span (Item K V) P M) (layers : List (Layer K V)) : ℕ :=
  (layers.map fun layer => (layer.items.map S.weight).sum).sum

def layersDen (S : Span (Item K V) P M) (layers : List (Layer K V)) (p : P) : M :=
  (layers.map fun layer => listDen S layer.items p).prod

omit [LayerKey K] in
theorem stackDen_layerAt (layers : List (Layer K V)) (p : P) :
    stackDen S layers.length (layerAt layers) p = layersDen S layers p := by
  unfold stackDen layersDen
  congr 1
  apply ext_getElem
  · simp
  · intro i h₁ h₂
    have hi : i < layers.length := by simpa using h₂
    simp [layerAt, getElem?_eq_getElem hi]

/-- The heap after the layers from index `k` on have been pushed. -/
theorem push_layers {n k : ℕ} {heap : Heap K V} (layers : List (Layer K V))
    (hok : HeapOk S n heap) (hlt : ∀ it ∈ heap, it.layerIndex < k) (hn : k + layers.length ≤ n)
    (hlayers : ∀ layer ∈ layers, IsLayer S layer.items) :
    ∃ heap', ((layers.zipIdx k).map fun p => (p.2, p.1)).foldl
        (fun h p => Heap.pushSome h (openLayer p.1 p.2 .unbounded)) heap = heap' ∧
      HeapOk S n heap' ∧
      (∀ i, heapRem heap' i = if i < k then heapRem heap i else layerAt layers (i - k)) ∧
      heapWeight S heap' ≤ heapWeight S heap + layersWeight S layers := by
  induction layers generalizing k heap with
  | nil =>
    refine ⟨heap, rfl, hok, ?_, by simp [layersWeight]⟩
    intro i
    split
    · rfl
    · next h =>
      have hnot : i ∉ heap.map MergeLayerIterator.layerIndex := by
        intro hi
        obtain ⟨it, hit, rfl⟩ := mem_map.mp hi
        exact h (hlt it hit)
      simp [heapRem_eq_nil hnot, layerAt]
  | cons layer layers ih =>
    simp only [length_cons] at hn
    have hsome := openLayer_isSome k layer .unbounded
    have hrem : (openLayer k layer .unbounded).remaining = layer.items := by
      rw [openLayer_remaining, seek_unbounded]
    have hnot : k ∉ heap.map MergeLayerIterator.layerIndex := by
      intro hi
      obtain ⟨it, hit, h⟩ := mem_map.mp hi
      have := hlt it hit
      omega
    have hok' : HeapOk S n (heap.pushSome (openLayer k layer .unbounded)) := by
      apply hok.pushSome
      · simp only [openLayer_layerIndex]
        omega
      · simpa using hnot
      · rw [hrem]
        exact hlayers layer mem_cons_self
      · exact hsome
    have hlt' : ∀ it ∈ heap.pushSome (openLayer k layer .unbounded), it.layerIndex < k + 1 := by
      intro it hit
      have hmem := pushSome_indices_subset (mem_map_of_mem hit)
      rcases mem_cons.mp hmem with h | h
      · rw [h]
        simp
      · obtain ⟨it', hit', h⟩ := mem_map.mp h
        have := hlt it' hit'
        omega
    obtain ⟨heap', hfold, hheap, hrem', hweight⟩ := ih hok' hlt' (by omega)
      fun l hl => hlayers l (mem_cons_of_mem layer hl)
    refine ⟨heap', by simpa [zipIdx_cons] using hfold, hheap, ?_, ?_⟩
    · intro i
      rw [hrem' i, heapRem_pushSome hsome, heapRem_cons, hrem]
      rcases Nat.lt_trichotomy i k with h | h | h
      · simp [h, show i < k + 1 by omega, show ¬ k = i by omega]
      · subst h
        simp [heapRem_eq_nil hnot, layerAt]
      · simp only [show ¬ i < k + 1 by omega, show ¬ i < k by omega, if_false]
        rw [show i - k = (i - (k + 1)) + 1 by omega]
        simp [layerAt]
    · have h := heapWeight_pushSome_le S heap (openLayer k layer .unbounded)
      rw [hrem] at h
      simp only [layersWeight, map_cons, sum_cons] at hweight ⊢
      omega

theorem advance_eq {m m' : MergerIterator K V} {nextKey : Option K} {bound : Bound K}
    (hbound : m.nextBound = (nextKey, bound)) (hitem : m.advanceItem nextKey bound = m')
    (mergeFn : MergeFn K V) (fuel : ℕ) :
    advance mergeFn fuel m = advanceImpl mergeFn bound fuel m' := by
  rw [advance, hbound, ← hitem]

/-- With no layer pending, `advance` passes over the current item and merges on. -/
theorem advanceItem_of_pending_nil (heap : Heap K V) {item : CurrentItem K V}
    (hitem : item ≠ .none) :
    nextBound ⟨[], heap, item⟩ = (none, .unbounded) ∧
      ∃ item', advanceItem ⟨[], heap, item⟩ none .unbounded = ⟨[], skipItem item heap, item'⟩ := by
  refine ⟨rfl, ?_⟩
  cases item with
  | none => exact absurd rfl hitem
  | item x => exact ⟨.item x, rfl⟩
  | iterator it => exact ⟨.none, rfl⟩

/-- From a heap on, the merger yields a layer that means what the heap means. -/
theorem advanceImpl_yields (laws : MergeLaws S rank mergeFn) {n fuel : ℕ} {heap : Heap K V}
    (hok : HeapOk S n heap) (hfuel : heapWeight S heap < fuel) :
    ∃ m out, (∀ item, advanceImpl mergeFn .unbounded fuel ⟨[], heap, item⟩ = some m) ∧
      (mergerIterator mergeFn fuel).Yields m out ∧ IsLayer S out ∧
      (∀ p, listDen S out p = heapDen S n heap p) ∧ out.length ≤ heapWeight S heap ∧
      ∀ q, (∀ i, ∀ y ∈ heapRem heap i, q ≤ S.lo y) → ∀ x ∈ out, q ≤ S.lo x := by
  -- Each emission leaves less work, and the rest of the output starts after the emitted item.
  induction hw : heapWeight S heap using Nat.strong_induction_on generalizing heap with
  | _ w ih =>
    obtain ⟨f, rfl⟩ : ∃ f, fuel = f + 1 := ⟨fuel - 1, by omega⟩
    rcases mergeLowest_spec laws hok hfuel with ⟨hnone, hden⟩ | ⟨x, item, heap', hsome, hemits⟩
    · refine ⟨⟨[], [], .none⟩, [], ?_, rfl, IsLayer.nil, ?_, by simp, by simp⟩
      · simp [advanceImpl, hnone, CurrentItem.get]
      · intro p
        rw [hden p, listDen_nil]
    · have hitem : item ≠ .none := by
        rintro rfl
        simpa [CurrentItem.get] using hemits.get
      obtain ⟨hbound, item', hitem'⟩ := advanceItem_of_pending_nil heap' hitem
      have hadv := advance_eq hbound hitem' mergeFn (f + 1)
      have hlt := hemits.weight_lt
      obtain ⟨m, out, hrun, hyields, hlayer, hden, hlen, hlo⟩ :=
        ih (heapWeight S (skipItem item heap')) (by omega) hemits.heapOk (by omega) rfl
      refine ⟨⟨[], heap', item⟩, x :: out, ?_, ⟨hemits.get, m, hadv.trans (hrun item'), hyields⟩,
        IsLayer.cons hemits.ok hlayer fun y hy => hlo _ hemits.hi_le y hy, ?_, ?_, ?_⟩
      · intro _
        simp [advanceImpl, hsome, hemits.get, Bound.isBefore]
      · intro p
        rw [listDen_cons, hden p, hemits.den p]
      · simp only [length_cons]
        omega
      · intro q hq y hy
        have hqx := hemits.le_lo q hq
        rcases mem_cons.mp hy with rfl | hy
        · exact hqx
        · refine hlo q (fun i z hz => ?_) y hy
          exact (hqx.trans (S.lo_lt_hi x hemits.ok).le).trans (hemits.hi_le i z hz)

omit [LayerKey K] in
/-- The indices of at most 65536 layers do not wrap. -/
theorem mergerIterators_of_le (hlen : layers.length ≤ 65536) :
    mergerIterators layers = (layers.zipIdx 0).map fun p => (p.2, p.1) := by
  unfold mergerIterators
  apply map_congr_left
  rintro ⟨layer, index⟩ hp
  have hlt := (mem_zipIdx hp).2.1
  simp only [Nat.zero_add] at hlt
  simp only [Nat.mod_eq_of_lt (by omega : index < 65536)]

/-- A full scan of at most 65536 layers yields one layer with the meaning of the layer set. -/
theorem query_fullScan_yields (laws : MergeLaws S rank mergeFn) {fuel : ℕ}
    (hlen : layers.length ≤ 65536)
    (hlayers : ∀ layer ∈ layers, IsLayer S layer.items) (hfuel : layersWeight S layers < fuel) :
    ∃ m out, mergerQuery mergeFn fuel layers .fullScan = some m ∧
      (mergerIterator mergeFn fuel).Yields m out ∧ IsLayer S out ∧
      (∀ p, listDen S out p = layersDen S layers p) ∧ out.length ≤ layersWeight S layers := by
  obtain ⟨heap, hpush, hok, hrem, hweight⟩ := push_layers (k := 0) layers
    (HeapOk.nil : HeapOk S layers.length []) (by simp) (by simp) hlayers
  have hiterators := mergerIterators_of_le hlen
  have hzero : heapWeight S ([] : Heap K V) = 0 := rfl
  obtain ⟨m, out, hrun, hyields, hlayer, hden, hout, -⟩ :=
    advanceImpl_yields laws hok (by omega : heapWeight S heap < fuel)
  refine ⟨m, out, ?_, hyields, hlayer, ?_, by omega⟩
  · rw [← hrun .none]
    simp [mergerQuery, Query.needsLayer, Query.bound, MergerIterator.seek,
      pushIterators_unbounded, hiterators, hpush]
  · intro p
    rw [hden p, ← stackDen_layerAt]
    exact stackDen_congr S fun i _ => by rw [hrem i]; simp

theorem fullScan_spec (laws : MergeLaws S rank mergeFn) {fuel : ℕ}
    (hlen : layers.length ≤ 65536) (hlayers : ∀ layer ∈ layers, IsLayer S layer.items)
    (hfuel : layersWeight S layers < fuel) :
    ∃ out, fullScan mergeFn fuel layers = some out ∧ IsLayer S out ∧
      ∀ p, listDen S out p = layersDen S layers p := by
  obtain ⟨m, out, hquery, hyields, hlayer, hden, hout⟩ :=
    query_fullScan_yields laws hlen hlayers hfuel
  refine ⟨out, ?_, hlayer, hden⟩
  have hcollect := LayerIterator.collect_of_yields hyields (by omega : out.length < fuel)
  simp [fullScan, hquery, hcollect]

end Smos.Fxfs.Lsm
