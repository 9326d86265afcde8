import Smos.Fxfs.AllocatorMerge

/-!
The scan of the allocator's layers: a full merge, from which tombstones are filtered out and
touching ranges of one value are coalesced (`filter_tombstones`, `CoalescingIterator`).
-/
namespace Smos.Fxfs.Allocator

open Lib Lib.Spans Fxfs.Lsm List

variable {σ : Type} {items : List AllocatorItem}

def lookup (items : List AllocatorItem) (p : ℕ) : Option AllocatorValue :=
  items.findSome? fun item => (valueAt item p).toOption

def newestValue (layers : List (Layer AllocatorKey AllocatorValue)) (p : ℕ) :
    Option AllocatorValue :=
  layers.findSome? fun layer => lookup layer.items p

theorem lookup_eq_listDen (items : List AllocatorItem) (p : ℕ) :
    lookup items p = (listDen span items p).toOption :=
  (FirstWins.toOption_prod_map items _).symm

theorem newestValue_eq_layersDen (layers : List (Layer AllocatorKey AllocatorValue)) (p : ℕ) :
    newestValue layers p = (layersDen span layers p).toOption := by
  rw [layersDen, FirstWins.toOption_prod_map]
  unfold newestValue
  congr 1
  funext layer
  exact lookup_eq_listDen layer.items p

theorem lookup_cons (item : AllocatorItem) (items : List AllocatorItem) (p : ℕ) :
    lookup (item :: items) p =
      if item.key.deviceRange.start ≤ p ∧ p < item.key.deviceRange.stop then some item.value
      else lookup items p := by
  unfold lookup valueAt
  rw [findSome?_cons]
  split_ifs
  · rfl
  · rfl

def isLive (item : AllocatorItem) : Bool := item.value != .none

/-- The loop of `CoalescingIterator::advance`; it fails when two records overlap. -/
def coalesceLoop (iter : LayerIterator σ AllocatorKey AllocatorValue) :
    ℕ → AllocatorItem → σ → Option (AllocatorItem × σ)
  | 0, _, _ => none
  | fuel + 1, left, s => do
    let s' ← iter.advance s
    match iter.get s' with
    | none => return (left, s')
    | some right =>
      if left.key.deviceRange.stop ≤ right.key.deviceRange.start then
        if left.key.deviceRange.stop < right.key.deviceRange.start ∨ left.value ≠ right.value then
          return (left, s')
        else
          let left' := { left with
            key := ⟨⟨left.key.deviceRange.start, right.key.deviceRange.stop⟩⟩ }
          coalesceLoop iter fuel left' s'
      else none

structure CoalescingIterator (σ : Type) where
  iter : σ
  item : Option AllocatorItem

def CoalescingIterator.advance (iter : LayerIterator σ AllocatorKey AllocatorValue) (fuel : ℕ)
    (c : CoalescingIterator σ) : Option (CoalescingIterator σ) :=
  match iter.get c.iter with
  | none => some ⟨c.iter, none⟩
  | some left => do
    let (item, s) ← coalesceLoop iter fuel left c.iter
    return ⟨s, some item⟩

def coalescingIterator (iter : LayerIterator σ AllocatorKey AllocatorValue) (fuel : ℕ) :
    LayerIterator (CoalescingIterator σ) AllocatorKey AllocatorValue where
  get c := c.item
  advance c := c.advance iter fuel

def scanAllocations (fuel : ℕ) (layers : List (Layer AllocatorKey AllocatorValue)) :
    Option (List AllocatorItem) := do
  let merger := mergerIterator merge fuel
  let live := filterLayerIterator merger isLive fuel
  let m ← mergerQuery merge fuel layers .fullScan
  let m ← skipFiltered merger isLive fuel m
  let c ← CoalescingIterator.advance live fuel ⟨m, none⟩
  (coalescingIterator live fuel).collect fuel c

def Coalesced (items : List AllocatorItem) : Prop :=
  items.Pairwise fun x y =>
    ¬ (x.key.deviceRange.stop = y.key.deviceRange.start ∧ x.value = y.value)

section Coalescing

variable {iter : LayerIterator σ AllocatorKey AllocatorValue} {l : List AllocatorItem}

/-- The loop extends the item over the records that continue it and stops before the first one
that does not. -/
private theorem coalesceLoop_spec {left : AllocatorItem} {s : σ}
    {x : AllocatorItem} {fuel : ℕ} (hyields : iter.Yields s (x :: l))
    (hlayer : IsLayer span (left :: l)) (hfuel : l.length < fuel) :
    ∃ item s' rest, coalesceLoop iter fuel left s = some (item, s') ∧ iter.Yields s' rest ∧
      IsLayer span (item :: rest) ∧ rest.length ≤ l.length ∧
      item.key.deviceRange.start = left.key.deviceRange.start ∧ item.value = left.value ∧
      (∀ p, lookup (item :: rest) p = lookup (left :: l) p) ∧
      ∀ y ∈ rest.head?, ¬ (item.key.deviceRange.stop = y.key.deviceRange.start ∧
        item.value = y.value) := by
  induction l generalizing left s x fuel with
  | nil =>
    obtain ⟨f, rfl⟩ : ∃ f, fuel = f + 1 := ⟨fuel - 1, by omega⟩
    obtain ⟨-, s', hadv, hrest⟩ := hyields
    have hget : iter.get s' = none := hrest
    exact ⟨left, s', [], by simp [coalesceLoop, hadv, hget], hrest, hlayer, le_rfl, rfl, rfl,
      fun _ => rfl, by simp⟩
  | cons right l ih =>
    obtain ⟨f, rfl⟩ : ∃ f, fuel = f + 1 := ⟨fuel - 1, by omega⟩
    obtain ⟨-, s', hadv, hrest⟩ := hyields
    have hget : iter.get s' = some right := hrest.1
    have hle : left.key.deviceRange.stop ≤ right.key.deviceRange.start :=
      hlayer.hi_le right mem_cons_self
    have hleft : left.key.deviceRange.start < left.key.deviceRange.stop := hlayer.head_ok
    have hright : right.key.deviceRange.start < right.key.deviceRange.stop := hlayer.tail.head_ok
    by_cases hstop : left.key.deviceRange.stop < right.key.deviceRange.start ∨
        left.value ≠ right.value
    · refine ⟨left, s', right :: l, by simp [coalesceLoop, hadv, hget, hle, hstop], hrest, hlayer,
        le_rfl, rfl, rfl, fun _ => rfl, ?_⟩
      intro y hy
      obtain rfl : right = y := by simpa using hy
      rintro ⟨htouch, hvalue⟩
      rcases hstop with hstop | hstop
      · omega
      · exact hstop hvalue
    · have htouch : left.key.deviceRange.stop = right.key.deviceRange.start ∧
          left.value = right.value := by
        simp only [not_or, not_lt, ne_eq, not_not] at hstop
        exact ⟨le_antisymm hle hstop.1, hstop.2⟩
      let left' : AllocatorItem := { left with
        key := ⟨⟨left.key.deviceRange.start, right.key.deviceRange.stop⟩⟩ }
      have hlayer' : IsLayer span (left' :: l) := by
        refine IsLayer.cons ?_ hlayer.tail.tail fun y hy => hlayer.tail.hi_le y hy
        change left.key.deviceRange.start < right.key.deviceRange.stop
        omega
      simp only [length_cons] at hfuel
      obtain ⟨item, s'', rest, hrun, hyields', hl, hlen, hstart, hvalue, hlook, hhead⟩ :=
        ih hrest hlayer' (by omega : l.length < f)
      refine ⟨item, s'', rest, ?_, hyields', hl, ?_, hstart, hvalue, ?_, hhead⟩
      · simpa [coalesceLoop, hadv, hget, hle, hstop] using hrun
      · simp only [length_cons]
        omega
      · intro p
        rw [hlook p, lookup_cons, lookup_cons, lookup_cons]
        simp only [left']
        split_ifs
        all_goals first | rfl | omega | rw [htouch.2]

/-- On sorted records the coalescing iterator yields sorted records of the same meaning, none of
which continues another. -/
theorem coalescing_yields {s : σ} {fuel : ℕ}
    (hyields : iter.Yields s l) (hlayer : IsLayer span l) (hfuel : l.length < fuel) :
    ∃ c out, (∀ item, CoalescingIterator.advance iter fuel ⟨s, item⟩ = some c) ∧
      (coalescingIterator iter fuel).Yields c out ∧ IsLayer span out ∧ Coalesced out ∧
      out.length ≤ l.length ∧ (∀ p, lookup out p = lookup l p) ∧
      ∀ y ∈ out.head?, ∃ x ∈ l.head?, y.key.deviceRange.start = x.key.deviceRange.start ∧
        y.value = x.value := by
  -- Each pass consumes at least one record; the next record emitted begins where the rest does.
  induction hn : l.length using Nat.strong_induction_on generalizing l s with
  | _ n ih =>
    cases l with
    | nil =>
      have hget : iter.get s = none := hyields
      exact ⟨⟨s, none⟩, [], by simp [CoalescingIterator.advance, hget], rfl, hlayer,
        List.Pairwise.nil, by simp, fun _ => rfl, by simp⟩
    | cons x l =>
      simp only [length_cons] at hn hfuel
      obtain ⟨first, s', rest, hrun, hrest, hl, hlen, hstart, hvalue, hlook, hhead⟩ :=
        coalesceLoop_spec hyields hlayer (by omega : l.length < fuel)
      obtain ⟨c, out, hadv, hout, hlout, hcoal, hlen', hlook', hhead'⟩ :=
        ih rest.length (by omega) hrest hl.tail (by omega) rfl
      have hnext : ∀ y ∈ out, first.key.deviceRange.stop ≤ y.key.deviceRange.start ∧
          ¬ (first.key.deviceRange.stop = y.key.deviceRange.start ∧ first.value = y.value) := by
        cases out with
        | nil => simp
        | cons z out =>
          obtain ⟨w, hw, hzstart, hzvalue⟩ := hhead' z rfl
          have hle : first.key.deviceRange.stop ≤ w.key.deviceRange.start :=
            hl.hi_le w (mem_of_mem_head? hw)
          have hz : z.key.deviceRange.start < z.key.deviceRange.stop := hlout.head_ok
          intro y hy
          rcases mem_cons.mp hy with rfl | hy
          · rw [hzstart, hzvalue]
            exact ⟨hle, hhead w hw⟩
          · have hzy : z.key.deviceRange.stop ≤ y.key.deviceRange.start := hlout.hi_le y hy
            omega
      refine ⟨⟨s', some first⟩, first :: out, ?_, ⟨rfl, c, hadv _, hout⟩, ?_, ?_, ?_, ?_, ?_⟩
      · simp [CoalescingIterator.advance, hyields.1, hrun]
      · exact IsLayer.cons hl.head_ok hlout fun y hy => (hnext y hy).1
      · exact pairwise_cons.mpr ⟨fun y hy => (hnext y hy).2, hcoal⟩
      · simp only [length_cons]
        omega
      · intro p
        rw [← hlook p, lookup_cons, lookup_cons, hlook' p]
      · intro y hy
        obtain rfl : first = y := by simpa using hy
        exact ⟨x, rfl, hstart, hvalue⟩

end Coalescing

/-- A byte before every item of a layer has no value. -/
private theorem lookup_eq_none {p : ℕ}
    (h : ∀ x ∈ items, p < x.key.deviceRange.start) : lookup items p = none := by
  rw [lookup_eq_listDen, listDen_eq_one span fun x hx => span.den_before x p (h x hx)]
  rfl

/-- Filtering out the tombstones of a layer leaves the live bytes. -/
theorem lookup_filter_isLive (h : IsLayer span items) (p : ℕ) :
    lookup (items.filter isLive) p = (lookup items p).filter fun v => v != .none := by
  induction items with
  | nil => rfl
  | cons x l ih =>
    have hl := ih h.tail
    by_cases hlive : isLive x = true
    · rw [filter_cons_of_pos hlive, lookup_cons, lookup_cons, hl]
      split
      · have hv : (x.value != .none) = true := hlive
        simp [Option.filter, hv]
      · rfl
    · rw [filter_cons_of_neg hlive, lookup_cons, hl]
      split
      · next hp =>
        have hnone : lookup l p = none :=
          lookup_eq_none fun y hy => lt_of_lt_of_le hp.2 (h.hi_le y hy)
        have hv : ¬ (x.value != .none) = true := hlive
        simp [hnone, Option.filter, hv]
      · rfl

/-- The records that a scan returns: the merged layers without tombstones, coalesced. -/
theorem scanAllocations_spec {layers : List (Layer AllocatorKey AllocatorValue)} {fuel : ℕ}
    (hlen : layers.length ≤ 65536) (hlayers : ∀ layer ∈ layers, IsLayer span layer.items)
    (hfuel : layersWeight span layers < fuel) :
    ∃ out, scanAllocations fuel layers = some out ∧ IsLayer span out ∧ Coalesced out ∧
      ∀ p, lookup out p = (newestValue layers p).filter fun v => v != .none := by
  obtain ⟨m, merged, hquery, hmerged, hlayer, hden, hcount⟩ :=
    query_fullScan_yields mergeLaws hlen hlayers hfuel
  have hlt := hcount.trans_lt hfuel
  obtain ⟨m', hskip, hlive⟩ := skipFiltered_yields isLive hmerged hlt hlt
  have hlt' := (length_filter_le isLive merged).trans_lt hlt
  obtain ⟨c, out, hadv, hout, hlout, hcoal, hle, hlook, -⟩ := coalescing_yields hlive
    ⟨fun x hx => hlayer.ok x (mem_of_mem_filter hx), hlayer.sorted.filter isLive⟩ hlt'
  have hcollect := LayerIterator.collect_of_yields hout (hle.trans_lt hlt')
  refine ⟨out, by simp [scanAllocations, hquery, hskip, hadv, hcollect], hlout, hcoal, ?_⟩
  intro p
  rw [hlook, lookup_filter_isLive hlayer, lookup_eq_listDen, hden, newestValue_eq_layersDen]

/-- A scan of at most 65536 allocator layers returns sorted, disjoint and coalesced records that
give every byte the value of the newest layer covering it, with the tombstones left out. -/
theorem scanAllocations_newest_wins (layers : List (Layer AllocatorKey AllocatorValue))
    (hlen : layers.length ≤ 65536) (hlayers : ∀ layer ∈ layers, IsLayer span layer.items)
    (fuel : ℕ) (hfuel : layersWeight span layers < fuel) :
    ∃ out, scanAllocations fuel layers = some out ∧ IsLayer span out ∧ Coalesced out ∧
      ∀ p, lookup out p = (newestValue layers p).filter fun v => v != .none :=
  scanAllocations_spec hlen hlayers hfuel

/-- A tombstone over the beginning of an allocation. -/
theorem scanAllocations_tombstone_over_allocation :
    ∃ out, scanAllocations 100
        [⟨[⟨⟨⟨0, 10⟩⟩, .none, 0⟩], fun _ => true⟩, ⟨[⟨⟨⟨5, 20⟩⟩, .abs 1 7, 0⟩], fun _ => true⟩] =
        some out ∧ IsLayer span out ∧ Coalesced out ∧
      ∀ p, lookup out p = (newestValue
        [⟨[⟨⟨⟨0, 10⟩⟩, .none, 0⟩], fun _ => true⟩, ⟨[⟨⟨⟨5, 20⟩⟩, .abs 1 7, 0⟩], fun _ => true⟩]
        p).filter fun v => v != .none :=
  scanAllocations_newest_wins _ (by decide)
    (by
      intro layer hlayer
      simp only [mem_cons, not_mem_nil, or_false] at hlayer
      rcases hlayer with rfl | rfl
      · exact ⟨by simp [span], pairwise_singleton _ _⟩
      · exact ⟨by simp [span], pairwise_singleton _ _⟩)
    100 (by decide)

/-- With 65537 layers the index of the last one wraps around, and its value hides that of a newer
layer. -/
theorem scanAllocations_wrapped_index :
    ∃ layers : List (Layer AllocatorKey AllocatorValue), layers.length = 65537 ∧
      (∀ layer ∈ layers, IsLayer span layer.items) ∧
      newestValue layers 0 = some (.abs 1 1) ∧
      ∃ out, scanAllocations 100 layers = some out ∧ lookup out 0 = some (.abs 1 2) := by
  let newer : AllocatorItem := ⟨⟨⟨0, 1⟩⟩, .abs 1 1, 0⟩
  let older : AllocatorItem := ⟨⟨⟨0, 1⟩⟩, .abs 1 2, 0⟩
  refine ⟨wrappedLayers 65534 [newer] [older], ?_, ?_, ?_, [older], ?_, rfl⟩
  · simp only [wrappedLayers, length_cons, length_append, length_replicate,
      length_nil]
  · intro layer hlayer
    simp only [wrappedLayers, mem_cons, mem_append, mem_replicate,
      not_mem_nil, or_false] at hlayer
    have hsingle : ∀ x : AllocatorItem, span.Ok x → IsLayer span [x] := by
      intro x hx
      exact ⟨by simpa using hx, pairwise_singleton _ _⟩
    rcases hlayer with rfl | rfl | ⟨-, rfl⟩ | rfl
    · exact IsLayer.nil
    · exact hsingle newer Nat.one_pos
    · exact IsLayer.nil
    · exact hsingle older Nat.one_pos
  · rfl
  · have hquery := mergerQuery_wrappedLayers merge 100 (m := 65534) rfl newer older [] []
    simp only [scanAllocations, hquery]
    rfl

end Smos.Fxfs.Allocator
