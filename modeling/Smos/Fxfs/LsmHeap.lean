import Smos.Fxfs.LsmMerge
import Smos.Lib.Spans

/-!
The heap of the merger read as a stack of layers.

An iterator stands for the items it has still to present, so a heap with distinct layer indices is
a stack of layers.  One pass of the inner loop of `advance_impl` is then a sequence of sound merge
steps, and what it emits together with what remains in the heap means what the heap meant before.
-/
namespace Smos.Fxfs.Lsm

open Lib.Spans MergeLayerIterator Heap List

variable {K V : Type} {a : MergeLayerIterator K V} {heap : Heap K V} {x y : Item K V}

def MergeLayerIterator.remaining (it : MergeLayerIterator K V) : List (Item K V) :=
  match it.item with
  | .none => []
  | .item item => item :: it.iter
  | .iter => it.iter

namespace MergeLayerIterator

variable {it : MergeLayerIterator K V} {l : List (Item K V)}

theorem current_of_remaining (h : it.remaining = x :: l) : it.current = some x := by
  unfold remaining at h
  unfold current
  cases hitem : it.item with
  | none => simp [hitem] at h
  | item y =>
    simp only [hitem, cons.injEq] at h
    simp [h.1]
  | iter =>
    simp only [hitem] at h
    simp [h]

theorem current_eq_head? (h : it.current = some x) :
    it.remaining.head? = some x := by
  unfold current at h
  unfold remaining
  cases hitem : it.item with
  | none => simp [hitem] at h
  | item y => simpa [hitem] using h
  | iter => simpa [hitem] using h

theorem setItemFromIter_remaining : it.setItemFromIter.remaining = it.iter := by
  unfold setItemFromIter remaining
  cases h : it.iter with
  | nil => simp
  | cons x l => simp

@[simp] theorem setItemFromIter_layerIndex :
    it.setItemFromIter.layerIndex = it.layerIndex := rfl

@[simp] theorem advance_layerIndex : it.advance.layerIndex = it.layerIndex := by
  unfold advance
  split <;> rfl

@[simp] theorem replace_layerIndex (x : Item K V) :
    (it.replace x).layerIndex = it.layerIndex := rfl

/-- Advancing drops the current item, whichever way the iterator holds it. -/
theorem advance_iter (h : it.remaining = x :: l) :
    it.advance.iter = l := by
  unfold remaining at h
  unfold advance
  cases hitem : it.item with
  | none => simp [hitem] at h
  | item y =>
    simp only [hitem, cons.injEq] at h
    exact h.2
  | iter =>
    simp only [hitem] at h
    simp [setItemFromIter, h]

theorem advance_remaining (h : it.remaining = x :: l) :
    it.advance.remaining = l := by
  have hiter := advance_iter h
  unfold advance at hiter ⊢
  split at hiter <;> rw [setItemFromIter_remaining] <;> exact hiter

theorem replace_advance_remaining (h : it.remaining = x :: l) :
    (it.advance.replace y).remaining = y :: l := by
  simp [replace, remaining, advance_iter h]

/-- An iterator that has been moved on has an item exactly when something remains. -/
theorem setItemFromIter_isSome :
    it.setItemFromIter.isSome = true ↔ it.setItemFromIter.remaining ≠ [] := by
  rw [setItemFromIter_remaining]
  unfold isSome setItemFromIter
  cases it.iter <;> simp

theorem advance_isSome : it.advance.isSome = true ↔ it.advance.remaining ≠ [] := by
  unfold advance
  split <;> exact setItemFromIter_isSome

end MergeLayerIterator

def heapRem (heap : Heap K V) (i : ℕ) : List (Item K V) :=
  heap.flatMap fun it => if it.layerIndex = i then it.remaining else []

theorem heapRem_cons (it : MergeLayerIterator K V) (heap : Heap K V) (i : ℕ) :
    heapRem (it :: heap) i =
      (if it.layerIndex = i then it.remaining else []) ++ heapRem heap i := by
  simp [heapRem]

theorem mem_heapRem {i : ℕ} :
    x ∈ heapRem heap i ↔ ∃ it ∈ heap, it.layerIndex = i ∧ x ∈ it.remaining := by
  simp only [heapRem, mem_flatMap]
  constructor
  · rintro ⟨it, hit, hx⟩
    split at hx
    · next h => exact ⟨it, hit, h, hx⟩
    · cases hx
  · rintro ⟨it, hit, h, hx⟩
    exact ⟨it, hit, by simpa [h] using hx⟩

theorem heapRem_eq_nil {i : ℕ}
    (h : i ∉ heap.map layerIndex) : heapRem heap i = [] := by
  apply eq_nil_iff_forall_not_mem.mpr
  intro x hx
  obtain ⟨it, hit, hi, -⟩ := mem_heapRem.mp hx
  exact h (mem_map.mpr ⟨it, hit, hi⟩)

/-- The order of the iterators in a heap does not matter. -/
theorem heapRem_perm {heap' : Heap K V} (h : heap.Perm heap')
    (hnodup : (heap.map layerIndex).Nodup) : heapRem heap = heapRem heap' := by
  funext i
  induction h with
  | nil => rfl
  | cons it _ ih =>
    rw [heapRem_cons, heapRem_cons, ih (nodup_cons.mp hnodup).2]
  | swap a b l =>
    simp only [map_cons, nodup_cons, mem_cons, not_or] at hnodup
    simp only [heapRem_cons]
    by_cases ha : a.layerIndex = i
    · have hb : b.layerIndex ≠ i := fun h => hnodup.1.1 (h.trans ha.symm)
      simp [ha, hb]
    · simp [ha]
  | trans h₁ _ ih₁ ih₂ =>
    rw [ih₁ hnodup, ih₂ ((h₁.map layerIndex).nodup_iff.mp hnodup)]

section HeapOk

variable {P M : Type} [LinearOrder P] [Monoid M] {heap' rest : Heap K V}
  {it' low : MergeLayerIterator K V} {left : Item K V}

/-- A heap of iterators over distinct layers below `n`, each with something left. -/
structure HeapOk (S : Span (Item K V) P M) (n : ℕ) (heap : Heap K V) : Prop where
  nodup : (heap.map layerIndex).Nodup
  lt : ∀ it ∈ heap, it.layerIndex < n
  layer : ∀ it ∈ heap, IsLayer S it.remaining
  ne_nil : ∀ it ∈ heap, it.remaining ≠ []

def heapDen (S : Span (Item K V) P M) (n : ℕ) (heap : Heap K V) (p : P) : M :=
  stackDen S n (heapRem heap) p

def heapWeight (S : Span (Item K V) P M) (heap : Heap K V) : ℕ :=
  (heap.map fun it => (it.remaining.map S.weight).sum).sum

variable {S : Span (Item K V) P M} {n : ℕ} {it : MergeLayerIterator K V} {ra rb : List (Item K V)}
  {item : CurrentItem K V}

theorem HeapOk.nil : HeapOk S n ([] : Heap K V) :=
  ⟨nodup_nil, by simp, by simp, by simp⟩

theorem HeapOk.perm (h : HeapOk S n heap) (hp : heap.Perm heap') : HeapOk S n heap' :=
  ⟨(hp.map _).nodup_iff.mp h.nodup, fun it hit => h.lt it (hp.mem_iff.mpr hit),
    fun it hit => h.layer it (hp.mem_iff.mpr hit), fun it hit => h.ne_nil it (hp.mem_iff.mpr hit)⟩

theorem HeapOk.tail (h : HeapOk S n (it :: heap)) : HeapOk S n heap :=
  ⟨(nodup_cons.mp h.nodup).2, fun x hx => h.lt x (mem_cons_of_mem it hx),
    fun x hx => h.layer x (mem_cons_of_mem it hx),
    fun x hx => h.ne_nil x (mem_cons_of_mem it hx)⟩

theorem HeapOk.not_mem (h : HeapOk S n (it :: heap)) :
    it.layerIndex ∉ heap.map layerIndex := (nodup_cons.mp h.nodup).1

/-- Every iterator of the heap has a current item, the first of those it has left. -/
theorem HeapOk.exists_current (h : HeapOk S n heap) (hit : it ∈ heap) :
    ∃ x l, it.remaining = x :: l ∧ it.current = some x := by
  obtain ⟨x, l, hx⟩ := exists_cons_of_ne_nil (h.ne_nil it hit)
  exact ⟨x, l, hx, current_of_remaining hx⟩

theorem HeapOk.ok_current (h : HeapOk S n heap) (hit : it ∈ heap)
    (hx : it.current = some x) : S.Ok x := by
  obtain ⟨y, l, hl, hy⟩ := h.exists_current hit
  obtain rfl : x = y := Option.some.inj (hx.symm.trans hy)
  exact (h.layer it hit).ok x (hl ▸ mem_cons_self)

/-- Only the layer and the items left of an iterator matter. -/
theorem HeapOk.congr_head (h : HeapOk S n (it :: heap))
    (hindex : it'.layerIndex = it.layerIndex) (hrem : it'.remaining = it.remaining) :
    HeapOk S n (it' :: heap) := by
  refine ⟨?_, ?_, ?_, ?_⟩
  · rw [map_cons, hindex]
    exact h.nodup
  · exact forall_mem_cons.mpr ⟨hindex ▸ h.lt it mem_cons_self, h.tail.lt⟩
  · exact forall_mem_cons.mpr ⟨hrem ▸ h.layer it mem_cons_self, h.tail.layer⟩
  · exact forall_mem_cons.mpr ⟨hrem ▸ h.ne_nil it mem_cons_self, h.tail.ne_nil⟩

/-- Pushing an iterator of a layer that is not in the heap, if anything is left of it. -/
theorem HeapOk.pushSome (h : HeapOk S n heap) (hlt : it.layerIndex < n)
    (hnot : it.layerIndex ∉ heap.map layerIndex)
    (hlayer : IsLayer S it.remaining) (hsome : it.isSome = true ↔ it.remaining ≠ []) :
    HeapOk S n (Heap.pushSome heap it) := by
  unfold Heap.pushSome
  split
  · next hs =>
    refine ⟨nodup_cons.mpr ⟨hnot, h.nodup⟩, ?_, ?_, ?_⟩
    · exact forall_mem_cons.mpr ⟨hlt, h.lt⟩
    · exact forall_mem_cons.mpr ⟨hlayer, h.layer⟩
    · exact forall_mem_cons.mpr ⟨hsome.mp hs, h.ne_nil⟩
  · exact h

theorem heapRem_pushSome (hsome : it.isSome = true ↔ it.remaining ≠ []) :
    heapRem (pushSome heap it) = heapRem (it :: heap) := by
  funext i
  unfold pushSome
  split
  · rfl
  · next hs =>
    have hnil : it.remaining = [] := by
      by_contra h
      exact hs (hsome.mpr h)
    simp [heapRem_cons, hnil]

theorem mem_pushSome (h : it' ∈ pushSome heap it) :
    it' = it ∨ it' ∈ heap := by
  unfold pushSome at h
  split at h
  · exact mem_cons.mp h
  · exact .inr h

theorem mem_pushSome_of_mem (h : it' ∈ heap) :
    it' ∈ pushSome heap it := by
  unfold pushSome
  split
  · exact mem_cons_of_mem it h
  · exact h

theorem pushSome_indices_subset :
    (pushSome heap it).map layerIndex ⊆
      it.layerIndex :: heap.map layerIndex := by
  unfold pushSome
  split
  · simp
  · simp

theorem heapDen_perm (hp : heap.Perm heap') (hok : HeapOk S n heap) (p : P) :
    heapDen S n heap p = heapDen S n heap' p := by
  rw [heapDen, heapDen, heapRem_perm hp hok.nodup]

theorem heapWeight_cons :
    heapWeight S (it :: heap) = (it.remaining.map S.weight).sum + heapWeight S heap := by
  simp [heapWeight]

theorem heapWeight_perm (h : heap.Perm heap') : heapWeight S heap = heapWeight S heap' :=
  (h.map _).sum_eq

theorem heapWeight_pushSome_le (S : Span (Item K V) P M) (heap : Heap K V)
    (it : MergeLayerIterator K V) :
    heapWeight S (pushSome heap it) ≤
      (it.remaining.map S.weight).sum + heapWeight S heap := by
  unfold pushSome
  split
  · rw [heapWeight_cons]
  · omega

/-- After an operation on its first item the iterator has what the operation leaves of it,
followed by the rest of the layer. -/
theorem updateItem_eq {l : List (Item K V)} (heap : Heap K V)
    (op : ItemOp (Item K V)) (h : it.remaining = x :: l) :
    ∃ it' : MergeLayerIterator K V,
      updateItem heap (it.maybeAdvance op) op = heap.pushSome it' ∧
      it'.layerIndex = it.layerIndex ∧ it'.remaining = (op.apply x).toList ++ l ∧
      (it'.isSome = true ↔ it'.remaining ≠ []) := by
  cases op with
  | keep =>
    have hsome : it.isSome = true := by
      unfold isSome
      unfold remaining at h
      cases hitem : it.item <;> simp_all
    refine ⟨it, ?_, rfl, by simpa [ItemOp.apply] using h, by simp [hsome, h]⟩
    simp [updateItem, maybeAdvance, pushSome, hsome]
  | discard =>
    refine ⟨it.advance, rfl, it.advance_layerIndex, ?_, it.advance_isSome⟩
    simpa [ItemOp.apply] using advance_remaining h
  | replace y =>
    have hrem := replace_advance_remaining (y := y) h
    refine ⟨it.advance.replace y, rfl, it.advance_layerIndex, ?_, ?_⟩
    · simpa [ItemOp.apply] using hrem
    · rw [hrem]
      simp [isSome, MergeLayerIterator.replace]

/-- What a sound merge of the first items of two iterators does to the heap. -/
structure MergeStep (S : Span (Item K V) P M) (n : ℕ) (heap : Heap K V) (left : Item K V)
    (emit : Option (Item K V)) (heap' : Heap K V) : Prop where
  heapOk : HeapOk S n heap'
  den : ∀ p, optDen S emit p * heapDen S n heap' p = heapDen S n heap p
  left_le : ∀ i, ∀ y ∈ heapRem heap' i, S.lo left ≤ S.lo y
  emit_le : ∀ e ∈ emit, ∀ i, ∀ y ∈ heapRem heap' i, S.hi e ≤ S.lo y
  weight_lt : heapWeight S heap' < heapWeight S heap

/-- The layers of the heap after an operation on the first items of two iterators. -/
private theorem merged_heapRem {second low' second' : MergeLayerIterator K V} {right : Item K V}
    {l r : Option (Item K V)} (hok : HeapOk S n (low :: second :: rest))
    (hl : low.remaining = left :: ra) (hr : second.remaining = right :: rb)
    (hl' : low'.remaining = l.toList ++ ra) (hr' : second'.remaining = r.toList ++ rb)
    (hli : low'.layerIndex = low.layerIndex) (hri : second'.layerIndex = second.layerIndex) :
    Merged (heapRem (low :: second :: rest)) (heapRem (second' :: low' :: rest))
      low.layerIndex left ra second.layerIndex right rb l r := by
  have hlow := hok.not_mem
  have hsecond := hok.tail.not_mem
  simp only [map_cons, mem_cons, not_or] at hlow
  have hrest_low := heapRem_eq_nil hlow.2
  have hrest_second := heapRem_eq_nil hsecond
  constructor
  · simp [heapRem_cons, hl, hrest_low, Ne.symm hlow.1]
  · simp [heapRem_cons, hr, hrest_second, hlow.1]
  · simp [heapRem_cons, hli, hri, hl', hrest_low, Ne.symm hlow.1]
  · simp [heapRem_cons, hli, hri, hr', hrest_second, hlow.1]
  · intro i ha hb
    simp [heapRem_cons, hli, hri, Ne.symm ha, Ne.symm hb]

theorem merge_step {second : MergeLayerIterator K V}
    {right : Item K V} {emit : Option (Item K V)}
    {l r : ItemOp (Item K V)} (hok : HeapOk S n (low :: second :: rest))
    (hl : low.remaining = left :: ra) (hr : second.remaining = right :: rb)
    (hs : MergeSound S low.layerIndex left second.layerIndex right emit (l.apply left)
      (r.apply right))
    (hle : S.lo left ≤ S.lo right)
    (hothers : ∀ i, ∀ x ∈ heapRem rest i, S.lo right ≤ S.lo x) :
    MergeStep S n (low :: second :: rest) left emit
      (updateItem (updateItem rest (low.maybeAdvance l) l) (second.maybeAdvance r) r) := by
  obtain ⟨low', hlow, hli, hl', hlsome⟩ := updateItem_eq rest l hl
  obtain ⟨second', hsecond, hri, hr', hrsome⟩ := updateItem_eq (rest.pushSome low') r hr
  rw [hlow, hsecond]
  have hlayerL : IsLayer S (left :: ra) := hl ▸ hok.layer low mem_cons_self
  have hlayerR : IsLayer S (right :: rb) := hr ▸ hok.tail.layer second mem_cons_self
  have hlayerL' := hs.left_layer hlayerL
  have hlayerR' := hs.right_layer hlayerR
  have hnot := hok.not_mem
  simp only [map_cons, mem_cons, not_or] at hnot
  have hrem : heapRem ((rest.pushSome low').pushSome second') =
      heapRem (second' :: low' :: rest) := by
    rw [heapRem_pushSome hrsome]
    funext i
    rw [heapRem_cons, heapRem_cons, heapRem_pushSome hlsome]
  have hmerged := merged_heapRem hok hl hr hl' hr' hli hri
  have hlo : ∀ i, ∀ y ∈ heapRem (second' :: low' :: rest) i,
      S.lo left ≤ S.lo y ∧ ∀ e ∈ emit, S.hi e ≤ S.lo y := by
    intro i y hy
    simp only [heapRem_cons, mem_append] at hy
    rcases hy with hy | hy | hy
    · split at hy
      · exact hs.lo_le hlayerL hlayerR hle (.inr (hr' ▸ hy))
      · cases hy
    · split at hy
      · exact hs.lo_le hlayerL hlayerR hle (.inl (hl' ▸ hy))
      · cases hy
    · have hry := hothers i y hy
      exact ⟨hle.trans hry, fun e he => (hs.emit_ok e he).2.2.trans hry⟩
  constructor
  · have hlow' : HeapOk S n (rest.pushSome low') := by
      apply hok.tail.tail.pushSome
      · exact hli ▸ hok.lt low mem_cons_self
      · exact hli ▸ hnot.2
      · exact hl' ▸ hlayerL'
      · exact hlsome
    apply hlow'.pushSome
    · exact hri ▸ hok.tail.lt second mem_cons_self
    · intro hmem
      have hmem := pushSome_indices_subset hmem
      rw [hli, hri] at hmem
      rcases mem_cons.mp hmem with h | h
      · exact hnot.1 h.symm
      · exact hok.tail.not_mem h
    · exact hr' ▸ hlayerR'
    · exact hrsome
  · intro p
    unfold heapDen
    rw [hrem]
    apply stackDen_merge hnot.1 (hok.lt low mem_cons_self)
      (hok.tail.lt second mem_cons_self) hmerged hs
    · exact hmerged.left_eq ▸ hlayerL
    · exact hmerged.right_eq ▸ hlayerR
    · intro i ha hb x hx
      simp only [heapRem_cons, if_neg (Ne.symm ha), if_neg (Ne.symm hb), nil_append] at hx
      exact hothers i x hx
  · rw [hrem]
    exact fun i y hy => (hlo i y hy).1
  · rw [hrem]
    exact fun e he i y hy => (hlo i y hy).2 e he
  · have h₁ := heapWeight_pushSome_le S (rest.pushSome low') second'
    have h₂ := heapWeight_pushSome_le S rest low'
    have h₃ := hs.shrinks
    simp only [heapWeight_cons, hl, hr, hl', hr', map_append, sum_append,
      map_cons, sum_cons] at h₁ h₂ ⊢
    omega

/-- What one pass of the inner loop emits and leaves; `skipItem` is the heap without the emitted
item. -/
structure Emits (S : Span (Item K V) P M) (n : ℕ) (heap : Heap K V) (x : Item K V)
    (item : CurrentItem K V) (heap' : Heap K V) : Prop where
  get : item.get = some x
  ok : S.Ok x
  heapOk : HeapOk S n (skipItem item heap')
  den : ∀ p, S.den x p * heapDen S n (skipItem item heap') p = heapDen S n heap p
  hi_le : ∀ i, ∀ y ∈ heapRem (skipItem item heap') i, S.hi x ≤ S.lo y
  le_lo : ∀ q, (∀ i, ∀ y ∈ heapRem heap i, q ≤ S.lo y) → q ≤ S.lo x
  weight_lt : heapWeight S (skipItem item heap') < heapWeight S heap
  iterator : ∀ it, item = .iterator it →
    HeapOk S n (it :: heap') ∧ heapWeight S (it :: heap') ≤ heapWeight S heap

/-- Emitting the lowest item from its iterator when everything else starts after it. -/
private theorem emits_lowest
    {l : List (Item K V)} (hok : HeapOk S n (low :: rest)) (hl : low.remaining = x :: l)
    (hafter : ∀ i, ∀ y ∈ heapRem rest i, S.hi x ≤ S.lo y) :
    Emits S n (low :: rest) x (.iterator low) rest := by
  have hlayer : IsLayer S (x :: l) := hl ▸ hok.layer low mem_cons_self
  have hadv := advance_remaining hl
  have hrem : heapRem (skipItem (.iterator low) rest) = heapRem (low.advance :: rest) :=
    heapRem_pushSome low.advance_isSome
  have hnil := heapRem_eq_nil hok.not_mem
  have hle : ∀ i, ∀ y ∈ heapRem (skipItem (.iterator low) rest) i, S.hi x ≤ S.lo y := by
    intro i y hy
    rw [hrem, heapRem_cons, hadv] at hy
    rcases mem_append.mp hy with hy | hy
    · split at hy
      · exact hlayer.hi_le y hy
      · cases hy
    · exact hafter i y hy
  refine ⟨current_of_remaining hl, hlayer.head_ok, ?_, ?_, hle, ?_, ?_, ?_⟩
  · apply hok.tail.pushSome
    · simpa using hok.lt low mem_cons_self
    · simpa using hok.not_mem
    · exact hadv ▸ hlayer.tail
    · exact low.advance_isSome
  · intro p
    refine stackDen_emit S (hok.lt low mem_cons_self) (l := l) ?_ ?_ ?_ hle p
    · simp [heapRem_cons, hl, hnil]
    · simp [hrem, heapRem_cons, hadv, hnil]
    · intro i hi
      simp [hrem, heapRem_cons, Ne.symm hi]
  · intro q hq
    apply hq low.layerIndex
    simp [heapRem_cons, hl]
  · have h := heapWeight_pushSome_le S rest low.advance
    have hpos := S.weight_pos x
    rw [heapWeight_cons, hl, map_cons, sum_cons]
    rw [hadv] at h
    change heapWeight S (rest.pushSome low.advance) < _
    omega
  · intro it h
    cases h
    exact ⟨hok, le_rfl⟩

private theorem Emits.of_perm {heap'' : Heap K V}
    (h : Emits S n heap' x item heap'') (hok : HeapOk S n heap) (hp : heap.Perm heap') :
    Emits S n heap x item heap'' := by
  have hrem := heapRem_perm hp hok.nodup
  have hweight : heapWeight S heap = heapWeight S heap' := heapWeight_perm hp
  refine { h with den := ?_, le_lo := ?_, weight_lt := ?_, iterator := ?_ }
  · intro p
    rw [h.den p, heapDen_perm hp hok]
  · intro q hq
    exact h.le_lo q (hrem ▸ hq)
  · exact hweight ▸ h.weight_lt
  · exact hweight ▸ h.iterator

/-- A step that emits nothing, followed by an emission. -/
private theorem Emits.of_step {heap'' : Heap K V}
    (hstep : MergeStep S n heap left none heap')
    (hleft : ∃ i, left ∈ heapRem heap i) (h : Emits S n heap' x item heap'') :
    Emits S n heap x item heap'' := by
  refine { h with den := ?_, le_lo := ?_, weight_lt := ?_, iterator := ?_ }
  · intro p
    rw [h.den p, ← hstep.den p, optDen_none, one_mul]
  · intro q hq
    apply h.le_lo
    intro i y hy
    obtain ⟨j, hj⟩ := hleft
    exact (hq j left hj).trans (hstep.left_le i y hy)
  · exact h.weight_lt.trans hstep.weight_lt
  · intro it hit
    obtain ⟨hok, hle⟩ := h.iterator it hit
    exact ⟨hok, hle.trans hstep.weight_lt.le⟩

/-- A step that emits an item. -/
private theorem Emits.of_item {e : Item K V}
    (hstep : MergeStep S n heap left (some e) heap') (hleft : ∃ i, left ∈ heapRem heap i)
    (hok : S.Ok e) (hlo : S.lo left ≤ S.lo e) : Emits S n heap e (.item e) heap' := by
  refine ⟨rfl, hok, hstep.heapOk, ?_, hstep.emit_le e rfl, ?_, hstep.weight_lt, ?_⟩
  · intro p
    have h := hstep.den p
    rw [optDen_some] at h
    exact h
  · intro q hq
    obtain ⟨i, hi⟩ := hleft
    exact (hq i left hi).trans hlo
  · intro it h
    cases h

end HeapOk

section Laws

variable [LayerKey K] {P M Q : Type} [LinearOrder P] [Monoid M] [LinearOrder Q]

def Precedes (rank : K → Q) (left right : LayerItem K V) : Prop :=
  rank left.key < rank right.key ∨
    rank left.key = rank right.key ∧ left.layerIndex < right.layerIndex

/-- The facts about keys and merge function that the merger relies on: the lower bounds order the
keys by a rank, items of lower rank start no later, and every answer of the merge function about
two items that the heap presents is a sound step. -/
structure MergeLaws (S : Span (Item K V) P M) (rank : K → Q) (mergeFn : MergeFn K V) : Prop where
  cmp_eq : ∀ j k : K, cmpLowerBound j k = compare (rank j) (rank k)
  lo_le : ∀ x y : Item K V, rank x.key ≤ rank y.key → S.lo x ≤ S.lo y
  emitLeft : ∀ left right : LayerItem K V, S.Ok left.toItem → S.Ok right.toItem →
    Precedes rank left right → left.layerIndex ≠ right.layerIndex →
    mergeFn left right = .emitLeft → S.hi left.toItem ≤ S.lo right.toItem
  other : ∀ (left right : LayerItem K V) (emit : Option (Item K V)) (l r : ItemOp (Item K V)),
    S.Ok left.toItem → S.Ok right.toItem →
    Precedes rank left right → left.layerIndex ≠ right.layerIndex →
    mergeFn left right = .other emit l r →
    MergeSound S left.layerIndex left.toItem right.layerIndex right.toItem emit
      (l.apply left.toItem) (r.apply right.toItem)

variable {S : Span (Item K V) P M} {rank : K → Q} {mergeFn : MergeFn K V} {n : ℕ}
  {b : MergeLayerIterator K V}

private def place (rank : K → Q) (it : MergeLayerIterator K V) (x : Item K V) : Q ×ₗ ℕ :=
  toLex (rank x.key, it.layerIndex)

omit [Monoid M] [LinearOrder P] in
private theorem cmp_lt_iff (hcmp : ∀ j k : K, cmpLowerBound j k = compare (rank j) (rank k))
    (ha : a.current = some x)
    (hb : b.current = some y) : a.cmp b = .lt ↔ place rank a x < place rank b y := by
  simp only [MergeLayerIterator.cmp, ha, hb, hcmp, place, Prod.Lex.toLex_lt_toLex,
    Ordering.then_eq_lt, compare_lt_iff_lt, compare_eq_iff_eq]

/-- The heap gives its least iterator. -/
theorem pop_spec (hcmp : ∀ j k : K, cmpLowerBound j k = compare (rank j) (rank k))
    (hok : HeapOk S n heap) (hne : heap ≠ []) :
    ∃ low rest, heap.pop = some (low, rest) ∧ heap.Perm (low :: rest) ∧
      ∀ x, low.current = some x → ∀ it ∈ rest, ∀ y, it.current = some y →
        place rank low x ≤ place rank it y := by
  induction heap with
  | nil => exact absurd rfl hne
  | cons it rest ih =>
    by_cases hrest : rest = []
    · subst hrest
      exact ⟨it, [], rfl, List.Perm.refl _, by simp⟩
    · obtain ⟨low, rest', hpop, hperm, hmin⟩ := ih hok.tail hrest
      obtain ⟨x, -, -, hx⟩ := hok.exists_current mem_cons_self
      have hlow : low ∈ rest := hperm.mem_iff.mpr mem_cons_self
      obtain ⟨y, -, -, hy⟩ := hok.tail.exists_current hlow
      have hlt := cmp_lt_iff hcmp hy hx
      by_cases h : low.cmp it = .lt
      · refine ⟨low, it :: rest', by simp [pop, hpop, h],
          (hperm.cons it).trans (List.Perm.swap low it rest'), ?_⟩
        intro y' hy' z hz w hw
        obtain rfl : y = y' := Option.some.inj (hy.symm.trans hy')
        rcases mem_cons.mp hz with rfl | hz
        · obtain rfl : x = w := Option.some.inj (hx.symm.trans hw)
          exact (hlt.mp h).le
        · exact hmin y hy z hz w hw
      · refine ⟨it, rest, by simp [pop, hpop, h], List.Perm.refl _, ?_⟩
        intro x' hx' z hz w hw
        obtain rfl : x = x' := Option.some.inj (hx.symm.trans hx')
        have hle : place rank it x ≤ place rank low y := not_lt.mp (hlt.not.mp h)
        rcases mem_cons.mp (hperm.mem_iff.mp hz) with rfl | hz
        · obtain rfl : y = w := Option.some.inj (hy.symm.trans hw)
          exact hle
        · exact hle.trans (hmin y hy z hz w hw)

omit [LayerKey K] in
private theorem rank_le_of_place_le
    (h : place rank a x ≤ place rank b y) : rank x.key ≤ rank y.key := by
  simp only [place, Prod.Lex.toLex_le_toLex] at h
  rcases h with h | h
  · exact h.le
  · exact h.1.le

/-- The iterator that the heap shows has the lowest rank. -/
theorem peek_spec (hcmp : ∀ j k : K, cmpLowerBound j k = compare (rank j) (rank k))
    (hok : HeapOk S n heap) (hne : heap ≠ []) :
    ∃ low ∈ heap, ∃ x, heap.peek = some low ∧ low.current = some x ∧
      ∀ it ∈ heap, ∀ y, it.current = some y → rank x.key ≤ rank y.key := by
  obtain ⟨low, rest, hpop, hperm, hmin⟩ := pop_spec hcmp hok hne
  have hlow : low ∈ heap := hperm.mem_iff.mpr mem_cons_self
  obtain ⟨x, l, -, hx⟩ := hok.exists_current hlow
  refine ⟨low, hlow, x, by simp [peek, hpop], hx, ?_⟩
  intro it hit y hy
  rcases mem_cons.mp (hperm.mem_iff.mp hit) with rfl | hit
  · rw [Option.some.inj (hx.symm.trans hy)]
  · exact rank_le_of_place_le (hmin x hx it hit y hy)

/-- Everything in a heap starts after an item that comes before all its current items. -/
private theorem lo_le_heapRem (laws : MergeLaws S rank mergeFn) (hok : HeapOk S n heap)
    (hmin : ∀ it ∈ heap, ∀ y, it.current = some y → place rank a x ≤ place rank it y) :
    ∀ i, ∀ z ∈ heapRem heap i, S.lo x ≤ S.lo z := by
  intro i z hz
  obtain ⟨it, hit, -, hz⟩ := mem_heapRem.mp hz
  obtain ⟨y, l, hy, hyc⟩ := hok.exists_current hit
  have hlayer := hok.layer it hit
  rw [hy] at hlayer hz
  have hrank := rank_le_of_place_le (hmin it hit y hyc)
  exact (laws.lo_le x y hrank).trans (hlayer.lo_le z hz)

/-- The two lowest iterators of a heap with their current items, and what the others have left. -/
structure TwoLowest (S : Span (Item K V) P M) (n : ℕ) (rank : K → Q) (heap : Heap K V)
    (low second : MergeLayerIterator K V) (others : Heap K V) (left right : Item K V)
    (ra rb : List (Item K V)) : Prop where
  perm : heap.Perm (low :: second :: others)
  heapOk : HeapOk S n (low :: second :: others)
  left_eq : low.remaining = left :: ra
  right_eq : second.remaining = right :: rb
  precedes : Precedes rank (⟨left, low.layerIndex⟩ : LayerItem K V) ⟨right, second.layerIndex⟩
  index_ne : low.layerIndex ≠ second.layerIndex
  lo_le : S.lo left ≤ S.lo right
  others_le : ∀ i, ∀ x ∈ heapRem others i, S.lo right ≤ S.lo x

/-- Popping twice gives the two lowest iterators, if there are two. -/
theorem exists_two_lowest (laws : MergeLaws S rank mergeFn) (hok : HeapOk S n heap)
    (hne : heap ≠ []) :
    (∃ low, heap.pop = some (low, []) ∧ heap.Perm [low]) ∨
      ∃ low rest second others left right ra rb, heap.pop = some (low, rest) ∧
        pop rest = some (second, others) ∧
        TwoLowest S n rank heap low second others left right ra rb := by
  obtain ⟨low, rest, hpop, hperm, hmin⟩ := pop_spec laws.cmp_eq hok hne
  by_cases hrest : rest = []
  · subst hrest
    exact .inl ⟨low, hpop, hperm⟩
  have hok₁ := hok.perm hperm
  obtain ⟨left, ra, hl, hlc⟩ := hok₁.exists_current mem_cons_self
  obtain ⟨second, others, hpop₂, hperm₂, hmin₂⟩ := pop_spec laws.cmp_eq hok₁.tail hrest
  have hok₂ := hok₁.perm (hperm₂.cons low)
  obtain ⟨right, rb, hr, hrc⟩ := hok₂.tail.exists_current mem_cons_self
  have hsecond : second ∈ rest := hperm₂.mem_iff.mpr mem_cons_self
  have hplace := hmin left hlc second hsecond right hrc
  have hindex : low.layerIndex ≠ second.layerIndex := by
    intro h
    exact hok₁.not_mem (mem_map.mpr ⟨second, hsecond, h.symm⟩)
  refine .inr ⟨low, rest, second, others, left, right, ra, rb, hpop, hpop₂,
    hperm.trans (hperm₂.cons low), hok₂, hl, hr, ?_, hindex,
    laws.lo_le _ _ (rank_le_of_place_le hplace),
    lo_le_heapRem laws hok₂.tail.tail (hmin₂ right hrc)⟩
  simp only [place, Prod.Lex.toLex_le_toLex] at hplace
  rcases hplace with h | ⟨h, hi⟩
  · exact .inl h
  · exact .inr ⟨h, lt_of_le_of_ne hi hindex⟩

/-- One pass of the inner loop either emits an item, or empties a heap that means nothing. -/
theorem mergeLowest_spec (laws : MergeLaws S rank mergeFn) {fuel : ℕ} (hok : HeapOk S n heap)
    (hfuel : heapWeight S heap < fuel) :
    (mergeLowest mergeFn fuel heap = some (.none, []) ∧ ∀ p, heapDen S n heap p = 1) ∨
      ∃ x item heap', mergeLowest mergeFn fuel heap = some (item, heap') ∧
        Emits S n heap x item heap' := by
  induction fuel generalizing heap with
  | zero => omega
  | succ fuel ih =>
    by_cases hne : heap = []
    · subst hne
      refine .inl ⟨rfl, fun p => ?_⟩
      exact stackDen_eq_one S fun i _ => by simp [heapRem]
    rcases exists_two_lowest laws hok hne with ⟨low, hpop, hperm⟩ |
      ⟨low, rest, second, others, left, right, ra, rb, hpop, hpop₂, h⟩
    · obtain ⟨x, l, hl, -⟩ := (hok.perm hperm).exists_current mem_cons_self
      refine .inr ⟨x, .iterator low, [], by simp [mergeLowest, hpop, pop], ?_⟩
      exact (emits_lowest (hok.perm hperm) hl (by simp [heapRem])).of_perm hok hperm
    have hlc := current_of_remaining h.left_eq
    have hrc := current_of_remaining h.right_eq
    have hlayerL := h.left_eq ▸ h.heapOk.layer low mem_cons_self
    have hlayerR := h.right_eq ▸ h.heapOk.tail.layer second mem_cons_self
    cases hres : mergeFn ⟨left, low.layerIndex⟩ ⟨right, second.layerIndex⟩ with
    | emitLeft =>
      have hhi := laws.emitLeft _ _ hlayerL.head_ok hlayerR.head_ok h.precedes h.index_ne hres
      refine .inr ⟨left, .iterator low, second :: others,
        by simp [mergeLowest, hpop, hpop₂, hlc, hrc, hres], ?_⟩
      refine (emits_lowest h.heapOk h.left_eq ?_).of_perm hok h.perm
      intro i y hy
      rw [heapRem_cons, h.right_eq] at hy
      rcases mem_append.mp hy with hy | hy
      · split at hy
        · exact hhi.trans (hlayerR.lo_le y hy)
        · cases hy
      · exact hhi.trans (h.others_le i y hy)
    | other emit l r =>
      have hs := laws.other _ _ _ _ _ hlayerL.head_ok hlayerR.head_ok h.precedes h.index_ne hres
      have hstep := merge_step h.heapOk h.left_eq h.right_eq hs h.lo_le h.others_le
      cases emit with
      | none =>
        have hrun : mergeLowest mergeFn (fuel + 1) heap = mergeLowest mergeFn fuel (updateItem
            (updateItem others (low.maybeAdvance l) l) (second.maybeAdvance r) r) := by
          simp [mergeLowest, hpop, hpop₂, hlc, hrc, hres]
        have hweight := hstep.weight_lt
        rw [← heapWeight_perm h.perm] at hweight
        rw [hrun]
        rcases ih hstep.heapOk (by omega) with ⟨hnone, hden⟩ | ⟨x, item, heap', hsome, hemits⟩
        · refine .inl ⟨hnone, fun p => ?_⟩
          rw [heapDen_perm h.perm hok, ← hstep.den p, optDen_none, one_mul, hden p]
        · refine .inr ⟨x, item, heap', hsome, ?_⟩
          refine (Emits.of_step hstep ⟨low.layerIndex, ?_⟩ hemits).of_perm hok h.perm
          simp [heapRem_cons, h.left_eq]
      | some e =>
        refine .inr ⟨e, .item e, updateItem (updateItem others (low.maybeAdvance l) l)
          (second.maybeAdvance r) r, by simp [mergeLowest, hpop, hpop₂, hlc, hrc, hres], ?_⟩
        obtain ⟨hok', hlo, -⟩ := hs.emit_ok e rfl
        exact (Emits.of_item hstep ⟨low.layerIndex, by simp [heapRem_cons, h.left_eq]⟩ hok'
          hlo).of_perm hok h.perm

end Laws

end Smos.Fxfs.Lsm
