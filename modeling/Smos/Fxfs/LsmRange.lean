import Smos.Fxfs.LsmScan
import Smos.Lib.Overlay

/-!
Range queries of the merger.  Layers are consulted lazily: those on the heap and those still
pending mean together, from a frontier on, what the whole stack means.  Older layers stay pending
only while the heap has an item that hides them at the frontier.
-/
namespace Smos.Fxfs.Lsm

open Lib.Spans MergerIterator List

variable {K V : Type} {P M Q : Type} [LinearOrder P] [Monoid M] [LinearOrder Q]
  {S : Span (Item K V) P M} {n : ℕ} {heap : Heap K V} {it : MergeLayerIterator K V}

def pendingDen (S : Span (Item K V) P M) (pending : List (ℕ × Layer K V)) (p : P) : M :=
  (pending.map fun q => listDen S q.2.items p).prod

def pendingWeight (S : Span (Item K V) P M) (pending : List (ℕ × Layer K V)) : ℕ :=
  (pending.map fun q => (q.2.items.map S.weight).sum).sum

/-- Layers beyond those of the heap mean nothing. -/
theorem heapDen_extend {m : ℕ} (hok : HeapOk S n heap) (hle : n ≤ m) (p : P) :
    heapDen S m heap p = heapDen S n heap p := by
  induction m, hle using Nat.le_induction with
  | base => rfl
  | succ m hm ih =>
    have hnil : heapRem heap m = [] := by
      apply heapRem_eq_nil
      intro h
      obtain ⟨it, hit, hindex⟩ := mem_map.mp h
      have := hok.lt it hit
      omega
    rw [← ih]
    simp [heapDen, stackDen, range_succ, hnil]

/-- Pushing an iterator of an older layer. -/
theorem heapDen_pushSome (hok : HeapOk S n heap)
    (hle : n ≤ it.layerIndex) (hsome : it.isSome = true ↔ it.remaining ≠ []) (p : P) :
    heapDen S (it.layerIndex + 1) (heap.pushSome it) p =
      heapDen S n heap p * listDen S it.remaining p := by
  have hnot : it.layerIndex ∉ heap.map MergeLayerIterator.layerIndex := by
    intro h
    obtain ⟨it', hit, hindex⟩ := mem_map.mp h
    have := hok.lt it' hit
    omega
  rw [← heapDen_extend hok hle]
  unfold heapDen
  rw [heapRem_pushSome hsome, stackDen, range_succ, map_append, prod_append]
  congr 1
  · apply stackDen_congr
    intro i hi
    simp [heapRem_cons, show ¬ it.layerIndex = i by omega]
  · simp [heapRem_cons, heapRem_eq_nil hnot]

variable {f : P} {x : Item K V}

/-- What passing over items that end at or before the frontier leaves of a heap. -/
structure Skipped (S : Span (Item K V) P M) (n : ℕ) (f : P) (heap heap' : Heap K V) : Prop where
  heapOk : HeapOk S n heap'
  den : ∀ p, f ≤ p → heapDen S n heap' p = heapDen S n heap p
  den_or : ∀ p, heapDen S n heap' p = heapDen S n heap p ∨
    ∀ i, ∀ y ∈ heapRem heap' i, p < S.lo y
  le_lo : ∀ q, (∀ i, ∀ y ∈ heapRem heap i, q ≤ S.lo y) → ∀ i, ∀ y ∈ heapRem heap' i, q ≤ S.lo y
  weight_le : heapWeight S heap' ≤ heapWeight S heap

/-- The layers on the heap, the first `n` of the stack as far as they are needed, and those
pending mean together what is to be read from the frontier on. -/
structure Consulted (S : Span (Item K V) P M) (n : ℕ) (f : P) (meaning : P → M)
    (pending : List (ℕ × Layer K V)) (heap : Heap K V) : Prop where
  heapOk : HeapOk S n heap
  le_index : ∀ q ∈ pending, n ≤ q.1
  sorted : pending.Pairwise fun q r => q.1 < r.1
  layers : ∀ q ∈ pending, IsLayer S q.2.items
  den : ∀ p, f ≤ p → heapDen S n heap p * pendingDen S pending p = meaning p

theorem Consulted.perm {pending : List (ℕ × Layer K V)} {meaning : P → M} {heap' : Heap K V}
    (h : Consulted S n f meaning pending heap)
    (hp : heap.Perm heap') : Consulted S n f meaning pending heap' := by
  refine { h with heapOk := h.heapOk.perm hp, den := ?_ }
  intro p hle
  rw [← heapDen_perm hp h.heapOk, h.den p hle]

section Ready

variable {pending : List (ℕ × Layer K V)} {meaning : P → M}
  {heap₀ heap' : Heap K V} {x : Item K V} {item : CurrentItem K V}

structure Ready (S : Span (Item K V) P M) (n : ℕ) (f : P) (meaning : P → M)
    (pending : List (ℕ × Layer K V)) (heap : Heap K V) : Prop extends
    Consulted S n f meaning pending heap where
  reaches : pending = [] ∨
    ∃ it ∈ heap, ∃ x, it.current = some x ∧ S.lo x ≤ f ∧ f < S.hi x ∧ Absorbs S x

section

variable (h : Ready S n f meaning pending heap)
include h

/-- The heap without the emitted item, seen from the end of the item. -/
theorem Ready.skip (hskip : Skipped S n f heap heap₀)
    (hemits : Emits S n heap₀ x item heap') (hfx : f ≤ S.hi x) :
    Consulted S n (S.hi x) meaning pending (skipItem item heap') := by
  refine { h.toConsulted with heapOk := hemits.heapOk, den := ?_ }
  intro p hp
  rw [← h.den p (hfx.trans hp), ← hskip.den p (hfx.trans hp), ← hemits.den p,
    S.den_after x p hp, one_mul]

end

def ShowsPast (S : Span (Item K V) P M) (f : P) (heap : Heap K V) : Prop :=
  ∀ it ∈ heap, ∀ x, it.current = some x → f < S.hi x

private theorem showsPast_of_hi_le (hok : HeapOk S n heap)
    (hle : ∀ i, ∀ y ∈ heapRem heap i, f ≤ S.lo y) : ShowsPast S f heap := by
  intro it hit y hy
  obtain ⟨z, l, hl, hz⟩ := hok.exists_current hit
  obtain rfl : y = z := Option.some.inj (hy.symm.trans hz)
  have hmem : y ∈ it.remaining := hl ▸ mem_cons_self
  have hlo := hle it.layerIndex y (mem_heapRem.mpr ⟨it, hit, rfl, hmem⟩)
  exact hlo.trans_lt (S.lo_lt_hi y ((hok.layer it hit).ok y hmem))

/-- Putting the emitted item back in front of its iterator changes nothing past its end. -/
theorem Ready.putBack (h : Ready S n f meaning pending heap)
    (hskip : Skipped S n f heap heap₀) (hemits : Emits S n heap₀ x (.iterator it) heap')
    (hfx : f ≤ S.hi x) :
    Consulted S n (S.hi x) meaning pending (it.advance.replace x :: heap') ∧
      heapWeight S (it.advance.replace x :: heap') ≤ heapWeight S heap := by
  obtain ⟨hok, hweight⟩ := hemits.iterator it rfl
  obtain ⟨y, l, hl, hy⟩ := hok.exists_current mem_cons_self
  obtain rfl : x = y := Option.some.inj (hemits.get.symm.trans hy)
  have hrem : (it.advance.replace x).remaining = it.remaining :=
    (MergeLayerIterator.replace_advance_remaining hl).trans hl.symm
  have hheap : heapRem (it.advance.replace x :: heap') = heapRem (it :: heap') := by
    funext i
    simp only [heapRem_cons, hrem, MergeLayerIterator.replace_layerIndex,
      MergeLayerIterator.advance_layerIndex]
  have hskipped := h.skip hskip hemits hfx
  refine ⟨{ hskipped with heapOk := ?_, den := ?_ }, ?_⟩
  · exact hok.congr_head (by simp) hrem
  · intro p hp
    rw [← hskipped.den p hp]
    congr 1
    unfold heapDen
    rw [hheap, skipItem, heapRem_pushSome it.advance_isSome]
    apply stackDen_congr
    intro i _
    rw [heapRem_cons, heapRem_cons, MergeLayerIterator.advance_layerIndex,
      MergeLayerIterator.advance_remaining hl, hl]
    split
    · simp [S.den_after x p hp]
    · rfl
  · rw [heapWeight_cons, hrem]
    exact hweight.trans hskip.weight_le

end Ready

variable [LayerKey K] {rank : K → Q} {mergeFn : MergeFn K V} {bound : Bound K}

/-- A key that stands for a frontier: a seek to it passes over the items that end at or before the
frontier, and items that do not start after the key do not start after the frontier. -/
structure IsFrontier (S : Span (Item K V) P M) (key : K) (f : P) : Prop where
  optimized : LayerKey.mergeType key = .optimizedMerge
  before_iff : ∀ x : Item K V, (Bound.included key).isBefore x.key = true ↔ S.hi x ≤ f
  lo_le : ∀ x : Item K V, cmpLowerBound x.key key ≠ .gt → S.lo x ≤ f

section Seek

variable {key : K} {items : List (Item K V)}

theorem IsLayer.seek (h : IsLayer S items) (bound : Bound K) : IsLayer S (seek items bound) := by
  have hsplit : (items.takeWhile fun x => bound.isBefore x.key) ++ Lsm.seek items bound = items :=
    takeWhile_append_dropWhile
  rw [← hsplit] at h
  exact h.of_append.2.1

/-- A seek that passes over nothing past the frontier loses nothing from the frontier on. -/
theorem listDen_seek
    (hbound : ∀ x : Item K V, bound.isBefore x.key = true → S.hi x ≤ f) {p : P} (hp : f ≤ p) :
    listDen S (seek items bound) p = listDen S items p := by
  let before := items.takeWhile fun x => bound.isBefore x.key
  have hsplit : before ++ seek items bound = items := takeWhile_append_dropWhile
  have hbefore : listDen S before p = 1 := by
    apply listDen_eq_one
    intro x hx
    have hbefore : bound.isBefore x.key = true :=
      mem_takeWhile_imp (p := fun x : Item K V => bound.isBefore x.key) hx
    exact S.den_after x p ((hbound x hbefore).trans hp)
  conv_rhs => rw [← hsplit]
  rw [listDen_append, hbefore, one_mul]

theorem seek_head_past (hkey : IsFrontier S key f)
    (hx : (seek items (.included key)).head? = some x) : f < S.hi x := by
  have h := head?_dropWhile_not (fun x : Item K V => (Bound.included key).isBefore x.key) items
  unfold seek at hx
  rw [hx] at h
  by_contra hle
  simp [(hkey.before_iff x).mpr (not_lt.mp hle)] at h

theorem seek_weight_le (S : Span (Item K V) P M) (items : List (Item K V)) (bound : Bound K) :
    ((seek items bound).map S.weight).sum ≤ (items.map S.weight).sum := by
  have hsplit : (items.takeWhile fun x => bound.isBefore x.key) ++ seek items bound = items :=
    takeWhile_append_dropWhile
  conv_rhs => rw [← hsplit]
  rw [map_append, sum_append]
  omega

end Seek

section Push

variable {key : K} {pending : List (ℕ × Layer K V)} {meaning : P → M}

section

variable (hcmp : ∀ j k : K, cmpLowerBound j k = compare (rank j) (rank k))
  (hkey : IsFrontier S key f) (hok : HeapOk S n heap)
include hcmp hkey hok

/-- More layers are asked for unless none is left or the heap has an item from the frontier. -/
theorem exists_of_not_needsMore
    (h : needsMoreIterators pending heap (some key) (.included key) = false) :
    pending = [] ∨ ∃ it ∈ heap, ∃ x, it.current = some x ∧ S.lo x ≤ f := by
  by_cases hpending : pending = []
  · exact .inl hpending
  refine .inr ?_
  have hempty : pending.isEmpty = false := by simpa using hpending
  by_cases hheap : heap = []
  · subst hheap
    simp [needsMoreIterators, hempty, Heap.peek, Heap.pop] at h
  obtain ⟨low, hlow, x, hpeek, hx, -⟩ := peek_spec hcmp hok hheap
  refine ⟨low, hlow, x, hx, hkey.lo_le x ?_⟩
  simpa [needsMoreIterators, hempty, hpeek, hx, hkey.optimized] using h

/-- An item that does not start after the key is enough for now. -/
theorem not_needsMore_of_current
    (hit : it ∈ heap) (hx : it.current = some x) (hle : cmpLowerBound x.key key ≠ .gt) :
    needsMoreIterators pending heap (some key) (.included key) = false := by
  obtain ⟨low, -, y, hpeek, hy, hmin⟩ := peek_spec hcmp hok (ne_nil_of_mem hit)
  have hrank : cmpLowerBound y.key key ≠ .gt := by
    rw [hcmp, ne_eq, compare_gt_iff_gt, not_lt] at hle ⊢
    exact (hmin it hit x hx).trans hle
  simp [needsMoreIterators, hpeek, hy, hkey.optimized, hrank]

end

/-- Consulting one more layer. -/
private theorem Consulted.push {index : ℕ} {layer : Layer K V}
    (h : Consulted S n f meaning ((index, layer) :: pending) heap) (hkey : IsFrontier S key f) :
    Consulted S (index + 1) f meaning pending
      (heap.pushSome (openLayer index layer (.included key))) := by
  have hle : n ≤ index := h.le_index _ mem_cons_self
  have hlayer : IsLayer S layer.items := h.layers _ mem_cons_self
  have hrem := openLayer_remaining index layer (.included key)
  have hsome := openLayer_isSome index layer (.included key)
  obtain ⟨hfirst, hsorted⟩ := pairwise_cons.mp h.sorted
  refine ⟨?_, ?_, hsorted, (forall_mem_cons.mp h.layers).2, ?_⟩
  · have hok : HeapOk S (index + 1) heap :=
      ⟨h.heapOk.nodup, fun it hit => by have := h.heapOk.lt it hit; omega, h.heapOk.layer,
        h.heapOk.ne_nil⟩
    refine hok.pushSome (Nat.lt_succ_self index) ?_ (hrem ▸ IsLayer.seek hlayer _) hsome
    intro hmem
    obtain ⟨it, hit, hindex⟩ := mem_map.mp hmem
    have := h.heapOk.lt it hit
    rw [openLayer_layerIndex] at hindex
    omega
  · intro q hq
    exact hfirst q hq
  · intro p hp
    have hpush : heapDen S (index + 1)
        (heap.pushSome (openLayer index layer (.included key))) p =
        heapDen S n heap p * listDen S layer.items p := by
      rw [← listDen_seek (fun x => (hkey.before_iff x).mp) hp, ← hrem]
      exact heapDen_pushSome h.heapOk hle hsome p
    rw [← h.den p hp, hpush, mul_assoc]
    rfl

/-- Layers are consulted until none is left or the heap has an item from the frontier.  The
iterators in `extra` are kept aside meanwhile. -/
theorem pushIterators_spec (hcmp : ∀ j k : K, cmpLowerBound j k = compare (rank j) (rank k))
    (hkey : IsFrontier S key f) {extra : Heap K V}
    (h : Consulted S n f meaning pending (extra ++ heap)) (hpast : ShowsPast S f heap) :
    ∃ n' pending' heap', pushIterators (some key) (.included key) pending heap =
        (pending', heap') ∧ n ≤ n' ∧ Consulted S n' f meaning pending' (extra ++ heap') ∧
      ShowsPast S f heap' ∧
      (pending' = [] ∨ ∃ it ∈ heap', ∃ x, it.current = some x ∧ S.lo x ≤ f) ∧
      heapWeight S heap' + pendingWeight S pending' ≤
        heapWeight S heap + pendingWeight S pending ∧
      ∀ it ∈ heap', it ∈ heap ∨ n ≤ it.layerIndex := by
  induction pending generalizing n heap with
  | nil =>
    exact ⟨n, [], heap, rfl, le_rfl, h, hpast, .inl rfl, le_rfl, fun it hit => .inl hit⟩
  | cons q pending ih =>
    obtain ⟨index, layer⟩ := q
    by_cases hneeds : needsMoreIterators ((index, layer) :: pending) heap (some key)
        (.included key) = true
    · have hpush : Consulted S (index + 1) f meaning pending
          (extra ++ heap.pushSome (openLayer index layer (.included key))) := by
        refine (h.push hkey).perm ?_
        unfold Heap.pushSome
        split
        · exact perm_middle.symm
        · exact List.Perm.refl _
      have hpast' : ShowsPast S f (heap.pushSome (openLayer index layer (.included key))) := by
        intro it' hit x hx
        rcases mem_pushSome hit with rfl | hit
        · have hhead : (seek layer.items (.included key)).head? = some x := by
            rw [← openLayer_remaining index]
            exact MergeLayerIterator.current_eq_head? hx
          exact seek_head_past hkey hhead
        · exact hpast it' hit x hx
      obtain ⟨n', pending', heap', hrun, hle, hc, hpast'', hstop, hweight, hmem⟩ :=
        ih hpush hpast'
      have hindex : n ≤ index := h.le_index _ mem_cons_self
      refine ⟨n', pending', heap', ?_, by omega, hc, hpast'', hstop, ?_, ?_⟩
      · simpa [pushIterators, hneeds] using hrun
      · have hw := heapWeight_pushSome_le S heap (openLayer index layer (.included key))
        have hseek := seek_weight_le S layer.items (.included key)
        rw [openLayer_remaining] at hw
        simp only [pendingWeight, map_cons, sum_cons] at hweight ⊢
        omega
      · intro it' hit
        rcases hmem it' hit with hit | hit
        · rcases mem_pushSome hit with rfl | hit
          · exact .inr hindex
          · exact .inl hit
        · exact .inr (by omega)
    · have hok : HeapOk S n heap :=
        ⟨(nodup_append.mp (by simpa using h.heapOk.nodup)).2.1,
          fun it hit => h.heapOk.lt it (mem_append_right extra hit),
          fun it hit => h.heapOk.layer it (mem_append_right extra hit),
          fun it hit => h.heapOk.ne_nil it (mem_append_right extra hit)⟩
      refine ⟨n, (index, layer) :: pending, heap, ?_, le_rfl, h, hpast, ?_, le_rfl,
        fun it hit => .inl hit⟩
      · simp [pushIterators, hneeds]
      · exact exists_of_not_needsMore hcmp hkey hok (by simpa using hneeds)

end Push

section Advance

/-- The layer of index `a` shows `y`, and other items that start before `f` are in older layers. -/
structure GuardedBy (S : Span (Item K V) P M) (f : P) (heap : Heap K V) (a : ℕ) (y : Item K V) :
    Prop where
  shows_item : ∃ it ∈ heap, it.layerIndex = a ∧ it.current = some y
  others : ∀ it ∈ heap, it.layerIndex = a ∨ a < it.layerIndex ∨ ∀ z ∈ it.remaining, f ≤ S.lo z

/-- Nothing on the heap starts before the frontier, unless an item that ends at the frontier has
been put back in front of older layers. -/
def Guarded (S : Span (Item K V) P M) (f : P) (heap : Heap K V) : Prop :=
  (∀ i, ∀ y ∈ heapRem heap i, f ≤ S.lo y) ∨ ∃ a y, S.hi y = f ∧ GuardedBy S f heap a y

/-- The state in which `advance` calls `advance_impl` after an item that ends at the frontier. -/
structure NextState (S : Span (Item K V) P M) (n : ℕ) (f : P) (meaning : P → M) (key : K)
    (bound : Bound K) (pending : List (ℕ × Layer K V)) (heap : Heap K V) : Prop where
  ready : Ready S n f meaning pending heap
  bound_eq : bound = .included key ∨
    bound = .unbounded ∧ ∀ i, ∀ y ∈ heapRem heap i, f ≤ S.lo y
  guarded : Guarded S f heap

variable {key : K} {pending : List (ℕ × Layer K V)} {meaning : P → M}
  {heap₀ heap' : Heap K V} {x : Item K V} {item : CurrentItem K V}

omit [LayerKey K] in
/-- Without new layers: an item that starts at the frontier is on the heap. -/
private theorem Ready.next_of_skip (h : Ready S n f meaning pending heap)
    (hskip : Skipped S n f heap heap₀) (hemits : Emits S n heap₀ x item heap') (hfx : f ≤ S.hi x)
    (habs : ∀ y, S.Ok y → S.lo y ≤ S.hi x → S.hi x < S.hi y → Absorbs S y)
    (hstart : ∃ it ∈ skipItem item heap', ∃ y, it.current = some y ∧ S.lo y ≤ S.hi x) :
    NextState S n (S.hi x) meaning key (.included key) pending (skipItem item heap') := by
  obtain ⟨it, hit, y, hy, hlo⟩ := hstart
  have hpast := showsPast_of_hi_le hemits.heapOk hemits.hi_le it hit y hy
  exact ⟨⟨h.skip hskip hemits hfx, .inr ⟨it, hit, y, hy, hlo, hpast,
    habs y (hemits.heapOk.ok_current hit hy) hlo hpast⟩⟩, .inl rfl, .inl hemits.hi_le⟩

/-- With older layers consulted, and the emitted item put back to be merged with them. -/
private theorem Ready.next_of_putBack (laws : MergeLaws S rank mergeFn)
    (h : Ready S n f meaning pending heap) (hskip : Skipped S n f heap heap₀)
    {it : MergeLayerIterator K V} (hemits : Emits S n heap₀ x (.iterator it) heap')
    (hfx : f ≤ S.hi x) (hkey : IsFrontier S key (S.hi x))
    (habs : ∀ y, S.Ok y → S.lo y ≤ S.hi x → S.hi x < S.hi y → Absorbs S y) :
    ∃ n' pending' heap'',
      pushIterators (some key) (.included key) pending heap' = (pending', heap'') ∧
      NextState S n' (S.hi x) meaning key (.included key) pending'
        (it.advance.replace x :: heap'') ∧
      heapWeight S (it.advance.replace x :: heap'') + pendingWeight S pending' ≤
        heapWeight S heap + pendingWeight S pending := by
  obtain ⟨hok, -⟩ := hemits.iterator it rfl
  obtain ⟨hback, hbackWeight⟩ := h.putBack hskip hemits hfx
  have hsub : heap' ⊆ skipItem (.iterator it) heap' := fun it' h => mem_pushSome_of_mem h
  have hle : ∀ i, ∀ y ∈ heapRem heap' i, S.hi x ≤ S.lo y := by
    intro i y hy
    obtain ⟨it', hit, hi, hy⟩ := mem_heapRem.mp hy
    exact hemits.hi_le i y (mem_heapRem.mpr ⟨it', hsub hit, hi, hy⟩)
  have hback : Consulted S n (S.hi x) meaning pending ([it.advance.replace x] ++ heap') := hback
  obtain ⟨n', pending', heap'', hrun, hn, hc, hpast, hstop, hpushWeight, hmem⟩ :=
    pushIterators_spec laws.cmp_eq hkey hback (showsPast_of_hi_le hok.tail hle)
  refine ⟨n', pending', heap'', hrun, ⟨⟨hc, ?_⟩, .inl rfl, .inr ?_⟩, ?_⟩
  · rcases hstop with hnil | ⟨it', hit, y, hy, hlo⟩
    · exact .inl hnil
    · have hmem : it' ∈ it.advance.replace x :: heap'' := mem_cons_of_mem _ hit
      have hhi := hpast it' hit y hy
      exact .inr ⟨it', hmem, y, hy, hlo, hhi, habs y (hc.heapOk.ok_current hmem hy) hlo hhi⟩
  · refine ⟨it.layerIndex, x, rfl, ⟨_, mem_cons_self, by simp, rfl⟩, ?_⟩
    intro it' hit
    rcases mem_cons.mp hit with rfl | hit
    · exact .inl (by simp)
    rcases hmem it' hit with hit | hindex
    · exact .inr (.inr fun z hz => hle _ z (mem_heapRem.mpr ⟨it', hit, rfl, hz⟩))
    · have hlt := hok.lt it mem_cons_self
      exact .inr (.inl (by omega))
  · rw [heapWeight_cons] at hbackWeight ⊢
    omega

/-- From an emitted item `advance` goes on to a state that is ready at the end of the item. -/
theorem Ready.advance (laws : MergeLaws S rank mergeFn) (h : Ready S n f meaning pending heap)
    (hskip : Skipped S n f heap heap₀) (hemits : Emits S n heap₀ x item heap') (hfx : f ≤ S.hi x)
    (hnext : LayerKey.nextKey x.key = some key) (hkey : IsFrontier S key (S.hi x))
    (habs : ∀ y, S.Ok y → S.lo y ≤ S.hi x → S.hi x < S.hi y → Absorbs S y)
    (hsplit : ∀ e, item = .item e →
      ∃ it ∈ heap', ∃ y, it.current = some y ∧ cmpLowerBound y.key key ≠ .gt) :
    ∃ n' nextKey bound pending' heap'' current,
      nextBound ⟨pending, heap', item⟩ = (nextKey, bound) ∧
      advanceItem ⟨pending, heap', item⟩ nextKey bound = ⟨pending', heap'', current⟩ ∧
      NextState S n' (S.hi x) meaning key bound pending' heap'' ∧
      heapWeight S heap'' + pendingWeight S pending' ≤
        heapWeight S heap + pendingWeight S pending ∧
      (pending = [] → pending' = [] ∧ ∀ i, ∀ y ∈ heapRem heap'' i, S.hi x ≤ S.lo y) := by
  have hweight : heapWeight S (skipItem item heap') ≤ heapWeight S heap :=
    hemits.weight_lt.le.trans hskip.weight_le
  by_cases hp : pending = []
  · subst hp
    have hitem : item ≠ .none := by
      rintro rfl
      simpa [CurrentItem.get] using hemits.get
    obtain ⟨hbound, current, hadv⟩ := advanceItem_of_pending_nil heap' hitem
    exact ⟨n, none, .unbounded, [], skipItem item heap', current, hbound, hadv,
      ⟨⟨h.skip hskip hemits hfx, .inl rfl⟩, .inr ⟨rfl, hemits.hi_le⟩, .inl hemits.hi_le⟩, by omega,
      fun _ => ⟨rfl, hemits.hi_le⟩⟩
  have hbound : nextBound ⟨pending, heap', item⟩ = (some key, .included key) := by
    simp [nextBound, hp, hemits.get, hnext]
  cases item with
  | none => simpa [CurrentItem.get] using hemits.get
  | item e =>
    obtain ⟨it, hit, y, hy, hle⟩ := hsplit e rfl
    have hneeds : needsMoreIterators pending heap' (some key) (.included key) = false :=
      not_needsMore_of_current laws.cmp_eq hkey hemits.heapOk hit hy hle
    refine ⟨n, some key, .included key, pending, heap', .item e, hbound, ?_,
      h.next_of_skip hskip hemits hfx habs ⟨it, hit, y, hy, hkey.lo_le y hle⟩, ?_,
      fun h => absurd h hp⟩
    · cases pending with
      | nil => exact absurd rfl hp
      | cons q pending => simp [advanceItem, pushIterators, hneeds]
    · change heapWeight S heap' ≤ _ at hweight
      omega
  | iterator it =>
    obtain ⟨hok, -⟩ := hemits.iterator it rfl
    have hcur : it.current = some x := hemits.get
    have hsub : heap' ⊆ skipItem (.iterator it) heap' := fun it' h => mem_pushSome_of_mem h
    by_cases hneeds : needsMoreIterators pending heap' (some key) (.included key) = true
    swap
    · have hneeds : needsMoreIterators pending heap' (some key) (.included key) = false := by
        simpa using hneeds
      rcases exists_of_not_needsMore laws.cmp_eq hkey hok.tail hneeds with hnil |
        ⟨it', hit, y, hy, hlo⟩
      · exact absurd hnil hp
      refine ⟨n, some key, .included key, pending, skipItem (.iterator it) heap', .none, hbound, ?_,
        h.next_of_skip hskip hemits hfx habs ⟨it', hsub hit, y, hy, hlo⟩, by omega,
        fun h => absurd h hp⟩
      simp [advanceItem, hneeds, skipItem]
    by_cases hfollows : ∃ y, it.advance.current = some y ∧ it.advance.isSome = true ∧
        cmpLowerBound y.key key ≠ .gt
    · -- The next item of the same layer starts where the emitted one ends.
      obtain ⟨y, hy, hsome, hle⟩ := hfollows
      refine ⟨n, some key, .included key, pending, skipItem (.iterator it) heap', .none, hbound, ?_,
        h.next_of_skip hskip hemits hfx habs ⟨it.advance, ?_, y, hy, hkey.lo_le y hle⟩,
        by omega, fun h => absurd h hp⟩
      · simp [advanceItem, hneeds, hy, hsome, hle, skipItem]
      · simp [skipItem, Heap.pushSome, hsome]
    · obtain ⟨n', pending', heap'', hrun, hstate, hbackWeight⟩ :=
        h.next_of_putBack laws hskip hemits hfx hkey habs
      refine ⟨n', some key, .included key, pending', it.advance.replace x :: heap'', .none, hbound,
        ?_, hstate, hbackWeight, fun hnil => absurd hnil hp⟩
      have hpush : heap''.pushSome (it.advance.replace x) = it.advance.replace x :: heap'' := rfl
      cases hnextItem : it.advance.current with
      | none => simp [advanceItem, hneeds, hnextItem, hcur, hrun, hpush]
      | some y =>
        have hnot : ¬ (it.advance.isSome = true ∧ ¬ cmpLowerBound y.key key = .gt) :=
          fun hy => hfollows ⟨y, hnextItem, hy.1, hy.2⟩
        simp [advanceItem, hneeds, hnextItem, hcur, hrun, hpush, hnot]

def queriedLayers (query : Query K) (layers : List (Layer K V)) : List (ℕ × Layer K V) :=
  (mergerIterators layers).filter fun (_, layer) => query.needsLayer layer

end Advance

end Smos.Fxfs.Lsm
