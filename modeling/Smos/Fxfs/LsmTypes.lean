import Mathlib.Data.List.Basic

/-!
The data of the LSM tree (`lsm_tree/types.rs`): items, the key traits, layers and layer iterators.

A layer is the list of its items in order, and a seek is the rest of that list from the first item
that meets the bound.  A layer iterator is a state with a current item and a fallible `advance`;
`Yields` says which list of items an iterator produces before it is exhausted.
-/
namespace Smos.Fxfs.Lsm

structure Item (K V : Type) where
  key : K
  value : V
  sequence : ℕ
  deriving DecidableEq, Repr

inductive MergeType where
  | fullMerge
  | optimizedMerge
  deriving DecidableEq, Repr

/-- The traits `OrdUpperBound`, `OrdLowerBound` and `LayerKey`. -/
class LayerKey (K : Type) where
  cmpUpperBound : K → K → Ordering
  cmpLowerBound : K → K → Ordering
  mergeType : K → MergeType := fun _ => .fullMerge
  nextKey : K → Option K := fun _ => none
  -- nothing where the code panics, as the trait's default does
  searchKey : K → Option K := fun _ => none

export LayerKey (cmpUpperBound cmpLowerBound)

inductive Bound (K : Type) where
  | included (key : K)
  | excluded (key : K)
  | unbounded
  deriving DecidableEq, Repr

variable {K V σ : Type}

section Layer

variable [LayerKey K]

def Bound.isBefore (key : K) : Bound K → Bool
  | .included k => cmpUpperBound key k == .lt
  | .excluded k => cmpUpperBound key k != .gt
  | .unbounded => false

def seek (items : List (Item K V)) (bound : Bound K) : List (Item K V) :=
  items.dropWhile fun item => bound.isBefore item.key

end Layer

structure Layer (K V : Type) where
  items : List (Item K V)
  maybeContainsKey : K → Bool := fun _ => true

/-- The `LayerIterator` trait; `advance` fails where the code would return an error, panic or not
return at all. -/
structure LayerIterator (σ K V : Type) where
  get : σ → Option (Item K V)
  advance : σ → Option σ

def LayerIterator.Yields (iter : LayerIterator σ K V) : σ → List (Item K V) → Prop
  | s, [] => iter.get s = none
  | s, x :: l => iter.get s = some x ∧ ∃ s', iter.advance s = some s' ∧ iter.Yields s' l

def LayerIterator.collect (iter : LayerIterator σ K V) : ℕ → σ → Option (List (Item K V))
  | 0, _ => none
  | fuel + 1, s =>
    match iter.get s with
    | none => some []
    | some x => do
      let s' ← iter.advance s
      let l ← iter.collect fuel s'
      return x :: l

theorem LayerIterator.collect_of_yields {iter : LayerIterator σ K V} {l : List (Item K V)}
    {s : σ} {fuel : ℕ} (h : iter.Yields s l) (hfuel : l.length < fuel) :
    iter.collect fuel s = some l := by
  induction l generalizing s fuel with
  | nil =>
    obtain ⟨f, rfl⟩ : ∃ f, fuel = f + 1 := ⟨fuel - 1, by omega⟩
    have hget : iter.get s = none := h
    simp [collect, hget]
  | cons x l ih =>
    simp only [List.length_cons] at hfuel
    obtain ⟨f, rfl⟩ : ∃ f, fuel = f + 1 := ⟨fuel - 1, by omega⟩
    obtain ⟨hget, s', hadv, hrest⟩ := h
    have hl := ih hrest (by omega : l.length < f)
    simp [collect, hget, hadv, hl]

section Filter

variable (iter : LayerIterator σ K V) (predicate : Item K V → Bool)

def skipFiltered : ℕ → σ → Option σ
  | 0, _ => none
  | fuel + 1, s =>
    match iter.get s with
    | none => some s
    | some item =>
      if predicate item then some s
      else do
        let s' ← iter.advance s
        skipFiltered fuel s'

/-- `FilterLayerIterator`: it keeps no state beside that of the iterator it filters. -/
def filterLayerIterator (fuel : ℕ) : LayerIterator σ K V where
  get := iter.get
  advance s := do
    let s' ← iter.advance s
    skipFiltered iter predicate fuel s'

variable {iter}

/-- Skipping stops at the first item that passes the filter, from where the iterator produces the
items that pass. -/
theorem skipFiltered_yields {l : List (Item K V)} {s : σ} {fuel fuel' : ℕ}
    (h : iter.Yields s l) (hfuel : l.length < fuel) (hfuel' : l.length < fuel') :
    ∃ s', skipFiltered iter predicate fuel s = some s' ∧
      (filterLayerIterator iter predicate fuel').Yields s' (l.filter predicate) := by
  induction l generalizing s fuel with
  | nil =>
    obtain ⟨f, rfl⟩ : ∃ f, fuel = f + 1 := ⟨fuel - 1, by omega⟩
    have hget : iter.get s = none := h
    exact ⟨s, by simp [skipFiltered, hget], h⟩
  | cons x l ih =>
    simp only [List.length_cons] at hfuel hfuel'
    obtain ⟨f, rfl⟩ : ∃ f, fuel = f + 1 := ⟨fuel - 1, by omega⟩
    obtain ⟨hget, s₁, hadv, hrest⟩ := h
    by_cases hx : predicate x = true
    · refine ⟨s, by simp [skipFiltered, hget, hx], ?_⟩
      obtain ⟨s₂, hskip, hyields⟩ := ih hrest (by omega : l.length < fuel') (by omega)
      rw [List.filter_cons_of_pos hx]
      exact ⟨hget, s₂, by simp [filterLayerIterator, hadv, hskip], hyields⟩
    · obtain ⟨s₂, hskip, hyields⟩ := ih hrest (by omega : l.length < f) (by omega)
      refine ⟨s₂, by simp [skipFiltered, hget, hx, hadv, hskip], ?_⟩
      rw [List.filter_cons_of_neg hx]
      exact hyields

end Filter

end Smos.Fxfs.Lsm
