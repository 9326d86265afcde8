import Smos.Fxfs.LsmHeap

/-!
Merging an item into a mutable layer (`merge_into` of `lsm_tree/merge.rs` over the mutable iterator
of `lsm_tree/skip_list_layer.rs`).

The mutable iterator is modelled on the bottom level of the skip list: the nodes before the
insertion point, the insertion chain that `commit` splices in, and the nodes from the iterator's
position on.
-/
namespace Smos.Fxfs.Lsm

open Lib.Spans List

variable {K V : Type}

structure SkipListLayerIterMut (K V : Type) where
  /-- The nodes before the insertion point, or before the position if there is none yet. -/
  before : List (Item K V)
  /-- Whether there is an insertion point. -/
  insertionPoint : Bool
  /-- The chain of nodes inserted since. -/
  insertionNodes : List (Item K V)
  /-- The nodes from the position on. -/
  next : List (Item K V)
  deriving DecidableEq, Repr

namespace SkipListLayerIterMut

def new [LayerKey K] (items : List (Item K V)) (bound : Bound K) : SkipListLayerIterMut K V where
  before := items.takeWhile fun item => bound.isBefore item.key
  insertionPoint := false
  insertionNodes := []
  next := items.dropWhile fun item => bound.isBefore item.key

def get (it : SkipListLayerIterMut K V) : Option (Item K V) := it.next.head?

def insert (it : SkipListLayerIterMut K V) (item : Item K V) : SkipListLayerIterMut K V :=
  { it with insertionPoint := true, insertionNodes := it.insertionNodes ++ [item] }

def erase (it : SkipListLayerIterMut K V) : SkipListLayerIterMut K V :=
  match it.next with
  | [] => it
  | _ :: rest => { it with insertionPoint := true, next := rest }

/-- Past an insertion point, the current item is copied into the insertion chain. -/
def advance (it : SkipListLayerIterMut K V) : SkipListLayerIterMut K V :=
  if it.insertionPoint then
    match it.get with
    | none => it
    | some item => (it.insert item).erase
  else
    match it.next with
    | [] => it
    | item :: rest => { it with before := it.before ++ [item], next := rest }

def commit (it : SkipListLayerIterMut K V) : List (Item K V) :=
  if it.insertionPoint then it.before ++ it.insertionNodes ++ it.next else it.before ++ it.next

end SkipListLayerIterMut

structure MutMergeLayerIterator (K V : Type) where
  iter : SkipListLayerIterMut K V
  item : MergeItem K V
  deriving DecidableEq, Repr

namespace MutMergeLayerIterator

def current (m : MutMergeLayerIterator K V) : Option (Item K V) :=
  match m.item with
  | .none => none
  | .item item => some item
  | .iter => m.iter.get

def setItemFromIter (m : MutMergeLayerIterator K V) : MutMergeLayerIterator K V :=
  { m with item := if m.iter.get.isSome then .iter else .none }

def insert (m : MutMergeLayerIterator K V) (item : Item K V) : MutMergeLayerIterator K V :=
  { m with iter := m.iter.insert item }

def advance (m : MutMergeLayerIterator K V) : MutMergeLayerIterator K V :=
  match m.item with
  | .iter => setItemFromIter { m with iter := m.iter.advance }
  | _ => m.setItemFromIter

/-- Emits the current item: a pending one is inserted, one of the layer is passed over. -/
def emit (m : MutMergeLayerIterator K V) : MutMergeLayerIterator K V :=
  match m.item with
  | .item item => (MutMergeLayerIterator.insert { m with item := .none } item).setItemFromIter
  | _ => m.advance

def eraseCurrent (m : MutMergeLayerIterator K V) : MutMergeLayerIterator K V :=
  match m.item with
  | .iter => { m with iter := m.iter.erase }
  | _ => m

def applyOp (m : MutMergeLayerIterator K V) (op : ItemOp (Item K V)) :
    MutMergeLayerIterator K V :=
  match op with
  | .keep => m
  | .discard => m.eraseCurrent.setItemFromIter
  | .replace item => { m.eraseCurrent with item := .item item }

end MutMergeLayerIterator

section MergeInto

variable [LayerKey K]

/-- The loop of `merge_into`: the iterator of the mutable layer has layer index 1 and the item to
be merged, if any of it is left, layer index 0. -/
def mergeIntoLoop (mergeFn : MergeFn K V) : ℕ → MutMergeLayerIterator K V → Option (Item K V) →
    Option (MutMergeLayerIterator K V × Option (Item K V))
  | 0, _, _ => none
  | fuel + 1, m, item =>
    match m.current, item with
    | some x, some y =>
      if cmpLowerBound x.key y.key = .lt then
        match mergeFn ⟨x, 1⟩ ⟨y, 0⟩ with
        | .emitLeft => mergeIntoLoop mergeFn fuel m.emit item
        | .other emit left right =>
          let m := (emit.elim m m.insert).applyOp left
          mergeIntoLoop mergeFn fuel m (right.apply y)
      else
        match mergeFn ⟨y, 0⟩ ⟨x, 1⟩ with
        | .emitLeft => some (m, item)
        | .other emit left right =>
          let m := (emit.elim m m.insert).applyOp right
          mergeIntoLoop mergeFn fuel m (left.apply y)
    | _, _ => some (m, item)

def mergeInto (mergeFn : MergeFn K V) (fuel : ℕ) (items : List (Item K V)) (item : Item K V)
    (lowerBound : K) : Option (List (Item K V)) := do
  let iter := SkipListLayerIterMut.new items (.included lowerBound)
  let m : MutMergeLayerIterator K V := ⟨iter, if iter.get.isSome then .iter else .none⟩
  let (m, item) ← mergeIntoLoop mergeFn fuel m (some item)
  let m := item.elim m m.insert
  let m := match m.item with
    | .item item => m.insert item
    | _ => m
  return m.iter.commit

end MergeInto

/-- What the iterator of the mutable layer has behind it and in front of it. -/
structure MutMergeLayerIterator.Shows (m : MutMergeLayerIterator K V)
    (done rest : List (Item K V)) : Prop where
  done_eq : m.iter.before ++ m.iter.insertionNodes = done
  rest_eq : (match m.item with
    | .none => []
    | .item item => item :: m.iter.next
    | .iter => m.iter.next) = rest
  chain : m.iter.insertionPoint = false → m.iter.insertionNodes = []
  item_none : m.item = .none → m.iter.next = []
  item_iter : m.item = .iter → m.iter.next ≠ []

namespace MutMergeLayerIterator.Shows

variable {m : MutMergeLayerIterator K V} {done rest : List (Item K V)} {x : Item K V}

/-- The position of the iterator decides whether it has an item. -/
private theorem of_setItemFromIter (hdone : m.iter.before ++ m.iter.insertionNodes = done)
    (hrest : m.iter.next = rest) (hchain : m.iter.insertionPoint = false →
      m.iter.insertionNodes = []) : m.setItemFromIter.Shows done rest := by
  subst hrest
  unfold setItemFromIter SkipListLayerIterMut.get
  cases h : m.iter.next with
  | nil => exact ⟨hdone, by simp, hchain, fun _ => h, by simp⟩
  | cons x l => exact ⟨hdone, by simp [h], hchain, by simp, by simp [h]⟩

theorem current_eq (h : m.Shows done rest) : m.current = rest.head? := by
  obtain ⟨-, rfl, -, -, -⟩ := h
  unfold current SkipListLayerIterMut.get
  cases m.item <;> rfl

theorem insert (h : m.Shows done rest) (x : Item K V) : (m.insert x).Shows (done ++ [x]) rest := by
  obtain ⟨rfl, rfl, -, hnone, hiter⟩ := h
  refine ⟨?_, rfl, ?_, hnone, hiter⟩
  all_goals simp [MutMergeLayerIterator.insert, SkipListLayerIterMut.insert]

/-- Emitting an item moves it behind the iterator. -/
theorem emit (h : m.Shows done (x :: rest)) : m.emit.Shows (done ++ [x]) rest := by
  obtain ⟨rfl, hrest, hchain, -, -⟩ := h
  unfold MutMergeLayerIterator.emit MutMergeLayerIterator.advance
  cases hitem : m.item with
  | none => simp [hitem] at hrest
  | item y =>
    simp only [hitem, cons.injEq] at hrest
    apply of_setItemFromIter
    · simp [MutMergeLayerIterator.insert, SkipListLayerIterMut.insert, hrest.1]
    · exact hrest.2
    · simp [MutMergeLayerIterator.insert, SkipListLayerIterMut.insert]
  | iter =>
    simp only [hitem] at hrest
    cases hpoint : m.iter.insertionPoint with
    | false =>
      have hnil := hchain hpoint
      apply of_setItemFromIter
      · simp [SkipListLayerIterMut.advance, hpoint, hrest, hnil]
      · simp [SkipListLayerIterMut.advance, hpoint, hrest]
      · simp [SkipListLayerIterMut.advance, hpoint, hrest, hnil]
    | true =>
      have hadv : m.iter.advance = (m.iter.insert x).erase := by
        simp [SkipListLayerIterMut.advance, hpoint, SkipListLayerIterMut.get, hrest]
      apply of_setItemFromIter
      all_goals simp [hadv, SkipListLayerIterMut.insert, SkipListLayerIterMut.erase, hrest]

private theorem eraseCurrent_eq (h : m.Shows done (x :: rest)) :
    m.eraseCurrent.iter.before ++ m.eraseCurrent.iter.insertionNodes = done ∧
      m.eraseCurrent.iter.next = rest ∧
      (m.eraseCurrent.iter.insertionPoint = false →
        m.eraseCurrent.iter.insertionNodes = []) := by
  obtain ⟨rfl, hrest, hchain, -, -⟩ := h
  unfold eraseCurrent
  cases hitem : m.item with
  | none => simp [hitem] at hrest
  | item y =>
    simp only [hitem, cons.injEq] at hrest
    exact ⟨rfl, hrest.2, hchain⟩
  | iter =>
    simp only [hitem] at hrest
    simp [SkipListLayerIterMut.erase, hrest]

/-- An operation on the current item leaves what the operation leaves of it in front. -/
theorem applyOp (h : m.Shows done (x :: rest)) (op : ItemOp (Item K V)) :
    (m.applyOp op).Shows done ((op.apply x).toList ++ rest) := by
  obtain ⟨hdone, hrest, hchain⟩ := h.eraseCurrent_eq
  cases op with
  | keep => exact h
  | discard => exact of_setItemFromIter hdone hrest hchain
  | replace y =>
    refine ⟨hdone, ?_, hchain, by simp [MutMergeLayerIterator.applyOp],
      by simp [MutMergeLayerIterator.applyOp]⟩
    simp [MutMergeLayerIterator.applyOp, ItemOp.apply, hrest]

/-- Whatever is left in front when the loop ends stays in the layer. -/
theorem commit_eq (h : m.Shows done rest) :
    (match m.item with
      | .item item => m.insert item
      | _ => m).iter.commit = done ++ rest := by
  obtain ⟨rfl, rfl, hchain, hnone, -⟩ := h
  have hsplit : m.iter.commit = m.iter.before ++ m.iter.insertionNodes ++ m.iter.next := by
    unfold SkipListLayerIterMut.commit
    cases hpoint : m.iter.insertionPoint with
    | false => simp [hchain hpoint]
    | true => simp
  cases hitem : m.item with
  | none => simp [hsplit, hnone hitem]
  | item y =>
    simp [MutMergeLayerIterator.insert, SkipListLayerIterMut.insert,
      SkipListLayerIterMut.commit]
  | iter => exact hsplit

end MutMergeLayerIterator.Shows

section Family

variable {f g : MergeFn K V} {A B : Item K V → Prop}

/-- Items of a family are merged with each other only, into items of the family. -/
structure StaysIn (f : MergeFn K V) (A : Item K V → Prop) : Prop where
  apart : ∀ left right : LayerItem K V, ¬ (A left.toItem ↔ A right.toItem) →
    f left right = .emitLeft
  within : ∀ (left right : LayerItem K V) (emit : Option (Item K V)) (l r : ItemOp (Item K V)),
    A left.toItem → f left right = .other emit l r →
      ∀ z, emit = some z ∨ l = .replace z ∨ r = .replace z → A z

/-- Only items of the family are merged with items of the family. -/
theorem StaysIn.iff_of_other (h : StaysIn f A) {left right : LayerItem K V}
    {emit : Option (Item K V)} {l r : ItemOp (Item K V)} (hres : f left right = .other emit l r) :
    A left.toItem ↔ A right.toItem := by
  by_contra hne
  rw [h.apart left right hne] at hres
  cases hres

/-- What an operation leaves of an item is the item or what replaces it. -/
private theorem forall_mem_apply {x : Item K V} {op : ItemOp (Item K V)} (hx : B x)
    (hop : ∀ z, op = .replace z → B z) : ∀ z ∈ op.apply x, B z := by
  intro z hz
  rcases ItemOp.eq_or_replace_of_mem_apply hz with rfl | hz
  · exact hx
  · exact hop z hz

variable {m : MutMergeLayerIterator K V} {item : Option (Item K V)}
  {done rest : List (Item K V)}

private theorem MutMergeLayerIterator.Shows.insert_emit (hm : m.Shows done rest)
    (emit : Option (Item K V)) : (emit.elim m m.insert).Shows (done ++ emit.toList) rest := by
  cases emit with
  | none => simpa using hm
  | some e => exact hm.insert e

private theorem forall_mem_front {x : Item K V} {o : Option (Item K V)}
    (hrest : ∀ z ∈ x :: rest, B z) (ho : ∀ z ∈ o, B z) : ∀ z ∈ o.toList ++ rest, B z :=
  forall_mem_append.mpr
    ⟨fun z hz => ho z (Option.mem_toList.mp hz), (forall_mem_cons.mp hrest).2⟩

variable [LayerKey K]

/-- The loop on lists: what is done, what is left of the item and what is in front make the layer
in the end. -/
def mergeLists (mergeFn : MergeFn K V) : ℕ → List (Item K V) → Option (Item K V) →
    List (Item K V) → Option (List (Item K V))
  | 0, _, _, _ => none
  | fuel + 1, done, some y, x :: rest =>
    if cmpLowerBound x.key y.key = .lt then
      match mergeFn ⟨x, 1⟩ ⟨y, 0⟩ with
      | .emitLeft => mergeLists mergeFn fuel (done ++ [x]) (some y) rest
      | .other emit left right =>
        mergeLists mergeFn fuel (done ++ emit.toList) (right.apply y)
          ((left.apply x).toList ++ rest)
    else
      match mergeFn ⟨y, 0⟩ ⟨x, 1⟩ with
      | .emitLeft => some (done ++ y :: x :: rest)
      | .other emit left right =>
        mergeLists mergeFn fuel (done ++ emit.toList) (left.apply y)
          ((right.apply x).toList ++ rest)
  | _ + 1, done, item, rest => some (done ++ (item.toList ++ rest))

/-- The layer that the loop leaves is the one of the loop on lists. -/
private theorem mergeIntoLoop_eq (f : MergeFn K V) (fuel : ℕ) (hm : m.Shows done rest) :
    ((mergeIntoLoop f fuel m item).map fun (m, item) =>
      (match (item.elim m m.insert).item with
        | .item item' => (item.elim m m.insert).insert item'
        | _ => item.elim m m.insert).iter.commit) = mergeLists f fuel done item rest := by
  induction fuel generalizing m item done rest with
  | zero => rfl
  | succ fuel ih =>
    have hcur := hm.current_eq
    have hstop := (hm.insert_emit item).commit_eq
    rw [append_assoc] at hstop
    cases rest with
    | nil =>
      simp only [mergeIntoLoop, hcur, head?_nil]
      cases item <;> exact congrArg some hstop
    | cons x rest =>
      simp only [mergeIntoLoop, hcur, head?_cons]
      cases item with
      | none => exact congrArg some hstop
      | some y =>
        simp only [mergeLists]
        split
        · cases f ⟨x, 1⟩ ⟨y, 0⟩ with
          | emitLeft => exact ih hm.emit
          | other emit left right => exact ih ((hm.insert_emit emit).applyOp left)
        · cases f ⟨y, 0⟩ ⟨x, 1⟩ with
          | emitLeft => exact congrArg some hstop
          | other emit left right => exact ih ((hm.insert_emit emit).applyOp right)

/-- The layer before the bound, the item and the layer from the bound on are merged. -/
theorem mergeInto_eq (f : MergeFn K V) (fuel : ℕ) (items : List (Item K V)) (item : Item K V)
    (lowerBound : K) : mergeInto f fuel items item lowerBound =
      mergeLists f fuel (items.takeWhile fun x => (Bound.included lowerBound).isBefore x.key)
        (some item) (items.dropWhile fun x => (Bound.included lowerBound).isBefore x.key) := by
  refine Eq.trans ?_ (mergeIntoLoop_eq f fuel (MutMergeLayerIterator.Shows.of_setItemFromIter
    (m := ⟨.new items (.included lowerBound), .none⟩) (append_nil _) rfl fun _ => rfl))
  rw [Option.map_eq_bind]
  rfl

/-- Functions that agree about the family and the items in front have the same effect. -/
private theorem mergeLists_congr (hg : StaysIn g A) (hAB : ∀ z, A z → B z)
    (hright : ∀ x y, B x → A y → f ⟨x, 1⟩ ⟨y, 0⟩ = g ⟨x, 1⟩ ⟨y, 0⟩)
    (hleft : ∀ x y, B x → A y → f ⟨y, 0⟩ ⟨x, 1⟩ = g ⟨y, 0⟩ ⟨x, 1⟩) (fuel : ℕ)
    (hitem : ∀ y ∈ item, A y) (hrest : ∀ x ∈ rest, B x) :
    mergeLists f fuel done item rest = mergeLists g fuel done item rest := by
  fun_induction mergeLists g fuel done item rest with
  | case1 => rfl
  | case2 fuel done y x rest hlt hres ih =>
    rw [mergeLists, if_pos hlt, hright x y (hrest x mem_cons_self) (hitem y rfl), hres]
    exact ih hitem fun z hz => hrest z (mem_cons_of_mem x hz)
  | case3 fuel done y x rest hlt emit left right hres ih =>
    have hAy := hitem y rfl
    have hBx := hrest x mem_cons_self
    have hA := hg.within _ _ emit left right ((hg.iff_of_other hres).mpr hAy) hres
    rw [mergeLists, if_pos hlt, hright x y hBx hAy, hres]
    refine ih (forall_mem_apply hAy fun z h => hA z (.inr (.inr h))) (forall_mem_front hrest ?_)
    exact forall_mem_apply hBx fun z h => hAB z (hA z (.inr (.inl h)))
  | case4 fuel done y x rest hlt hres =>
    rw [mergeLists, if_neg hlt, hleft x y (hrest x mem_cons_self) (hitem y rfl), hres]
  | case5 fuel done y x rest hlt emit left right hres ih =>
    have hAy := hitem y rfl
    have hBx := hrest x mem_cons_self
    have hA := hg.within _ _ emit left right hAy hres
    rw [mergeLists, if_neg hlt, hleft x y hBx hAy, hres]
    refine ih (forall_mem_apply hAy fun z h => hA z (.inr (.inl h))) (forall_mem_front hrest ?_)
    exact forall_mem_apply hBx fun z h => hAB z (hA z (.inr (.inr h)))
  | case6 fuel done item rest hno =>
    rw [mergeLists]
    exact hno

/-- The items outside the family stay as they are. -/
private theorem mergeLists_frame [DecidablePred A] (hf : StaysIn f A) {fuel : ℕ}
    {out : List (Item K V)} (hitem : ∀ y ∈ item, A y)
    (hrun : mergeLists f fuel done item rest = some out) :
    out.filter (fun x => ¬ A x) = (done ++ rest).filter (fun x => ¬ A x) := by
  have hnone : ∀ o : Option (Item K V), (∀ z ∈ o, A z) →
      o.toList.filter (fun x => ¬ A x) = [] := fun o ho => by
    simpa [filter_eq_nil_iff] using ho
  have hmerged : ∀ {done x rest} {emit : Option (Item K V)} {op : ItemOp (Item K V)}, A x →
      (∀ z, emit = some z ∨ op = .replace z → A z) →
      ((done ++ emit.toList) ++ ((op.apply x).toList ++ rest)).filter (fun x => ¬ A x) =
        (done ++ x :: rest).filter (fun x => ¬ A x) := by
    intro done x rest emit op hAx hA
    simp only [filter_append, hnone emit fun z h => hA z (.inl h),
      hnone _ (forall_mem_apply hAx fun z h => hA z (.inr h)), nil_append,
      append_nil, filter_cons, hAx, not_true_eq_false, decide_false,
      Bool.false_eq_true, if_false]
  fun_induction mergeLists f fuel done item rest with
  | case1 => cases hrun
  | case2 fuel done y x rest hlt hres ih => exact (ih hitem hrun).trans (by simp)
  | case3 fuel done y x rest hlt emit left right hres ih =>
    have hAx := (hf.iff_of_other hres).mpr (hitem y rfl)
    have hA := hf.within _ _ emit left right hAx hres
    exact (ih (forall_mem_apply (hitem y rfl) fun z h => hA z (.inr (.inr h))) hrun).trans
      (hmerged hAx fun z hz => hA z (hz.imp id .inl))
  | case4 fuel done y x rest =>
    cases hrun
    simp [hitem y rfl]
  | case5 fuel done y x rest hlt emit left right hres ih =>
    have hA := hf.within _ _ emit left right (hitem y rfl) hres
    exact (ih (forall_mem_apply (hitem y rfl) fun z h => hA z (.inr (.inl h))) hrun).trans
      (hmerged ((hf.iff_of_other hres).mp (hitem y rfl)) fun z hz => hA z (hz.imp id .inr))
  | case6 fuel done item rest =>
    cases hrun
    rw [filter_append, filter_append, hnone item hitem, nil_append,
      ← filter_append]

end Family

section Spec

variable {P M Q : Type} [LinearOrder P] [Monoid M] [LinearOrder Q] {S : Span (Item K V) P M}
  {rank : K → Q} {mergeFn : MergeFn K V} {fuel : ℕ} {item : Option (Item K V)}
  {items : List (Item K V)} {lowerBound : K}

/-- The invariant of the loop: what is done, the item and what is in front together mean what the
item over the layer means. -/
structure MergeIntoInv (S : Span (Item K V) P M) (meaning : P → M) (done : List (Item K V))
    (item : Option (Item K V)) (rest : List (Item K V)) : Prop where
  done_layer : IsLayer S done
  item_layer : IsLayer S item.toList
  rest_layer : IsLayer S rest
  done_le : ∀ d ∈ done, ∀ z, z ∈ item ∨ z ∈ rest → S.hi d ≤ S.lo z
  den : ∀ p, listDen S done p * (optDen S item p * listDen S rest p) = meaning p

variable {meaning : P → M} {done rest : List (Item K V)} {x y : Item K V}

/-- Appending an emitted item to what is done. -/
private theorem MergeIntoInv.emit {item' : Option (Item K V)} {rest' : List (Item K V)}
    {q : P} (h : MergeIntoInv S meaning done item rest) (emit : Option (Item K V))
    (hq : ∀ d ∈ done, S.hi d ≤ q)
    (hemit : ∀ e ∈ emit, S.Ok e ∧ q ≤ S.lo e ∧ ∀ z, z ∈ item' ∨ z ∈ rest' → S.hi e ≤ S.lo z)
    (hitem : IsLayer S item'.toList) (hrest : IsLayer S rest')
    (hlo : ∀ z, z ∈ item' ∨ z ∈ rest' → q ≤ S.lo z)
    (hden : ∀ p, optDen S emit p * (optDen S item' p * listDen S rest' p) =
      optDen S item p * listDen S rest p) :
    MergeIntoInv S meaning (done ++ emit.toList) item' rest' := by
  refine ⟨?_, hitem, hrest, ?_, ?_⟩
  · cases emit with
    | none => simpa using h.done_layer
    | some e =>
      obtain ⟨hok, hle, -⟩ := hemit e rfl
      refine h.done_layer.append (IsLayer.cons hok IsLayer.nil (by simp)) ?_
      intro d hd z hz
      obtain rfl : z = e := by simpa using hz
      exact (hq d hd).trans hle
  · intro d hd z hz
    rcases mem_append.mp hd with hd | hd
    · exact (hq d hd).trans (hlo z hz)
    · exact (hemit d (Option.mem_toList.mp hd)).2.2 z hz
  · intro p
    rw [listDen_append, mul_assoc]
    change listDen S done p * (optDen S emit p * _) = _
    rw [hden p, h.den p]

section

variable (h : MergeIntoInv S meaning done (some y) (x :: rest)) {emit l r : Option (Item K V)}
include h

/-- Merging with the item of the mutable layer as the lower one. -/
private theorem MergeIntoInv.merge_right
    (hs : MergeSound S 1 x 0 y emit l r) (hle : S.lo x ≤ S.lo y) :
    MergeIntoInv S meaning (done ++ emit.toList) r (l.toList ++ rest) := by
  have hlx := h.rest_layer
  have hly : IsLayer S [y] := h.item_layer
  have hlo : ∀ z, z ∈ r ∨ z ∈ l.toList ++ rest →
      S.lo x ≤ S.lo z ∧ ∀ e ∈ emit, S.hi e ≤ S.lo z := fun z hz =>
    hs.lo_le hlx hly hle (hz.symm.imp_right fun hz => by simpa using hz)
  refine h.emit (q := S.lo x) emit (fun d hd => h.done_le d hd x (.inr mem_cons_self))
    (fun e he => ?_) ?_ (hs.left_layer hlx) (fun z hz => (hlo z hz).1) fun p => ?_
  · obtain ⟨hok, hxe, -⟩ := hs.emit_ok e he
    exact ⟨hok, hxe, fun z hz => (hlo z hz).2 e he⟩
  · simpa using hs.right_layer hly
  · simpa [optDen] using pairDen_merge_right hs hlx hly p

/-- Merging with the item that is being merged in as the lower one. -/
private theorem MergeIntoInv.merge_left
    (hs : MergeSound S 0 y 1 x emit l r) (hle : S.lo y ≤ S.lo x) :
    MergeIntoInv S meaning (done ++ emit.toList) l (r.toList ++ rest) := by
  have hlx := h.rest_layer
  have hly : IsLayer S [y] := h.item_layer
  have hlo : ∀ z, z ∈ l ∨ z ∈ r.toList ++ rest →
      S.lo y ≤ S.lo z ∧ ∀ e ∈ emit, S.hi e ≤ S.lo z := fun z hz =>
    hs.lo_le hly hlx hle (hz.imp_left fun hz => by simpa using hz)
  refine h.emit (q := S.lo y) emit (fun d hd => h.done_le d hd y (.inl rfl)) (fun e he => ?_) ?_
    (hs.right_layer hlx) (fun z hz => (hlo z hz).1) fun p => ?_
  · obtain ⟨hok, hye, -⟩ := hs.emit_ok e he
    exact ⟨hok, hye, fun z hz => (hlo z hz).2 e he⟩
  · simpa using hs.left_layer hly
  · simpa [optDen] using pairDen_merge_left hs hly hlx p

/-- Passing over the lower item of the mutable layer. -/
private theorem MergeIntoInv.pass
    (hle : S.hi x ≤ S.lo y) : MergeIntoInv S meaning (done ++ [x]) (some y) rest := by
  have hlx := h.rest_layer
  refine h.emit (q := S.lo x) (some x)
    (fun d hd => h.done_le d hd x (.inr mem_cons_self)) ?_ h.item_layer hlx.tail ?_ ?_
  · intro e he
    cases he
    refine ⟨hlx.head_ok, le_rfl, ?_⟩
    rintro z (hz | hz)
    · cases hz
      exact hle
    · exact hlx.hi_le z hz
  · rintro z (hz | hz)
    · cases hz
      exact (S.lo_lt_hi x hlx.head_ok).le.trans hle
    · exact hlx.lo_le z (mem_cons_of_mem x hz)
  · intro p
    simp only [optDen_some, listDen_cons]
    rcases lt_or_ge p (S.hi x) with hp | hp
    · rw [S.den_before y p (hp.trans_le hle), one_mul, one_mul]
    · rw [S.den_after x p hp, one_mul, one_mul]

end

/-- The layer that is left when the item is entirely before what is in front. -/
private theorem MergeIntoInv.layer
    (h : MergeIntoInv S meaning done item rest)
    (hlast : ∀ i ∈ item, ∀ z ∈ rest, S.hi i ≤ S.lo z) :
    IsLayer S (done ++ (item.toList ++ rest)) ∧
      ∀ p, listDen S (done ++ (item.toList ++ rest)) p = meaning p := by
  refine ⟨h.done_layer.append (h.item_layer.append h.rest_layer ?_) ?_, fun p => ?_⟩
  · intro i hi z hz
    exact hlast i (Option.mem_toList.mp hi) z hz
  · intro d hd z hz
    exact h.done_le d hd z ((mem_append.mp hz).imp_left Option.mem_toList.mp)
  · rw [listDen_append, listDen_append]
    exact h.den p

variable [LayerKey K]

/-- The loop ends with a layer of the meaning. -/
theorem mergeLists_spec (laws : MergeLaws S rank mergeFn)
    (h : MergeIntoInv S meaning done item rest)
    (hfuel : (item.toList.map S.weight).sum + (rest.map S.weight).sum < fuel) :
    ∃ out, mergeLists mergeFn fuel done item rest = some out ∧ IsLayer S out ∧
      ∀ p, listDen S out p = meaning p := by
  have hcmp : ∀ {x y : Item K V}, cmpLowerBound x.key y.key = .lt ↔ rank x.key < rank y.key := by
    intro x y
    rw [laws.cmp_eq, compare_lt_iff_lt]
  have hprec : ∀ {x y : Item K V}, ¬cmpLowerBound x.key y.key = .lt →
      rank y.key ≤ rank x.key ∧ Precedes rank (⟨y, 0⟩ : LayerItem K V) ⟨x, 1⟩ := by
    intro x y hno
    have hle := not_lt.mp (hcmp.not.mp hno)
    exact ⟨hle, (lt_or_eq_of_le hle).imp_right fun heq => ⟨heq, Nat.zero_lt_one⟩⟩
  fun_induction mergeLists mergeFn fuel done item rest with
  | case1 => omega
  | case2 fuel done y x rest hlt hres ih =>
    have hle := laws.emitLeft ⟨x, 1⟩ ⟨y, 0⟩ h.rest_layer.head_ok (h.item_layer.ok y (by simp))
      (.inl (hcmp.mp hlt)) (by simp) hres
    have hpos := S.weight_pos x
    refine ih (h.pass hle) ?_
    rw [map_cons, sum_cons] at hfuel
    omega
  | case3 fuel done y x rest hlt emit left right hres ih =>
    have hs : MergeSound S 1 x 0 y emit (left.apply x) (right.apply y) :=
      laws.other ⟨x, 1⟩ ⟨y, 0⟩ _ _ _ h.rest_layer.head_ok (h.item_layer.ok y (by simp))
        (.inl (hcmp.mp hlt)) (by simp) hres
    have hshrink := hs.shrinks
    refine ih (h.merge_right hs (laws.lo_le _ _ (hcmp.mp hlt).le)) ?_
    simp only [Option.toList_some, map_append, sum_append, map_cons, map_nil,
      sum_cons, sum_nil] at hfuel ⊢
    omega
  | case4 fuel done y x rest hno hres =>
    have hle := laws.emitLeft ⟨y, 0⟩ ⟨x, 1⟩ (h.item_layer.ok y (by simp)) h.rest_layer.head_ok
      (hprec hno).2 (by simp) hres
    refine ⟨_, rfl, h.layer fun i hi z hz => ?_⟩
    cases hi
    exact hle.trans (h.rest_layer.lo_le z hz)
  | case5 fuel done y x rest hno emit left right hres ih =>
    have hs : MergeSound S 0 y 1 x emit (left.apply y) (right.apply x) :=
      laws.other ⟨y, 0⟩ ⟨x, 1⟩ _ _ _ (h.item_layer.ok y (by simp)) h.rest_layer.head_ok
        (hprec hno).2 (by simp) hres
    have hshrink := hs.shrinks
    refine ih (h.merge_left hs (laws.lo_le _ _ (hprec hno).1)) ?_
    simp only [Option.toList_some, map_append, sum_append, map_cons, map_nil,
      sum_cons, sum_nil] at hfuel ⊢
    omega
  | case6 fuel done item rest hno =>
    refine ⟨_, rfl, h.layer fun i hi z hz => ?_⟩
    obtain ⟨x, l, rfl⟩ := exists_cons_of_ne_nil (ne_nil_of_mem hz)
    exact absurd hi (hno i x l · rfl)

/-- Merge functions that agree from the lower bound on have the same effect. -/
theorem mergeInto_congr {f g : MergeFn K V} {A B : Item K V → Prop} (hg : StaysIn g A)
    (hAB : ∀ z, A z → B z) (hright : ∀ x y, B x → A y → f ⟨x, 1⟩ ⟨y, 0⟩ = g ⟨x, 1⟩ ⟨y, 0⟩)
    (hleft : ∀ x y, B x → A y → f ⟨y, 0⟩ ⟨x, 1⟩ = g ⟨y, 0⟩ ⟨x, 1⟩)
    (fuel : ℕ) {item : Item K V} (hitem : A item)
    (hnext : ∀ x ∈ items.dropWhile fun x => (Bound.included lowerBound).isBefore x.key, B x) :
    mergeInto f fuel items item lowerBound = mergeInto g fuel items item lowerBound := by
  rw [mergeInto_eq, mergeInto_eq]
  exact mergeLists_congr hg hAB hright hleft fuel (by simpa using hitem) hnext

/-- Merging an item of a family into a layer changes nothing outside the family. -/
theorem mergeInto_frame {f : MergeFn K V} {A : Item K V → Prop} [DecidablePred A]
    (hf : StaysIn f A) {out : List (Item K V)} {item : Item K V} (hitem : A item)
    (h : mergeInto f fuel items item lowerBound = some out) :
    out.filter (fun x => ¬ A x) = items.filter (fun x => ¬ A x) := by
  rw [mergeInto_eq] at h
  rw [mergeLists_frame hf (by simpa using hitem) h, takeWhile_append_dropWhile]

/-- Merging an item into a layer gives a layer that means the item over the layer. -/
theorem mergeInto_spec (laws : MergeLaws S rank mergeFn)
    {item : Item K V} (hlayer : IsLayer S items) (hok : S.Ok item)
    (hbound : ∀ x ∈ items, cmpUpperBound x.key lowerBound = .lt → S.hi x ≤ S.lo item)
    (hfuel : S.weight item + (items.map S.weight).sum < fuel) :
    ∃ out, mergeInto mergeFn fuel items item lowerBound = some out ∧ IsLayer S out ∧
      ∀ p, listDen S out p = S.den item p * listDen S items p := by
  let before := items.takeWhile fun x => (Bound.included lowerBound).isBefore x.key
  let next := items.dropWhile fun x => (Bound.included lowerBound).isBefore x.key
  have hsplit : before ++ next = items := takeWhile_append_dropWhile
  obtain ⟨hbl, hnl, hbn⟩ := (hsplit ▸ hlayer : IsLayer S (before ++ next)).of_append
  have hitem : ∀ d ∈ before, S.hi d ≤ S.lo item := by
    intro d hd
    have hlt := mem_takeWhile_imp hd
    refine hbound d (hsplit ▸ mem_append_left next hd) ?_
    simpa [Bound.isBefore] using hlt
  have hinv : MergeIntoInv S (fun p => S.den item p * listDen S items p) before (some item)
      next := by
    refine ⟨hbl, IsLayer.cons hok IsLayer.nil (by simp), hnl, ?_, ?_⟩
    · rintro d hd z (hz | hz)
      · cases hz
        exact hitem d hd
      · exact hbn d hd z hz
    · intro p
      rw [optDen_some, ← hsplit, listDen_append, ← mul_assoc, ← mul_assoc]
      rcases lt_or_ge p (S.lo item) with hp | hp
      · rw [S.den_before item p hp, mul_one, one_mul]
      · rw [listDen_eq_one S fun x hx => S.den_after x p ((hitem x hx).trans hp), one_mul, mul_one]
  have hweight : (next.map S.weight).sum ≤ (items.map S.weight).sum := by
    rw [← hsplit, map_append, sum_append]
    omega
  rw [mergeInto_eq]
  refine mergeLists_spec laws hinv ?_
  change S.weight item + 0 + (next.map S.weight).sum < fuel
  omega

end Spec

end Smos.Fxfs.Lsm
