import Smos.Fxfs.ExtentRecord
import Smos.Fxfs.LsmTypes
import Mathlib.Data.List.Lex
import Mathlib.Data.Prod.Lex

/-!
Object records (`object_store/object_record.rs`): the keys of the object store with their orders,
and the values as far as merging looks at them.

A key belongs to a stream and covers a range of positions in it.  The extents of one attribute form
a stream of logical offsets; every other key is a stream of its own with the single position 0.
Both orders of the keys compare the streams first.
-/
namespace Smos.Fxfs

open Fxfs.Lsm

inductive ProjectProperty where
  | limit
  | usage
  deriving DecidableEq, Repr

inductive AttributeKey where
  | attribute
  | extent (key : ExtentKey)
  deriving DecidableEq, Repr

/-- The data of an object key.  Names are the sequences that their order compares: bytes, and for
casefolded names the folded and normalised characters. -/
inductive ObjectKeyData where
  | object
  | keys
  | attribute (attributeId : ℕ) (key : AttributeKey)
  | child (name : List ℕ)
  | graveyardEntry (objectId : ℕ)
  | project (projectId : ℕ) (property : ProjectProperty)
  | extendedAttribute (name : List ℕ)
  | graveyardAttributeEntry (objectId attributeId : ℕ)
  | encryptedChild (casefoldHash : ℕ) (name : List ℕ)
  | casefoldChild (name : List ℕ)
  deriving DecidableEq, Repr

structure ObjectKey where
  objectId : ℕ
  data : ObjectKeyData
  deriving DecidableEq, Repr

/-- The values of the object store; `D` stands for what values hold that merging never reads. -/
inductive ObjectValue (D : Type) where
  | none
  | some
  | object (data : D)
  | keys (data : D)
  | attribute (data : D)
  | extent (value : ExtentValue)
  | child (data : D)
  | trim
  | bytesAndNodes (bytes nodes : Int64)
  | extendedAttribute (data : D)
  | verifiedAttribute (data : D)
  deriving DecidableEq

def ObjectKey.extent (objectId attributeId : ℕ) (range : Range) : ObjectKey :=
  ⟨objectId, .attribute attributeId (.extent ⟨range⟩)⟩

def ProjectProperty.index : ProjectProperty → ℕ
  | .limit => 0
  | .usage => 1

def AttributeKey.index : AttributeKey → ℕ
  | .attribute => 0
  | .extent _ => 1

def ObjectKeyData.index : ObjectKeyData → ℕ
  | .object => 0
  | .keys => 1
  | .attribute .. => 2
  | .child .. => 3
  | .graveyardEntry .. => 4
  | .project .. => 5
  | .extendedAttribute .. => 6
  | .graveyardAttributeEntry .. => 7
  | .encryptedChild .. => 8
  | .casefoldChild .. => 9

def AttributeKey.cmp (a b : AttributeKey) : Ordering :=
  (compare a.index b.index).then <| match a, b with
    | .extent x, .extent y => x.cmp y
    | _, _ => .eq

def cmpName (a b : List ℕ) : Ordering := if a < b then .lt else if a = b then .eq else .gt

def ObjectKeyData.cmp (a b : ObjectKeyData) : Ordering :=
  (compare a.index b.index).then <| match a, b with
    | .attribute i x, .attribute j y => (compare i j).then (x.cmp y)
    | .child m, .child n => cmpName m n
    | .graveyardEntry i, .graveyardEntry j => compare i j
    | .project i x, .project j y => (compare i j).then (compare x.index y.index)
    | .extendedAttribute m, .extendedAttribute n => cmpName m n
    | .graveyardAttributeEntry i x, .graveyardAttributeEntry j y =>
      (compare i j).then (compare x y)
    | .encryptedChild i m, .encryptedChild j n => (compare i j).then (cmpName m n)
    | .casefoldChild m, .casefoldChild n => cmpName m n
    | _, _ => .eq

namespace ObjectKey

/-- The common shape of both bounds: extents of any attributes are compared by attribute and then
by the given bound, everything else by the derived order. -/
def cmpBound (bound : ExtentKey → ExtentKey → Ordering) (a b : ObjectKey) : Ordering :=
  (compare a.objectId b.objectId).then <| match a.data, b.data with
    | .attribute i (.extent x), .attribute j (.extent y) => (compare i j).then (bound x y)
    | _, _ => a.data.cmp b.data

def cmpUpperBound : ObjectKey → ObjectKey → Ordering := cmpBound ExtentKey.cmpUpperBound

def cmpLowerBound : ObjectKey → ObjectKey → Ordering := cmpBound ExtentKey.cmpLowerBound

def mergeType (key : ObjectKey) : MergeType :=
  match key.data with
  | .project _ .usage => .fullMerge
  | _ => .optimizedMerge

def nextKey (key : ObjectKey) : Option ObjectKey :=
  match key.data with
  | .attribute i (.extent e) =>
    let next : ExtentKey := ⟨⟨e.range.stop, (e.range.stop + 1) % (u64Max + 1)⟩⟩
    some { key with data := .attribute i (.extent next) }
  | _ => none

def searchKey (key : ObjectKey) : Option ObjectKey :=
  match key.data with
  | .attribute i (.extent e) =>
    e.searchKey.map fun e => { key with data := .attribute i (.extent e) }
  | _ => some key

def keyForMergeInto (key : ObjectKey) : ObjectKey :=
  match key.data with
  | .attribute i (.extent e) => { key with data := .attribute i (.extent e.keyForMergeInto) }
  | _ => key

instance : LayerKey ObjectKey where
  cmpUpperBound := cmpUpperBound
  cmpLowerBound := cmpLowerBound
  mergeType := mergeType
  nextKey := nextKey
  searchKey := searchKey

def range (key : ObjectKey) : Range :=
  match key.data with
  | .attribute _ (.extent e) => e.range
  | _ => ⟨0, 1⟩

end ObjectKey

def ObjectKeyData.stream : ObjectKeyData → List ℕ
  | .object => []
  | .keys => []
  | .attribute i x => [i, x.index]
  | .child n => n
  | .graveyardEntry i => [i]
  | .project i p => [i, p.index]
  | .extendedAttribute n => n
  | .graveyardAttributeEntry i j => [i, j]
  | .encryptedChild h n => h :: n
  | .casefoldChild n => n

def ObjectKey.stream (key : ObjectKey) : List ℕ :=
  key.objectId :: key.data.index :: key.data.stream

section Order

open Ordering

variable {a b : ℕ} {j k : ObjectKey} {o : Ordering}

private theorem compares_compare (a b : ℕ) : (compare a b).Compares a b := by
  rw [← cmp_eq_compare]
  exact cmp_compares a b

private theorem compares_singleton (h : o.Compares a b) :
    o.Compares [a] [b] := by
  cases o with
  | lt => exact List.Lex.rel h
  | gt => exact List.Lex.rel h
  | eq => exact congrArg (fun x => [x]) h

private theorem compares_then_cons {o' : Ordering} {l m : List ℕ}
    (h : o.Compares a b) (h' : a = b → o'.Compares l m) :
    (o.then o').Compares (a :: l) (b :: m) := by
  cases o with
  | lt => exact List.Lex.rel h
  | gt => exact List.Lex.rel h
  | eq =>
    have hab : a = b := h
    subst hab
    have h' := h' rfl
    cases o' with
    | lt => exact List.Lex.cons h'
    | gt => exact List.Lex.cons h'
    | eq => exact congrArg (List.cons a) h'

private theorem compares_then_lex {o' : Ordering} {s t : List ℕ}
    (h : o.Compares s t) (h' : s = t → o'.Compares a b) :
    (o.then o').Compares (toLex (s, a)) (toLex (t, b)) := by
  cases o with
  | lt | gt => exact Prod.Lex.toLex_lt_toLex.mpr (.inl h)
  | eq =>
    have hst : s = t := h
    subst hst
    have h' := h' rfl
    cases o' with
    | lt | gt => exact Prod.Lex.toLex_lt_toLex.mpr (.inr ⟨rfl, h'⟩)
    | eq =>
      have hab : a = b := h'
      subst hab
      rfl

private theorem compares_cmpName (a b : List ℕ) : (cmpName a b).Compares a b := by
  unfold cmpName
  split_ifs with hlt heq
  · exact hlt
  · exact heq
  · exact lt_of_le_of_ne (not_lt.mp hlt) (Ne.symm heq)

private def bothExtents (a b : ObjectKeyData) : Prop :=
  ∃ i j x y, a = .attribute i (.extent x) ∧ b = .attribute j (.extent y)

/-- Unless both are extents, key data are ordered like the fields that name their streams. -/
private theorem compares_stream {a b : ObjectKeyData} (h : ¬ bothExtents a b) :
    (a.cmp b).Compares (a.index :: a.stream) (b.index :: b.stream) := by
  apply compares_then_cons (compares_compare _ _)
  intro hindex
  cases a <;> cases b <;> simp only [ObjectKeyData.index] at hindex <;> try omega
  case object.object => rfl
  case keys.keys => rfl
  case «attribute».«attribute» i x j y =>
    apply compares_then_cons (compares_compare _ _)
    intro _
    apply compares_singleton
    cases x with
    | «attribute» =>
      cases y with
      | «attribute» => rfl
      | extent y => exact Nat.zero_lt_one
    | extent x =>
      cases y with
      | «attribute» => exact Nat.zero_lt_one
      | extent y => exact absurd ⟨i, j, x, y, rfl, rfl⟩ h
  case child.child => exact compares_cmpName _ _
  case graveyardEntry.graveyardEntry => exact compares_singleton (compares_compare _ _)
  case project.project =>
    exact compares_then_cons (compares_compare _ _)
      fun _ => compares_singleton (compares_compare _ _)
  case extendedAttribute.extendedAttribute => exact compares_cmpName _ _
  case graveyardAttributeEntry.graveyardAttributeEntry =>
    exact compares_then_cons (compares_compare _ _)
      fun _ => compares_singleton (compares_compare _ _)
  case encryptedChild.encryptedChild =>
    exact compares_then_cons (compares_compare _ _) fun _ => compares_cmpName _ _
  case casefoldChild.casefoldChild => exact compares_cmpName _ _

/-- Only an extent is in the stream of an extent. -/
private theorem bothExtents_of_stream_eq {i : ℕ} {x : ExtentKey}
    (hstream : j.stream = k.stream) (hj : j.data = .attribute i (.extent x)) :
    bothExtents j.data k.data := by
  obtain ⟨oid, a⟩ := j
  obtain ⟨oid', b⟩ := k
  cases hj
  simp only [ObjectKey.stream, List.cons.injEq] at hstream
  obtain ⟨-, hindex, hfields⟩ := hstream
  cases b <;> simp only [ObjectKeyData.index] at hindex <;> try omega
  case «attribute» i' y =>
    cases y with
    | «attribute» => simp [ObjectKeyData.stream, AttributeKey.index] at hfields
    | extent y => exact ⟨i, i', x, y, rfl, rfl⟩

theorem ObjectKey.range_of_not_extent
    (h : ∀ i x, k.data ≠ .attribute i (.extent x)) : k.range = ⟨0, 1⟩ := by
  unfold ObjectKey.range
  split
  · next i x heq => exact absurd heq (h i x)
  · rfl

/-- Keys of one stream are either both extents or both cover the single position of a stream of
their own. -/
private theorem range_eq_of_stream_eq (hstream : j.stream = k.stream)
    (h : ¬ bothExtents j.data k.data) : j.range = k.range := by
  rw [ObjectKey.range_of_not_extent, ObjectKey.range_of_not_extent]
  · intro i x hk
    obtain ⟨i, i', x, y, hk, hj⟩ := bothExtents_of_stream_eq hstream.symm hk
    exact h ⟨i', i, y, x, hj, hk⟩
  · intro i x hj
    exact h (bothExtents_of_stream_eq hstream hj)

/-- The keys in the stream of an extent are the extents of the same attribute. -/
theorem ObjectKey.extent_of_stream_eq {i : ℕ} {x : ExtentKey}
    (hstream : j.stream = k.stream) (hj : j.data = .attribute i (.extent x)) :
    ∃ i' y, k.data = .attribute i' (.extent y) ∧ j.objectId = k.objectId ∧ i = i' := by
  obtain ⟨i, i', x', y, ha, hb⟩ := bothExtents_of_stream_eq hstream hj
  simp only [ObjectKey.stream, ha, hb, ObjectKeyData.stream, List.cons.injEq] at hstream
  cases hj.symm.trans ha
  exact ⟨i', y, hb, hstream.1, hstream.2.2.1⟩

/-- A key that is not an extent is determined by its stream. -/
theorem ObjectKey.eq_of_stream_eq (hstream : j.stream = k.stream)
    (hj : ∀ i x, j.data ≠ .attribute i (.extent x)) : j = k := by
  obtain ⟨oid, a⟩ := j
  obtain ⟨oid', b⟩ := k
  simp only [ObjectKey.stream, List.cons.injEq] at hstream
  obtain ⟨rfl, hindex, hfields⟩ := hstream
  congr 1
  cases a <;> cases b <;> simp only [ObjectKeyData.index] at hindex <;> try omega
  case object.object => rfl
  case keys.keys => rfl
  case «attribute».«attribute» i x i' y =>
    simp only [ObjectKeyData.stream, List.cons.injEq, and_true] at hfields
    obtain ⟨rfl, hy⟩ := hfields
    cases x with
    | extent x => exact absurd rfl (hj i x)
    | «attribute» =>
      cases y with
      | «attribute» => rfl
      | extent y => simp [AttributeKey.index] at hy
  case project.project i p i' p' =>
    simp only [ObjectKeyData.stream, List.cons.injEq, and_true] at hfields
    obtain ⟨rfl, hp⟩ := hfields
    cases p <;> cases p' <;> first | rfl | simp [ProjectProperty.index] at hp
  all_goals simpa [ObjectKeyData.stream] using hfields

/-- A bound compares keys by stream and then by a position in the stream, if it compares extents by
that position. -/
private theorem cmpBound_compares (bound : ExtentKey → ExtentKey → Ordering) (pos : Range → ℕ)
    (hbound : ∀ x y, bound x y = compare (pos x.range) (pos y.range)) (j k : ObjectKey) :
    (ObjectKey.cmpBound bound j k).Compares (toLex (j.stream, pos j.range))
      (toLex (k.stream, pos k.range)) := by
  by_cases h : bothExtents j.data k.data
  · obtain ⟨oid, a⟩ := j
    obtain ⟨oid', b⟩ := k
    obtain ⟨i, i', x, y, ha, hb⟩ := h
    cases ha
    cases hb
    have hfields : ((compare i i').then .eq).Compares [i, 1] [i', 1] :=
      compares_then_cons (compares_compare i i') fun _ => rfl
    have hindex : (Ordering.eq.then ((compare i i').then .eq)).Compares [2, i, 1] [2, i', 1] :=
      compares_then_cons rfl fun _ => hfields
    have hstream := compares_then_cons (compares_compare oid oid') fun _ => hindex
    have hlex := compares_then_lex hstream fun _ => compares_compare (pos x.range) (pos y.range)
    have heq : ObjectKey.cmpBound bound ⟨oid, .attribute i (.extent x)⟩
        ⟨oid', .attribute i' (.extent y)⟩ =
        ((compare oid oid').then (Ordering.eq.then ((compare i i').then .eq))).then
          (compare (pos x.range) (pos y.range)) := by
      simp only [ObjectKey.cmpBound, hbound]
      cases compare oid oid' <;> cases compare i i' <;> rfl
    rw [heq]
    exact hlex
  · have heq : ObjectKey.cmpBound bound j k =
        ((compare j.objectId k.objectId).then (j.data.cmp k.data)).then .eq := by
      unfold ObjectKey.cmpBound
      split
      · next i x i' y hj hk => exact absurd ⟨i, i', x, y, hj, hk⟩ h
      · cases compare j.objectId k.objectId <;> cases j.data.cmp k.data <;> rfl
    rw [heq]
    refine compares_then_lex (compares_then_cons (compares_compare _ _)
      fun _ => compares_stream h) ?_
    intro hstream
    exact congrArg pos (range_eq_of_stream_eq hstream h)

end Order

namespace ObjectKey

def lo (key : ObjectKey) : List ℕ ×ₗ ℕ := toLex (key.stream, key.range.start)

def hi (key : ObjectKey) : List ℕ ×ₗ ℕ := toLex (key.stream, key.range.stop)

theorem cmpLowerBound_compares (j k : ObjectKey) : (j.cmpLowerBound k).Compares j.lo k.lo :=
  cmpBound_compares _ Range.start (fun _ _ => rfl) j k

theorem cmpUpperBound_compares (j k : ObjectKey) : (j.cmpUpperBound k).Compares j.hi k.hi :=
  cmpBound_compares _ Range.stop (fun _ _ => rfl) j k

end ObjectKey

end Smos.Fxfs
