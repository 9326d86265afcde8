import Smos.Bitmap.RleUpdate

/-!
A bitmap represents a set of positions, whatever calls it is used with.
-/
namespace Smos.Bitmap

open Lib.Intervals

variable {l : List Element} {b : RleBitmap}

section Count

theorem Runs.ncard_lt (h : Runs l) : (bits l).ncard < 2 ^ 64 := by
  have hsub : bits l ⊆ Set.Ico 0 (2 ^ 64 - 1) := by
    rintro p ⟨e, he, -, hhi⟩
    have := h.fits e he
    exact ⟨Nat.zero_le p, by omega⟩
  have hcard := Set.ncard_le_ncard hsub (Set.finite_Ico _ _)
  rw [← Finset.coe_Ico, Set.ncard_coe_finset, Nat.card_Ico] at hcard
  omega

theorem toNat_total (l : List Element) :
    (total l).toNat = (l.map fun e => e.hi - e.lo).sum % 2 ^ 64 := by
  induction l with
  | nil => rfl
  | cons e l ih =>
    have hlen : e.hi - e.lo = e.bitlen.toNat := Nat.add_sub_cancel_left _ _
    rw [total_cons, UInt64.toNat_add, ih, List.map_cons, List.sum_cons, hlen, Nat.add_mod_mod]

/-- The sum of the lengths is the number of positions: it does not wrap around. -/
theorem Runs.toNat_total (h : Runs l) : (total l).toNat = (bits l).ncard := by
  have hcard : (bits l).ncard = (l.map fun e => e.hi - e.lo).sum := h.spaced.ncard_cover
  rw [Bitmap.toNat_total, ← hcard, Nat.mod_eq_of_lt h.ncard_lt]

end Count

section Calls

/-- The calls that a bitmap is used with, and what they meet: whether the heap has memory, or the
free list. -/
inductive Call
  | set (bitoff bitmax : UInt64) (hasMemory : Bool)
  | clear (bitoff bitmax : UInt64) (hasMemory : Bool)
  | setNoAlloc (bitoff bitmax : UInt64) (freeList : Option (List Element))
  | clearNoAlloc (bitoff bitmax : UInt64) (freeList : Option (List Element))
  | find (isSet : Bool) (bitoff bitmax runLen : UInt64)

namespace Call

def bitoff : Call → UInt64
  | .set bitoff _ _ | .clear bitoff _ _
  | .setNoAlloc bitoff _ _ | .clearNoAlloc bitoff _ _ => bitoff
  | .find _ bitoff _ _ => bitoff

def bitmax : Call → UInt64
  | .set _ bitmax _ | .clear _ bitmax _
  | .setNoAlloc _ bitmax _ | .clearNoAlloc _ bitmax _ => bitmax
  | .find _ _ bitmax _ => bitmax

/-- The value that a successful call gives to the positions of its range. -/
def value : Call → Option Bool
  | .set .. | .setNoAlloc .. => some true
  | .clear .. | .clearNoAlloc .. => some false
  | .find .. => none

def perform (b : RleBitmap) : Call → Status × RleBitmap
  | .set bitoff bitmax hasMemory => b.set bitoff bitmax hasMemory
  | .clear bitoff bitmax hasMemory => b.clear bitoff bitmax hasMemory
  | .setNoAlloc bitoff bitmax freeList =>
    let r := b.setNoAlloc bitoff bitmax freeList
    (r.1, r.2.1)
  | .clearNoAlloc bitoff bitmax freeList =>
    let r := b.clearNoAlloc bitoff bitmax freeList
    (r.1, r.2.1)
  | .find isSet bitoff bitmax runLen => ((b.find isSet bitoff bitmax runLen).1, b)

end Call

inductive Reachable : RleBitmap → Prop
  | new : Reachable RleBitmap.new
  | perform {b : RleBitmap} (h : Reachable b) (c : Call) (hle : c.bitoff ≤ c.bitmax) :
      Reachable (c.perform b).2

structure Performs (b : RleBitmap) (c : Call) : Prop where
  success : ∀ isSet, c.value = some isSet → (c.perform b).1 = .ok →
    ∀ p, p ∈ bits (c.perform b).2.elems ↔
      if c.bitoff.toNat ≤ p ∧ p < c.bitmax.toNat then isSet = true else p ∈ bits b.elems
  failure : (c.perform b).1 ≠ .ok → (c.perform b).2 = b
  reads : c.value = none → (c.perform b).2 = b

theorem performs_of_updates {c : Call} {isSet : Bool} (hvalue : c.value = some isSet)
    (h : WellFormed b) {r : Status × RleBitmap × Source} (hr : c.perform b = (r.1, r.2.1))
    (hu : Updates isSet c.bitoff c.bitmax b r) : Performs b c ∧ WellFormed (c.perform b).2 := by
  obtain ⟨status, b', source⟩ := r
  rw [hr]
  rcases hu with ⟨rfl, hwf, hbits⟩ | ⟨hfail, rfl⟩
  · refine ⟨⟨fun isSet' hvalue' _ => ?_, fun hne => ?_, fun hnone => ?_⟩, hwf⟩
    · rw [hvalue] at hvalue'
      cases hvalue'
      rw [hr]
      exact hbits
    · rw [hr] at hne
      exact absurd rfl hne
    · rw [hvalue] at hnone
      cases hnone
  · refine ⟨⟨fun _ _ hok => ?_, fun _ => ?_, fun hnone => ?_⟩, h⟩
    · rw [hr] at hok
      exact absurd hok hfail
    · rw [hr]
    · rw [hvalue] at hnone
      cases hnone

theorem performs (h : WellFormed b) (c : Call) :
    Performs b c ∧ WellFormed (c.perform b).2 := by
  cases c with
  | set bitoff bitmax hasMemory =>
    exact performs_of_updates rfl h rfl (setInternal_spec h bitoff bitmax (.heap hasMemory))
  | clear bitoff bitmax hasMemory =>
    exact performs_of_updates rfl h rfl (clearInternal_spec h bitoff bitmax (.heap hasMemory))
  | setNoAlloc bitoff bitmax freeList =>
    refine performs_of_updates rfl h rfl ?_
    cases freeList with
    | none => exact Or.inr ⟨by simp, rfl⟩
    | some elems => exact setInternal_spec h bitoff bitmax (.freeList elems)
  | clearNoAlloc bitoff bitmax freeList =>
    refine performs_of_updates rfl h rfl ?_
    cases freeList with
    | none => exact Or.inr ⟨by simp, rfl⟩
    | some elems => exact clearInternal_spec h bitoff bitmax (.freeList elems)
  | find isSet bitoff bitmax runLen =>
    exact ⟨⟨nofun, fun _ => rfl, fun _ => rfl⟩, h⟩

theorem Reachable.wellFormed (h : Reachable b) : WellFormed b := by
  induction h with
  | new => exact ⟨runs_nil, rfl, rfl⟩
  | perform _ c _ ih => exact (performs ih c).2

/-- What a bitmap stands for: its list holds exactly the maximal runs of a set, in increasing order,
its counters are the size of the set and the number of runs, and its calls answer by the set and
change it as they say. -/
structure Represents (b : RleBitmap) : Prop where
  increasing : b.elems.Pairwise fun a c => a.hi < c.lo
  runs : ∀ x y, IsMaximalRun (bits b.elems) x y ↔ ∃ e ∈ b.elems, e.lo = x ∧ e.hi = y
  numBits : b.numBits.toNat = (bits b.elems).ncard
  numElems : b.numElems = b.elems.length
  performs : ∀ c : Call, c.bitoff ≤ c.bitmax → Performs b c
  get : ∀ bitoff bitmax : UInt64, bitoff ≤ bitmax →
    ((b.get bitoff bitmax).1 = true ↔
        ∀ p, bitoff.toNat ≤ p → p < bitmax.toNat → p ∈ bits b.elems) ∧
      ((b.get bitoff bitmax).1 = false →
        IsLeast {p | bitoff.toNat ≤ p ∧ p < bitmax.toNat ∧ p ∉ bits b.elems}
          (b.get bitoff bitmax).2.toNat)
  find : ∀ (isSet : Bool) (bitoff bitmax runLen : UInt64), bitoff ≤ bitmax → runLen ≠ 0 →
    Finds (bits b.elems) isSet bitoff.toNat bitmax runLen (b.find isSet bitoff bitmax runLen)

/-- In every sequence of calls the bitmap represents a set by its maximal runs. -/
theorem Reachable.represents {b : RleBitmap} (h : Reachable b) : Represents b where
  increasing := h.wellFormed.runs.spaced.ordered.imp fun hac => hac
  runs := fun _ _ => h.wellFormed.runs.spaced.isMaximalRun_iff
  numBits := by
    rw [h.wellFormed.numBits]
    exact h.wellFormed.runs.toNat_total
  numElems := h.wellFormed.numElems
  performs := fun c _ => (Bitmap.performs h.wellFormed c).1
  get := by
    intro bitoff bitmax _
    obtain ⟨hiff, -, hleast⟩ := get_spec h.wellFormed.runs bitoff bitmax
    exact ⟨hiff, hleast⟩
  find := fun _ _ _ _ hle hlen => find_spec h.wellFormed.runs hlen hle

/-- Two runs that are set and then joined. -/
theorem Reachable.represents_joined :
    ∃ b, Represents b ∧ b.elems = [⟨3, 6⟩] ∧ b.numBits = 6 :=
  ⟨_, Reachable.represents (.perform (.perform (.perform .new (.set 3 5 true) (by decide))
    (.set 7 9 true) (by decide)) (.set 5 7 true) (by decide)), by decide, by decide⟩

/-- An empty run is anywhere, but it is not found in a bitmap without elements. -/
theorem find_emptyRun :
    RleBitmap.new.find true 0 1 0 = (.noResources, 1) ∧
      RunAt (bits RleBitmap.new.elems) true 0 1 0 0 :=
  ⟨by decide, le_rfl, Nat.zero_le 1, fun p _ hlt => absurd hlt (Nat.not_lt_zero p)⟩

end Calls

end Smos.Bitmap
