import Mathlib
import Smos.Lib.Intervals
import Smos.RegionAlloc.RegionAllocator

/-!
The trees of the region allocator.

`Indexed` says that the two trees of available regions hold the regions of one list.  The
operations on both trees are followed on the list, cut at the region they change.
-/
namespace Smos.RegionAlloc

open Lib Lib.Intervals Region List

namespace Region

variable {r : Region} {base top size : BitVec 64}

def lo (region : Region) : ℕ := region.base.toNat

def hi (region : Region) : ℕ := region.base.toNat + region.size.toNat

def addresses (region : Region) : Set ℕ := Set.Ico region.lo region.hi

theorem toNat_exclusiveEnd (h : r.hi < 2 ^ 64) : r.exclusiveEnd.toNat = r.hi :=
  BitVec.toNat_add_of_lt h

theorem hi_of_sub (h : base.toNat ≤ top.toNat) : hi ⟨base, top - base⟩ = top.toNat := by
  have hsub := BitVec.toNat_sub_of_le (BitVec.le_def.mpr h)
  change base.toNat + (top - base).toNat = top.toNat
  omega

/-- The region left when the front of a region is cut off. -/
theorem trimFront (h : r.hi < 2 ^ 64) (hsize : size.toNat ≤ r.size.toNat) :
    lo ⟨r.base + size, r.size - size⟩ = r.lo + size.toNat ∧
      hi ⟨r.base + size, r.size - size⟩ = r.hi := by
  have hsub := BitVec.toNat_sub_of_le (BitVec.le_def.mpr hsize)
  simp only [hi] at h
  have hadd : (r.base + size).toNat = r.base.toNat + size.toNat :=
    BitVec.toNat_add_of_lt (by omega)
  simp only [lo, hi]
  omega

/-- The region left when the end of a region is cut off. -/
theorem trimEnd (hsize : size.toNat ≤ r.size.toNat) :
    hi ⟨r.base, r.size - size⟩ = r.hi - size.toNat := by
  have hsub := BitVec.toNat_sub_of_le (BitVec.le_def.mpr hsize)
  simp only [hi]
  omega

instance : Std.Total SizeLe := by
  constructor
  intro a b
  simp only [SizeLe, BitVec.lt_def, BitVec.le_def, BitVec.toNat_eq]
  omega

instance : IsTrans Region SizeLe := by
  constructor
  intro a b c
  simp only [SizeLe, BitVec.lt_def, BitVec.le_def, BitVec.toNat_eq]
  omega

end Region

namespace RegionAllocator

variable {self : RegionAllocator} {g : ℕ} {l front rest : List Region} {r r' region : Region}
  {base : BitVec 64}

def avail (self : RegionAllocator) : Set ℕ := cover lo hi self.availRegionsByBase

def allocated (self : RegionAllocator) : Set ℕ :=
  cover lo hi self.allocatedRegionsByBase

structure Indexed (alloc : RegionAllocator) (l : List Region) : Prop where
  byBase : alloc.availRegionsByBase = l
  bySize : alloc.availRegionsBySize.Perm l
  sorted : alloc.availRegionsBySize.Pairwise Region.SizeLe

theorem Indexed.eraseAvail (h : Indexed self (front ++ r :: rest)) (hr : r ∉ front) :
    Indexed (self.eraseAvail r) (front ++ rest) := by
  have herase : (front ++ r :: rest).erase r = front ++ rest := by
    rw [erase_append_right _ hr, erase_cons_head]
  refine ⟨?_, ?_, h.sorted.sublist erase_sublist⟩
  · rw [RegionAllocator.eraseAvail, h.byBase, herase]
  · rw [← herase]
    exact h.bySize.erase r

theorem Indexed.editAvail (h : Indexed self (front ++ r :: rest)) (hr : r ∉ front) :
    Indexed (self.editAvail r r') (front ++ r' :: rest) := by
  have herase := h.eraseAvail hr
  refine ⟨?_, ?_, herase.sorted.orderedInsert r' _⟩
  · rw [RegionAllocator.editAvail, h.byBase, replace_append_right hr, replace_cons_self]
  · exact (perm_orderedInsert _ _ _).trans
      ((herase.bySize.cons r').trans perm_middle.symm)

theorem orderedInsert_append (hfront : ∀ b ∈ front, b.lo < r.lo) (hrest : ∀ b ∈ rest, r.lo ≤ b.lo) :
    (front ++ rest).orderedInsert Region.BaseLe r = front ++ r :: rest := by
  induction front with
  | nil =>
    cases rest with
    | nil => rfl
    | cons b rest =>
      exact orderedInsert_cons_of_le _ _ (BitVec.le_def.mpr (hrest b mem_cons_self))
  | cons b front ih =>
    have hb := hfront b mem_cons_self
    have hnot : ¬ Region.BaseLe r b := fun hle => Nat.not_le_of_lt hb (BitVec.le_def.mp hle)
    rw [cons_append, orderedInsert_of_not_le _ _ hnot,
      ih fun c hc => hfront c (mem_cons_of_mem b hc)]
    rfl

theorem Indexed.insertAvail (h : Indexed self (front ++ rest)) (hfront : ∀ b ∈ front, b.lo < r.lo)
    (hrest : ∀ b ∈ rest, r.lo ≤ b.lo) : Indexed (self.insertAvail r) (front ++ r :: rest) := by
  refine ⟨?_, ?_, h.sorted.orderedInsert r _⟩
  · rw [RegionAllocator.insertAvail, h.byBase, orderedInsert_append hfront hrest]
  · exact (perm_orderedInsert _ _ _).trans ((h.bySize.cons r).trans perm_middle.symm)

structure Holds (alloc : RegionAllocator) (l : List Region) : Prop extends Indexed alloc l where
  spaced : Spaced lo hi 1 l

theorem Holds.erase (h : Holds self (front ++ r :: rest)) :
    Holds (self.eraseAvail r) (front ++ rest) :=
  ⟨h.eraseAvail h.spaced.not_mem_front, h.spaced.replace (m := []) .nil (by simp)⟩

theorem Holds.edit (h : Holds self (front ++ r :: rest)) (hne : r'.lo < r'.hi)
    (hlo : r.lo ≤ r'.lo) (hhi : r'.hi ≤ r.hi) :
    Holds (self.editAvail r r') (front ++ r' :: rest) :=
  ⟨h.editAvail h.spaced.not_mem_front,
    h.spaced.replace (m := [r']) (.singleton hne) (by simp [hlo, hhi])⟩

section

variable (hl : Spaced lo hi g l)
include hl

/-- A tree cut at the first region that does not start below a bound. -/
theorem cut_spec {bound : ℕ} {P : Region → Bool}
    (hP : ∀ r, P r = true ↔ r.lo < bound) :
    l.takeWhile P ++ l.dropWhile P = l ∧ (∀ b ∈ l.takeWhile P, b.lo < bound) ∧
      ∀ b ∈ l.dropWhile P, bound ≤ b.lo := by
  refine ⟨takeWhile_append_dropWhile, ?_, ?_⟩
  · intro b hb
    exact (hP b).mp (mem_takeWhile_imp hb)
  · intro b hb
    have hnot := not_of_mem_dropWhile hl.lo_lt ?_ b hb
    · rwa [← Bool.not_eq_true, hP, not_lt] at hnot
    · intro a c hac ha
      rw [← Bool.not_eq_true, hP] at ha ⊢
      omega

/-- A tree cut at an upper bound. -/
theorem upperBound_spec (base : BitVec 64) :
    (upperBound l base).1 ++ (upperBound l base).2 = l ∧
      (∀ b ∈ (upperBound l base).1, b.lo ≤ base.toNat) ∧
      ∀ b ∈ (upperBound l base).2, base.toNat < b.lo := by
  simp only [← Nat.lt_succ_iff]
  exact cut_spec hl fun r => by rw [decide_eq_true_iff, Nat.lt_succ_iff]; rfl

/-- A tree cut at a lower bound. -/
theorem lowerBound_spec (base : BitVec 64) :
    (lowerBound l base).1 ++ (lowerBound l base).2 = l ∧
      (∀ b ∈ (lowerBound l base).1, b.lo < base.toNat) ∧
      ∀ b ∈ (lowerBound l base).2, base.toNat ≤ b.lo :=
  cut_spec hl fun r => by rw [decide_eq_true_iff]; rfl

/-- No region of the tree ends beyond the limit of the addresses. -/
theorem hi_lt_of_cover
    (hbounded : cover lo hi l ⊆ Set.Iio (2 ^ 64 - 1)) (hr : r ∈ l) :
    r.hi < 2 ^ 64 := by
  have hlt := hl.nonempty r hr
  have hlast : r.hi - 1 ∈ cover lo hi l := ⟨r, hr, by omega, by omega⟩
  have hbound := Set.mem_Iio.mp (hbounded hlast)
  omega

theorem disjoint_of_not_intersectsLocked
    (hbounded : cover lo hi l ⊆ Set.Iio (2 ^ 64 - 1)) (hregion : region.hi < 2 ^ 64)
    (h : intersectsLocked l region = false) :
    Disjoint (cover lo hi l) region.addresses := by
  obtain ⟨hsplit, hbefore, hafter⟩ := lowerBound_spec hl region.base
  rw [intersectsLocked, Bool.or_eq_false_iff] at h
  obtain ⟨hnext, hlast⟩ := h
  rw [Set.disjoint_left]
  rintro x ⟨r, hr, hlo, hhi⟩ hx
  obtain ⟨hxlo, hxhi⟩ := Set.mem_Ico.mp hx
  rw [← hsplit] at hl
  obtain ⟨hl1, hl2, -⟩ := spaced_append.mp hl
  rw [← hsplit] at hr
  rcases mem_append.mp hr with hr | hr
  · -- the last region before the bound ends at or after this one
    obtain ⟨front, b, hfront, hne, hlast'⟩ := hl1.exists_concat_of_mem hr
    have hb : b ∈ l := by
      rw [← hsplit, hfront]
      simp
    have hend := toNat_exclusiveEnd (hi_lt_of_cover (hsplit ▸ hl) hbounded hb)
    have hnot : ¬ region.base < b.exclusiveEnd := by
      rw [hfront, getLast?_concat] at hlast
      exact of_decide_eq_false hlast
    have hle : b.hi ≤ region.lo := by
      rw [BitVec.lt_def, hend] at hnot
      exact Nat.le_of_not_lt hnot
    rcases hlast' with rfl | hgap
    · omega
    · omega
  · obtain ⟨b, rest, hrest⟩ := exists_cons_of_ne_nil (ne_nil_of_mem hr)
    have hend := toNat_exclusiveEnd hregion
    have hnot : ¬ b.base < region.exclusiveEnd := by
      rw [hrest] at hnext
      exact of_decide_eq_false hnext
    have hle : region.hi ≤ b.lo := by
      rw [BitVec.lt_def, hend] at hnot
      exact Nat.le_of_not_lt hnot
    rw [hrest] at hr hl2
    rcases mem_cons.mp hr with rfl | hr
    · omega
    · have hbr := (pairwise_cons.mp hl2.lo_lt).1 r hr
      omega

end

/-- A region that covers no allocated address is inserted among the allocated regions. -/
theorem insertAllocated_spec (hl : Spaced lo hi 0 l) (hregion : region.lo < region.hi)
    (hdisjoint : Disjoint (cover lo hi l) region.addresses) :
    Spaced lo hi 0 (l.orderedInsert Region.BaseLe region) ∧
      cover lo hi (l.orderedInsert Region.BaseLe region) =
        cover lo hi l ∪ region.addresses := by
  obtain ⟨hsplit, hbefore, hafter⟩ := lowerBound_spec hl region.base
  generalize (lowerBound l region.base).1 = front at hsplit hbefore
  generalize (lowerBound l region.base).2 = rest at hsplit hafter
  subst hsplit
  rw [orderedInsert_append hbefore hafter]
  obtain ⟨hfront, hrest, hbetween⟩ := spaced_append.mp hl
  rw [Set.disjoint_left] at hdisjoint
  refine ⟨spaced_append.mpr ⟨hfront, spaced_cons.mpr ⟨hregion, hrest, ?_⟩, ?_⟩, ?_⟩
  · intro b hb
    by_contra hlt
    have hb' := hafter b hb
    have hne := hrest.nonempty b hb
    refine hdisjoint (a := b.lo) ⟨b, mem_append_right front hb, ?_⟩ (Set.mem_Ico.mpr ?_)
    · exact ⟨Nat.le_refl _, hne⟩
    · exact ⟨hb', by omega⟩
  · intro b hb c hc
    rcases mem_cons.mp hc with rfl | hc
    · by_contra hlt
      have hb' : b.lo < c.lo := hbefore b hb
      refine hdisjoint (a := c.lo) ⟨b, mem_append_left rest hb, ?_⟩ (Set.mem_Ico.mpr ?_)
      · exact ⟨hb'.le, by omega⟩
      · exact ⟨Nat.le_refl _, hregion⟩
    · exact hbetween b hb c hc
  · rw [cover_append, cover_cons, cover_append, Set.union_left_comm, Set.union_comm]
    rfl

end RegionAllocator

end Smos.RegionAlloc
