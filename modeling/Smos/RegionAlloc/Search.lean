import Smos.RegionAlloc.Run

/-!
The search of `GetRegion` in `region-alloc.cc` is exact: it fails only if no available region holds
what is asked for.
-/
namespace Smos.RegionAlloc.RegionAllocator

open Lib.Intervals Region List BitVec

variable {self : RegionAllocator} {region source : Region} {base size : BitVec 64} {k : Fin 64}
  {b : ℕ} {created : ℕ → Bool}

def Finds (P : Region → Prop) : Except Status Region → Prop
  | .ok out => P out
  | .error _ => ∀ out, ¬P out

theorem Outcome.finds {P : Region → Prop} {Q : Region → RegionAllocator → Prop}
    {result : Except Status Region × RegionAllocator} (h : Outcome self Q result)
    (hQ : ∀ out self', Q out self' → P out) (hP : ∀ out, P out → result.1.isOk) :
    Finds P result.1 := by
  cases h with
  | error => exact fun out hout => Bool.noConfusion (hP out hout)
  | ok h => exact hQ _ _ h

/-- With memory for the bookkeeping, nothing fails once a region is found. -/
theorem allocFromAvailLocked_isOk (hcreated : ∀ n, created n = true) :
    (self.allocFromAvailLocked source base size created).1.isOk := by
  simp only [allocFromAvailLocked, hcreated]
  split_ifs <;> simp_all [Except.isOk, Except.toBool]

theorem toNat_mask : ∀ k : Fin 64, (twoPow 64 k - 1).toNat = 2 ^ k.val - 1 := by decide

/-- Clearing the low bits takes away the remainder. -/
theorem toNat_and_not {mask x : BitVec 64} (hmask : mask.toNat = 2 ^ k.val - 1) :
    (x &&& ~~~mask).toNat + x.toNat % 2 ^ k.val = x.toNat := by
  have hand : x &&& ~~~mask &&& (x &&& mask) = 0 := by
    ext i
    simp +contextual
  rw [← Nat.and_two_pow_sub_one_eq_mod, ← hmask, ← toNat_and, ← toNat_add_of_and_eq_zero hand,
    add_eq_or_of_and_eq_zero _ _ hand, ← and_or_distrib_left, not_or_self, and_allOnes]

/-- Rounding up leads to the first aligned address. -/
theorem alignedBase_mem (hb : 2 ^ k.val ∣ b) (hlo : region.lo ≤ b) (hlt : b < 2 ^ 64) :
    region.lo ≤ (alignedBase (twoPow 64 k - 1) region).toNat ∧
      (alignedBase (twoPow 64 k - 1) region).toNat ≤ b := by
  have hpos := Nat.two_pow_pos k.val
  have hmask := toNat_mask k
  have hroom := Nat.le_of_dvd (Nat.sub_pos_of_lt hlt)
    (Nat.dvd_sub (Nat.pow_dvd_pow 2 k.isLt.le) hb)
  have hsum : (region.base + (twoPow 64 k - 1)).toNat = region.lo + (2 ^ k.val - 1) := by
    rw [toNat_add_of_lt, hmask]
    · rfl
    · rw [hmask]
      change region.lo + _ < _
      omega
  have hbase := toNat_and_not (x := region.base + (twoPow 64 k - 1)) hmask
  rw [← alignedBase, hsum] at hbase
  have hmod := Nat.mod_lt (region.lo + (2 ^ k.val - 1)) hpos
  refine ⟨by omega, ?_⟩
  have hdiv := Nat.div_add_mod (region.lo + (2 ^ k.val - 1)) (2 ^ k.val)
  have hmul := Nat.add_right_cancel (hdiv.trans hbase.symm)
  obtain ⟨c, rfl⟩ := hb
  rw [← hmul]
  refine Nat.mul_le_mul_left _ (Nat.le_of_lt_succ (Nat.div_lt_of_lt_mul ?_))
  rw [Nat.mul_succ]
  omega

section

variable (h : Inv self) (hcreated : ∀ n, created n = true) (hsize : 0 < size.toNat)
include h hcreated hsize

/-- A region in which an aligned block lies is found. -/
theorem Inv.getRegionBySize_isOk (hb : 2 ^ k.val ∣ b)
    (hsub : Set.Ico b (b + size.toNat) ⊆ self.avail) :
    (self.getRegionBySize size (twoPow 64 k) created).1.isOk := by
  obtain ⟨r, hr, hlo, hhi⟩ := h.holds.spaced.exists_of_Ico_subset
    (Nat.lt_add_of_pos_right hsize) hsub
  have hbound := h.availHi r hr
  obtain ⟨hle, hfirst⟩ := alignedBase_mem hb hlo (by omega)
  have hend : r.hi = r.lo + r.size.toNat := rfl
  have hmem : r ∈ self.availRegionsBySize.dropWhile fun r => decide (SizeLt r ⟨0, size⟩) := by
    have hbySize := h.holds.bySize.mem_iff.mpr hr
    rw [← @takeWhile_append_dropWhile _ (fun r => decide (SizeLt r ⟨0, size⟩))
      self.availRegionsBySize] at hbySize
    refine (mem_append.mp hbySize).resolve_left fun hsmall => ?_
    have hlt := mem_takeWhile_imp hsmall
    have hzero : (0 : BitVec 64).toNat = 0 := rfl
    simp only [decide_eq_true_iff, SizeLt, lt_def, toNat_eq] at hlt
    omega
  have husable := (usable_iff (by omega)).mpr ⟨hle, (Nat.add_le_add_right hfirst _).trans hhi⟩
  have hsingle := (by decide : ∀ k : Fin 64, hasSingleBit (twoPow 64 k) = true) k
  rw [RegionAllocator.getRegionBySize, if_neg]
  · dsimp only
    cases hfind : (self.availRegionsBySize.dropWhile fun r =>
        decide (SizeLt r ⟨0, size⟩)).find? (usable size (twoPow 64 k - 1)) with
    | none => exact absurd husable (find?_eq_none.mp hfind r hmem)
    | some source => exact allocFromAvailLocked_isOk hcreated
  · rintro (rfl | hzero | hnot)
    · cases hsize
    · exact (of_decide_eq_true hsingle).1 hzero
    · exact hnot hsingle

/-- A region that is available is found. -/
theorem Inv.getRegionAt_isOk (hsub : addresses ⟨base, size⟩ ⊆ self.avail) :
    (self.getRegionAt ⟨base, size⟩ created).1.isOk := by
  have hpos : base.toNat < hi ⟨base, size⟩ := Nat.lt_add_of_pos_right hsize
  obtain ⟨r, hr, hlo, hhi⟩ := h.holds.spaced.exists_of_Ico_subset hpos hsub
  have hbound := h.availHi r hr
  obtain ⟨hsplit, hupTo, hafter⟩ := upperBound_spec h.holds.spaced base
  -- The last region that does not start after `base` is the one found above.
  have hlast : (upperBound self.availRegionsByBase base).1.getLast? = some r := by
    have hmem : r ∈ (upperBound self.availRegionsByBase base).1 := by
      rw [← hsplit] at hr
      refine (mem_append.mp hr).resolve_right fun hr => ?_
      have hgt := hafter r hr
      omega
    have hspaced := h.holds.spaced
    rw [← hsplit] at hspaced
    obtain ⟨front, a, hconcat, -, rfl | hgap⟩ :=
      (spaced_append.mp hspaced).1.exists_concat_of_mem hmem
    · rw [hconcat, getLast?_concat]
    · rw [hconcat] at hupTo
      have ha := hupTo a mem_concat_self
      omega
  rw [RegionAllocator.getRegionAt, if_neg]
  · dsimp only
    rw [hlast]
    dsimp only
    rw [if_neg]
    · exact allocFromAvailLocked_isOk hcreated
    · rw [@exclusiveEnd_sub_one_lt_iff ⟨base, size⟩ r (by omega) hbound hpos (hhi.trans_lt hbound)]
      exact Nat.not_lt.mpr hhi
  · rintro (rfl | hwrap)
    · cases hsize
    · rw [lt_def, toNat_add_of_lt (hhi.trans_lt hbound)] at hwrap
      exact absurd hwrap (Nat.not_lt.mpr (Nat.le_add_right _ _))

end

/-- With memory for the bookkeeping, a request returns what it asks for exactly if that is
available. -/
theorem Reachable.getRegion_exact (h : Reachable self) (hcreated : ∀ n, created n = true)
    (hsize : size ≠ 0) :
    (∀ k : Fin 64, Finds (fun out => out.size = size ∧ 2 ^ k.val ∣ out.base.toNat ∧
      out.addresses ⊆ self.avail) (self.getRegionBySize size (twoPow 64 k) created).1) ∧
    ∀ base, Finds (fun out => out = ⟨base, size⟩ ∧ out.addresses ⊆ self.avail)
      (self.getRegionAt ⟨base, size⟩ created).1 := by
  have hpos : 0 < size.toNat := Nat.pos_of_ne_zero fun hzero => hsize (eq_of_toNat_eq hzero)
  refine ⟨fun k => h.inv.getRegionBySize.finds ?_ ?_, fun base => h.inv.getRegionAt.finds ?_ ?_⟩
  · rintro out - ⟨-, hout, haligned, hsub, -⟩
    have hmod := congrArg BitVec.toNat haligned
    rw [toNat_and, toNat_mask, Nat.and_two_pow_sub_one_eq_mod] at hmod
    exact ⟨hout, Nat.dvd_of_mod_eq_zero hmod, hsub⟩
  · rintro out ⟨rfl, hb, hsub⟩
    exact h.inv.getRegionBySize_isOk hcreated hpos hb hsub
  · rintro out - ⟨hout, -, hsub, -⟩
    exact ⟨hout, hsub⟩
  · rintro out ⟨rfl, hsub⟩
    exact h.inv.getRegionAt_isOk hcreated hpos hsub

/-- Half of an available page is given out. -/
theorem Reachable.getRegion_exact_halfPage : Finds
    (fun out => out.size = 0x800 ∧ 2 ^ (11 : Fin 64).val ∣ out.base.toNat ∧
      out.addresses ⊆ avail ⟨[], [⟨0x1000, 0x1000⟩], [⟨0x1000, 0x1000⟩]⟩)
      (.ok ⟨0x1000, 0x800⟩) := by
  exact (getRegion_exact reachable_onePage (fun _ => rfl) (by decide)).1 11

end Smos.RegionAlloc.RegionAllocator
