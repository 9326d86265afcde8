import Smos.RegionAlloc.Bookkeeping

/-!
Runs of a region allocator: the invariant of its trees, and what each call does to the sets of
available and of allocated addresses.
-/
namespace Smos.RegionAlloc

open Lib Lib.Intervals Region List BitVec Set

namespace RegionAllocator

structure Inv (alloc : RegionAllocator) : Prop where
  represents : Represents alloc alloc.avail
  allocatedSpaced : Spaced Region.lo Region.hi 0 alloc.allocatedRegionsByBase
  disjoint : Disjoint alloc.avail alloc.allocated
  availBounded : alloc.avail ⊆ Set.Iio (2 ^ 64 - 1)
  allocatedBounded : alloc.allocated ⊆ Set.Iio (2 ^ 64 - 1)

/-- What a call means for the sets of available and of allocated addresses, before and after it. -/
def Call.Meaning (avail allocated avail' allocated' : Set ℕ) :
    Call → Except Status (Option Region) → Prop
  | _, .error _ => avail' = avail ∧ allocated' = allocated
  | .addRegion region allowOverlap _, .ok _ =>
    avail' = avail ∪ region.addresses ∧ allocated' = allocated ∧
      Disjoint allocated region.addresses ∧
      (allowOverlap = false → Disjoint avail region.addresses)
  | .subtractRegion region allowIncomplete _, .ok _ =>
    avail' = avail \ region.addresses ∧ allocated' = allocated ∧
      Disjoint allocated region.addresses ∧
      (allowIncomplete = false → region.addresses ⊆ avail)
  | .getRegionBySize size alignment _, .ok out => ∃ region, out = some region ∧
      region.size = size ∧ region.base &&& (alignment - 1) = 0 ∧ region.addresses ⊆ avail ∧
      avail' = avail \ region.addresses ∧ allocated' = allocated ∪ region.addresses
  | .getRegionAt requested _, .ok out => out = some requested ∧ requested.addresses ⊆ avail ∧
      avail' = avail \ requested.addresses ∧ allocated' = allocated ∪ requested.addresses
  | .releaseRegion region, .ok _ => region.addresses ⊆ allocated ∧
      avail' = avail ∪ region.addresses ∧ allocated' = allocated \ region.addresses

variable {self self' : RegionAllocator} {region : Region} {base size alignment : BitVec 64}
  {allowOverlap allowIncomplete created : Bool} {l : List Region}
  {result : Except Status (Option Region)}

theorem Inv.holds (h : Inv self) : Holds self self.availRegionsByBase := by
  obtain ⟨l, hindexed, hspaced, -⟩ := h.represents
  rw [hindexed.byBase]
  exact ⟨hindexed, hspaced⟩

theorem Inv.availHi (h : Inv self) : ∀ r ∈ self.availRegionsByBase, r.hi < 2 ^ 64 :=
  fun _ hr => hi_lt_of_cover h.holds.spaced h.availBounded hr

/-- An allocation fits in a region that is large enough. -/
theorem usable_iff {mask : BitVec 64} (hlarge : size.toNat ≤ region.size.toNat) :
    usable size mask region = true ↔ region.lo ≤ (alignedBase mask region).toNat ∧
      (alignedBase mask region).toNat + size.toNat ≤ region.hi := by
  rw [usable, decide_eq_true_iff]
  refine and_congr_right fun hlo => ?_
  rw [le_def] at hlo ⊢
  rw [toNat_sub_of_le hlo, toNat_sub_of_le (le_def.mpr hlarge)]
  simp only [hi]
  omega

theorem exclusiveEnd_sub_one_lt_iff {source : Region} (hlo : source.lo < source.hi)
    (hhi : source.hi < 2 ^ 64) (hlo' : region.lo < region.hi) (hhi' : region.hi < 2 ^ 64) :
    source.exclusiveEnd - 1 < region.exclusiveEnd - 1 ↔ source.hi < region.hi := by
  have hend := toNat_exclusiveEnd hhi
  have hend' := toNat_exclusiveEnd hhi'
  have hone : (1 : BitVec 64).toNat = 1 := rfl
  rw [lt_def, toNat_sub_of_le (by rw [le_def]; omega), toNat_sub_of_le (by rw [le_def]; omega)]
  omega

section

variable (h : Inv self)
include h

/-- A region that passes the checks of `AddRegion` and `SubtractRegion`. -/
theorem Inv.addSubtractSanityCheckLocked
    (hcheck : self.addSubtractSanityCheckLocked region = none) :
    region.lo < region.hi ∧ region.hi < 2 ^ 64 ∧ Disjoint self.allocated region.addresses := by
  rw [RegionAllocator.addSubtractSanityCheckLocked] at hcheck
  split_ifs at hcheck with hwraps hintersects
  have hlt : region.base.toNat < (region.base.toNat + region.size.toNat) % 2 ^ 64 := by
    rw [le_def, exclusiveEnd, toNat_add] at hwraps
    omega
  have hhi : region.hi < 2 ^ 64 := by
    simp only [hi]
    omega
  refine ⟨?_, hhi, ?_⟩
  · simp only [lo, hi] at hhi ⊢
    omega
  · exact disjoint_of_not_intersectsLocked h.allocatedSpaced h.allocatedBounded hhi
      (Bool.eq_false_of_not_eq_true hintersects)

/-- The invariant of a state in which more addresses are available. -/
theorem Inv.of_union (hrep : Represents self' (self.avail ∪ region.addresses))
    (hhi : region.hi < 2 ^ 64) (hspaced : Spaced lo hi 0 self'.allocatedRegionsByBase)
    (hallocated : self'.allocated ⊆ self.allocated)
    (hdisjoint : Disjoint self'.allocated region.addresses) : Inv self' := by
  refine ⟨hrep.avail_eq.symm ▸ hrep, hspaced, ?_, ?_, hallocated.trans h.allocatedBounded⟩
  · rw [hrep.avail_eq]
    exact disjoint_union_left.mpr ⟨h.disjoint.mono_right hallocated, hdisjoint.symm⟩
  · rw [hrep.avail_eq]
    refine union_subset h.availBounded fun x hx => mem_Iio.mpr ?_
    have hx' := (mem_Ico.mp hx).2
    omega

/-- The invariant of a state in which fewer addresses are available. -/
theorem Inv.of_diff {part : Set ℕ} (hrep : Represents self' (self.avail \ part))
    (hallocated : self'.allocatedRegionsByBase = self.allocatedRegionsByBase) : Inv self' := by
  have heq : self'.allocated = self.allocated := by rw [allocated, hallocated, allocated]
  refine ⟨hrep.avail_eq.symm ▸ hrep, hallocated ▸ h.allocatedSpaced, ?_, ?_,
    heq ▸ h.allocatedBounded⟩
  · rw [hrep.avail_eq, heq]
    exact h.disjoint.mono_left sdiff_subset
  · rw [hrep.avail_eq]
    exact sdiff_subset.trans h.availBounded

theorem Inv.addRegion :
    Outcome self (fun _ self' => Inv self' ∧
        self'.avail = self.avail ∪ region.addresses ∧ self'.allocated = self.allocated ∧
        Disjoint self.allocated region.addresses ∧
        (allowOverlap = false → Disjoint self.avail region.addresses))
      (self.addRegion region allowOverlap created) := by
  rw [RegionAllocator.addRegion]
  cases hcheck : self.addSubtractSanityCheckLocked region with
  | some status => exact .error status
  | none =>
    obtain ⟨hlt, hhi, hdisjoint⟩ := h.addSubtractSanityCheckLocked hcheck
    split_ifs with hoverlap hcreated
    · exact .error _
    · have hfree : allowOverlap = false → Disjoint self.avail region.addresses := by
        intro hno
        refine disjoint_of_not_intersectsLocked h.holds.spaced h.availBounded hhi ?_
        exact Bool.eq_false_of_not_eq_true fun hintersects => hoverlap ⟨by simp [hno], hintersects⟩
      obtain ⟨hrep, hallocated⟩ := addRegionToAvailLocked_spec h.holds
        h.availHi hlt hhi hfree
      have heq : (self.addRegionToAvailLocked region allowOverlap).allocated = self.allocated := by
        rw [allocated, hallocated, allocated]
      refine .ok ⟨?_, hrep.avail_eq, heq, hdisjoint, hfree⟩
      exact h.of_union hrep hhi (hallocated ▸ h.allocatedSpaced) heq.le (heq ▸ hdisjoint)
    · exact .error _

theorem Inv.subtractRegion :
    Outcome self (fun _ self' => Inv self' ∧
        self'.avail = self.avail \ region.addresses ∧ self'.allocated = self.allocated ∧
        Disjoint self.allocated region.addresses ∧
        (allowIncomplete = false → region.addresses ⊆ self.avail))
      (self.subtractRegion region allowIncomplete created) := by
  rw [RegionAllocator.subtractRegion]
  cases hcheck : self.addSubtractSanityCheckLocked region with
  | some status => exact .error status
  | none =>
    obtain ⟨hlt, hhi, hdisjoint⟩ := h.addSubtractSanityCheckLocked hcheck
    have hend := toNat_exclusiveEnd hhi
    have hholds := h.holds
    have havail : self.avail = cover lo hi self.availRegionsByBase := rfl
    have hbound := h.availHi
    obtain ⟨hsplit, hupTo, hafter⟩ := upperBound_spec hholds.spaced region.base
    generalize self.availRegionsByBase = l at *
    generalize upperBound l region.base = bounds at hsplit hupTo hafter ⊢
    obtain ⟨upTo, after⟩ := bounds
    dsimp only at hsplit hupTo hafter ⊢
    subst hsplit
    cases hcontainer : upTo.getLast?.filter fun r =>
        r.base ≤ region.base ∧ region.exclusiveEnd ≤ r.exclusiveEnd with
    | some before =>
      obtain ⟨hlast, hcontains⟩ := Option.filter_eq_some_iff.mp hcontainer
      have hmem : before ∈ upTo ++ after :=
        mem_append_left after (mem_of_getLast? hlast)
      have hbefore := toNat_exclusiveEnd (hbound before hmem)
      obtain ⟨hle, hendLe⟩ := of_decide_eq_true hcontains
      rw [le_def, hend, hbefore] at hendLe
      have hle' : before.lo ≤ region.lo := le_def.mp hle
      refine (subtractContained_spec hholds hmem (hbound before hmem) hlt hle' hendLe).imp ?_
      rintro - self' ⟨hrep, hallocated⟩
      rw [← havail] at hrep
      refine ⟨h.of_diff hrep hallocated, hrep.avail_eq, ?_, hdisjoint, ?_⟩
      · rw [allocated, hallocated, allocated]
      · intro _ x hx
        rw [havail]
        exact ⟨before, hmem, hle'.trans hx.1, hx.2.trans_le hendLe⟩
    | none =>
      split_ifs with hincomplete
      · have hends : ∀ r ∈ upTo, r.lo ≤ region.lo ∧ r.hi < region.hi := by
          intro r hr
          refine ⟨hupTo r hr, ?_⟩
          obtain ⟨front, before, rfl, hne, hlast⟩ :=
            (spaced_append.mp hholds.spaced).1.exists_concat_of_mem hr
          have hmem : before ∈ front ++ [before] := mem_concat_self
          have hbefore := toNat_exclusiveEnd
            (hbound before (mem_append_left after hmem))
          have hbeforeHi : before.hi < region.hi := by
            by_contra hge
            rw [getLast?_concat, Option.filter_eq_none_iff] at hcontainer
            refine hcontainer before rfl (decide_eq_true ⟨le_def.mpr (hupTo before hmem), ?_⟩)
            rw [le_def]
            omega
          rcases hlast with rfl | hgap
          · exact hbeforeHi
          · omega
        have hrep := subtractAfter_subtractBefore_spec hholds hbound hhi hends hafter
        have hallocated : (subtractAfter region.exclusiveEnd after
            (self.subtractBefore region upTo.getLast?)).allocatedRegionsByBase =
              self.allocatedRegionsByBase :=
          allocated_subtractAfter.trans allocated_subtractBefore
        rw [← havail] at hrep
        refine .ok ⟨h.of_diff hrep hallocated, hrep.avail_eq, ?_, hdisjoint, ?_⟩
        · rw [allocated, hallocated, allocated]
        · intro hno
          rw [hno] at hincomplete
          cases hincomplete
      · exact .error _

/-- A part of an available region is handed out. -/
theorem Inv.allocFromAvailLocked {source : Region} {created : ℕ → Bool}
    (hsource : source ∈ self.availRegionsByBase) (hsize : 0 < size.toNat)
    (hlo : source.lo ≤ base.toNat) (hhi : base.toNat + size.toNat ≤ source.hi) :
    Outcome self (fun out self' => out = ⟨base, size⟩ ∧ Inv self' ∧ out.addresses ⊆ self.avail ∧
        self'.avail = self.avail \ out.addresses ∧
        self'.allocated = self.allocated ∪ out.addresses)
      (self.allocFromAvailLocked source base size created) := by
  refine (allocFromAvailLocked_spec h.holds hsource (h.availHi source hsource) hsize hlo
    hhi).imp ?_
  rintro - - ⟨rfl, self', rfl, hrep, hallocated⟩
  have hsubset : addresses ⟨base, size⟩ ⊆ self.avail := by
    intro x hx
    exact ⟨source, hsource, hlo.trans hx.1, hx.2.trans_le hhi⟩
  obtain ⟨hspaced, hcover⟩ := @insertAllocated_spec _ ⟨base, size⟩ h.allocatedSpaced
    (Nat.lt_add_of_pos_right hsize) (h.disjoint.symm.mono_right hsubset)
  rw [← hallocated] at hspaced hcover
  have heq : (self'.insertAllocated ⟨base, size⟩).allocated =
      self.allocated ∪ addresses ⟨base, size⟩ := by
    refine Eq.trans hcover ?_
    rw [hallocated, allocated]
  have hrep' : Represents (self'.insertAllocated ⟨base, size⟩)
      (self.avail \ addresses ⟨base, size⟩) := by
    obtain ⟨l, hindexed, hlist⟩ := hrep
    exact ⟨l, { hindexed with }, hlist⟩
  refine ⟨rfl, ⟨hrep'.avail_eq.symm ▸ hrep', hspaced, ?_, ?_, ?_⟩, hsubset, hrep'.avail_eq, heq⟩
  · rw [hrep'.avail_eq, heq, disjoint_union_right]
    exact ⟨h.disjoint.mono_left sdiff_subset, disjoint_sdiff_left⟩
  · rw [hrep'.avail_eq]
    exact sdiff_subset.trans h.availBounded
  · rw [heq]
    exact union_subset h.allocatedBounded (hsubset.trans h.availBounded)

theorem Inv.getRegionBySize {created : ℕ → Bool} :
    Outcome self (fun out self' => Inv self' ∧ out.size = size ∧
        out.base &&& (alignment - 1) = 0 ∧ out.addresses ⊆ self.avail ∧
        self'.avail = self.avail \ out.addresses ∧
        self'.allocated = self.allocated ∪ out.addresses)
      (self.getRegionBySize size alignment created) := by
  rw [RegionAllocator.getRegionBySize]
  split_ifs with hargs
  · exact .error _
  · have hsize : 0 < size.toNat :=
      Nat.pos_of_ne_zero fun hzero => hargs (.inl (eq_of_toNat_eq hzero))
    dsimp only
    cases hfind : (self.availRegionsBySize.dropWhile fun r =>
        decide (Region.SizeLt r ⟨0, size⟩)).find? (usable size (alignment - 1)) with
    | none => exact .error _
    | some source =>
      have hdrop := mem_of_find?_eq_some hfind
      have hmem : source ∈ self.availRegionsByBase :=
        h.holds.bySize.mem_iff.mp ((dropWhile_sublist _).subset hdrop)
      have hlarge : size.toNat ≤ source.size.toNat := by
        have hnot := not_of_mem_dropWhile h.holds.sorted ?_ source hdrop
        · have hnot' := of_decide_eq_false hnot
          simp only [SizeLt, lt_def] at hnot'
          omega
        · intro a b hab ha
          have ha' := of_decide_eq_false ha
          refine decide_eq_false fun hb => ha' ?_
          simp only [SizeLt, SizeLe, lt_def, le_def, toNat_eq] at hab hb ⊢
          omega
      obtain ⟨hlo, hhi⟩ := (usable_iff hlarge).mp (find?_some hfind)
      refine (h.allocFromAvailLocked hmem hsize hlo hhi).imp ?_
      rintro - self' ⟨rfl, hinv, hmeaning⟩
      refine ⟨hinv, rfl, ?_, hmeaning⟩
      change (source.base + (alignment - 1)) &&& ~~~(alignment - 1) &&& (alignment - 1) = 0
      rw [BitVec.and_assoc, BitVec.and_comm (~~~_), BitVec.and_not_self]
      exact and_zero

theorem Inv.getRegionAt {created : ℕ → Bool} :
    Outcome self (fun out self' => out = region ∧ Inv self' ∧ out.addresses ⊆ self.avail ∧
        self'.avail = self.avail \ out.addresses ∧
        self'.allocated = self.allocated ∪ out.addresses)
      (self.getRegionAt region created) := by
  rw [RegionAllocator.getRegionAt]
  split_ifs with hargs
  · exact .error _
  · have hsize : 0 < region.size.toNat :=
      Nat.pos_of_ne_zero fun hzero => hargs (.inl (eq_of_toNat_eq hzero))
    have hbound : region.hi < 2 ^ 64 := by
      have hnot : ¬ (region.base + region.size).toNat < region.base.toNat :=
        fun hlt => hargs (.inr (lt_def.mpr hlt))
      rw [toNat_add] at hnot
      simp only [hi]
      omega
    obtain ⟨hsplit, hupTo, -⟩ := upperBound_spec h.holds.spaced region.base
    cases hlast : (upperBound self.availRegionsByBase region.base).1.getLast? with
    | none => exact .error _
    | some source =>
      have hupTo' := mem_of_getLast? hlast
      have hmem : source ∈ self.availRegionsByBase := by
        rw [← hsplit]
        exact mem_append_left _ hupTo'
      have hlo := hupTo source hupTo'
      dsimp only
      split_ifs with hbeyond
      · exact .error _
      · rw [exclusiveEnd_sub_one_lt_iff (h.holds.spaced.nonempty source hmem)
          (h.availHi source hmem) (Nat.lt_add_of_pos_right hsize) hbound] at hbeyond
        exact h.allocFromAvailLocked hmem hsize hlo (Nat.le_of_not_lt hbeyond)

theorem Inv.releaseRegion (hmem : region ∈ self.allocatedRegionsByBase) :
    Inv (self.releaseRegion region) ∧ region.addresses ⊆ self.allocated ∧
      (self.releaseRegion region).avail = self.avail ∪ region.addresses ∧
      (self.releaseRegion region).allocated = self.allocated \ region.addresses := by
  obtain ⟨front, rest, hsplit⟩ := append_of_mem hmem
  have hspaced := h.allocatedSpaced
  rw [hsplit] at hspaced
  have hhi := hi_lt_of_cover h.allocatedSpaced h.allocatedBounded hmem
  have hlt := h.allocatedSpaced.nonempty region hmem
  have hsubset : region.addresses ⊆ self.allocated := fun x hx => ⟨region, hmem, hx⟩
  have herase : self.allocatedRegionsByBase.erase region = front ++ rest := by
    rw [hsplit, erase_append_right _ hspaced.not_mem_front, erase_cons_head]
  have hremoved : cover lo hi (front ++ rest) =
      self.allocated \ region.addresses := by
    have hnone : cover lo hi [] = region.addresses \ region.addresses := by
      rw [cover_nil, sdiff_self]
    rw [allocated, hsplit]
    exact hspaced.cover_replace (fun _ hx => hx) hnone
  have hholds : Holds
      { self with allocatedRegionsByBase := self.allocatedRegionsByBase.erase region }
      self.availRegionsByBase :=
    ⟨⟨rfl, h.holds.bySize, h.holds.sorted⟩, h.holds.spaced⟩
  obtain ⟨hrep, hallocated⟩ := @addRegionToAvailLocked_spec _ _ region false hholds
    h.availHi hlt hhi fun _ => h.disjoint.mono_right hsubset
  have heq : (self.releaseRegion region).allocated = self.allocated \ region.addresses := by
    rw [allocated, RegionAllocator.releaseRegion, hallocated]
    rw [herase, hremoved]
  refine ⟨h.of_union hrep hhi ?_ ?_ ?_, hsubset, hrep.avail_eq, heq⟩
  · change Spaced _ _ 0
      (RegionAllocator.addRegionToAvailLocked _ region false).allocatedRegionsByBase
    rw [hallocated]
    exact ⟨fun a ha => h.allocatedSpaced.nonempty a (mem_of_mem_erase ha),
      h.allocatedSpaced.ordered.sublist erase_sublist⟩
  · exact heq.trans_subset sdiff_subset
  · exact heq ▸ disjoint_sdiff_left

end

theorem inv_new : Inv ⟨[], [], []⟩ := by
  have havail : avail ⟨[], [], []⟩ = ∅ := cover_nil
  have hallocated : allocated ⟨[], [], []⟩ = ∅ := cover_nil
  refine ⟨⟨[], ⟨rfl, .refl _, .nil⟩, .nil, rfl⟩, .nil, ?_, ?_, ?_⟩
  · rw [havail]
    exact empty_disjoint _
  · rw [havail]
    exact empty_subset _
  · rw [hallocated]
    exact empty_subset _

/-- The outcome of a call, as the result of a step. -/
theorem Outcome.of_step {α : Type} {P : α → RegionAllocator → Prop} {f : α → Option Region}
    {run : Except Status α × RegionAllocator}
    (h : Outcome self P run) (hstep : some (run.1.map f, run.2) = some (result, self')) :
    (self' = self ∧ ∃ status, result = .error status) ∨
      ∃ out, result = .ok (f out) ∧ P out self' := by
  cases h with
  | error status =>
    cases hstep
    exact .inl ⟨rfl, status, rfl⟩
  | ok h =>
    cases hstep
    exact .inr ⟨_, rfl, h⟩

/-- A call keeps the invariant and does what it means. -/
theorem Inv.step (h : Inv self) {call : Call} (hstep : self.step call = some (result, self')) :
    Inv self' ∧ call.Meaning self.avail self.allocated self'.avail self'.allocated result := by
  cases call with
  | addRegion region allowOverlap created =>
    rcases h.addRegion.of_step hstep with ⟨rfl, status, rfl⟩ | ⟨-, rfl, hinv, hmeaning⟩
    · exact ⟨h, rfl, rfl⟩
    · exact ⟨hinv, hmeaning⟩
  | subtractRegion region allowIncomplete created =>
    rcases h.subtractRegion.of_step hstep with ⟨rfl, status, rfl⟩ | ⟨-, rfl, hinv, hmeaning⟩
    · exact ⟨h, rfl, rfl⟩
    · exact ⟨hinv, hmeaning⟩
  | getRegionBySize size alignment created =>
    rcases h.getRegionBySize.of_step hstep with ⟨rfl, status, rfl⟩ | ⟨out, rfl, hinv, hmeaning⟩
    · exact ⟨h, rfl, rfl⟩
    · exact ⟨hinv, out, rfl, hmeaning⟩
  | getRegionAt region created =>
    rcases h.getRegionAt.of_step hstep with ⟨rfl, status, rfl⟩ | ⟨_, rfl, rfl, hinv, hmeaning⟩
    · exact ⟨h, rfl, rfl⟩
    · exact ⟨hinv, rfl, hmeaning⟩
  | releaseRegion region =>
    rw [RegionAllocator.step] at hstep
    split_ifs at hstep with hmem
    cases hstep
    exact h.releaseRegion hmem

theorem Reachable.inv (h : Reachable self) : Inv self := by
  induction h with
  | new => exact inv_new
  | call _ hstep ih => exact (ih.step hstep).1

/-- In every reachable state no address is both available and allocated, the two trees hold the
same available regions, and no two of these overlap or touch; each call does to the two sets what
it means, or fails and changes neither. -/
theorem Reachable.bookkeeping (h : Reachable self) :
    Disjoint self.avail self.allocated ∧
      self.availRegionsBySize.Perm self.availRegionsByBase ∧
      self.availRegionsByBase.Pairwise (fun a b => a.hi < b.lo) ∧
      ∀ call result self', self.step call = some (result, self') →
        call.Meaning self.avail self.allocated self'.avail self'.allocated result := by
  have hinv := h.inv
  refine ⟨hinv.disjoint, hinv.holds.bySize, hinv.holds.spaced.ordered, ?_⟩
  intro call result self' hstep
  exact (hinv.step hstep).2

theorem reachable_onePage : Reachable ⟨[], [⟨0x1000, 0x1000⟩], [⟨0x1000, 0x1000⟩]⟩ := by
  have hstep : step ⟨[], [], []⟩ (.addRegion ⟨0x1000, 0x1000⟩ false true) =
      some (.ok none, ⟨[], [⟨0x1000, 0x1000⟩], [⟨0x1000, 0x1000⟩]⟩) := rfl
  exact .call .new hstep

def oneTaken : RegionAllocator :=
  ⟨[⟨0x1400, 0x200⟩], [⟨0x1000, 0x400⟩, ⟨0x1600, 0xa00⟩], [⟨0x1000, 0x400⟩, ⟨0x1600, 0xa00⟩]⟩

theorem reachable_oneTaken : Reachable oneTaken := by
  have hstep : step ⟨[], [⟨0x1000, 0x1000⟩], [⟨0x1000, 0x1000⟩]⟩
      (.getRegionAt ⟨0x1400, 0x200⟩ fun _ => true) =
      some (.ok (some ⟨0x1400, 0x200⟩), oneTaken) := by
    decide
  exact .call reachable_onePage hstep

/-- The allocated part of the page is released again. -/
theorem Reachable.bookkeeping_onePage :
    Disjoint oneTaken.avail oneTaken.allocated ∧
      oneTaken.availRegionsBySize.Perm oneTaken.availRegionsByBase ∧
      oneTaken.availRegionsByBase.Pairwise (fun a b => a.hi < b.lo) ∧
      ∃ self', oneTaken.step (.releaseRegion ⟨0x1400, 0x200⟩) = some (.ok none, self') ∧
        self'.availRegionsByBase = [⟨0x1000, 0x1000⟩] ∧
        (Call.releaseRegion ⟨0x1400, 0x200⟩).Meaning oneTaken.avail oneTaken.allocated
          self'.avail self'.allocated (.ok none) := by
  have hstep : oneTaken.step (.releaseRegion ⟨0x1400, 0x200⟩) =
      some (.ok none, ⟨[], [⟨0x1000, 0x1000⟩], [⟨0x1000, 0x1000⟩]⟩) := by
    decide
  obtain ⟨hdisjoint, hperm, hordered, hmeaning⟩ := Reachable.bookkeeping reachable_oneTaken
  exact ⟨hdisjoint, hperm, hordered, _, hstep, rfl, hmeaning _ _ _ hstep⟩

end RegionAllocator

end Smos.RegionAlloc
