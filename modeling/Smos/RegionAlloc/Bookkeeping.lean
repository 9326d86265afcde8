import Smos.RegionAlloc.Trees

/-!
The sets of available and of allocated addresses of a region allocator.

Each operation is shown to do on the two sets what it is for, or to fail and change nothing, from
any state whose trees hold the same regions, no two of which overlap or touch.
-/
namespace Smos.RegionAlloc

open Lib Lib.Intervals Region List Set

namespace RegionAllocator

variable {self : RegionAllocator} {l upTo after front rest : List Region} {r r' region : Region}
  {base size regionEnd : BitVec 64} {allowOverlap : Bool} {addresses : Set ℕ}

/-- Both trees of available regions hold the same regions, no two of which overlap or touch, and
these cover a set. -/
def Represents (alloc : RegionAllocator) (addresses : Set ℕ) : Prop :=
  ∃ l, Indexed alloc l ∧ Spaced Region.lo Region.hi 1 l ∧ cover Region.lo Region.hi l = addresses

section

variable (h : Represents self addresses)
include h

theorem Represents.avail_eq :
    self.avail = addresses := by
  obtain ⟨l, hindexed, -, hcover⟩ := h
  rw [avail, hindexed.byBase, hcover]

end

/-- A call fails and changes nothing, or returns a value and a state that have a property. -/
inductive Outcome {α : Type} (self : RegionAllocator) (P : α → RegionAllocator → Prop) :
    Except Status α × RegionAllocator → Prop
  | error (status : Status) : Outcome self P (.error status, self)
  | ok {out : α} {self' : RegionAllocator} (h : P out self') : Outcome self P (.ok out, self')

theorem Outcome.imp {α : Type} {P Q : α → RegionAllocator → Prop}
    {result : Except Status α × RegionAllocator} (h : Outcome self P result)
    (hPQ : ∀ out self', P out self' → Q out self') : Outcome self Q result := by
  cases h with
  | error status => exact .error status
  | ok h => exact .ok (hPQ _ _ h)

section Cut

section

variable (h : Holds self l) (hr : r ∈ l)
include h hr

/-- The whole of an available region is taken. -/
theorem represents_eraseAvail :
    Represents (self.eraseAvail r) (cover lo hi l \ r.addresses) := by
  obtain ⟨front, rest, rfl⟩ := append_of_mem hr
  refine ⟨front ++ rest, h.erase.toIndexed, h.erase.spaced, ?_⟩
  have hnone : cover lo hi [] = r.addresses \ r.addresses := by
    rw [cover_nil, sdiff_self]
  exact h.spaced.cover_replace (fun _ hx => hx) hnone

/-- One end of an available region is taken and the other is left. -/
theorem represents_editAvail (hne : r'.lo < r'.hi) (hregion : region.lo < region.hi)
    (hcut : region.lo = r.lo ∧ region.hi = r'.lo ∧ r'.hi = r.hi ∨
      r'.lo = r.lo ∧ r'.hi = region.lo ∧ region.hi = r.hi) :
    Represents (self.editAvail r r') (cover lo hi l \ region.addresses) := by
  obtain ⟨front, rest, rfl⟩ := append_of_mem hr
  have hedit := h.edit hne (by omega) (by omega)
  refine ⟨front ++ r' :: rest, hedit.toIndexed, hedit.spaced, ?_⟩
  refine h.spaced.cover_replace (m := [r']) (Ico_subset_Ico (by omega) (by omega)) ?_
  ext x
  simp only [addresses, cover_cons, cover_nil, union_empty, mem_sdiff, mem_Ico]
  omega

/-- The middle of an available region is taken and its two ends are left. -/
theorem represents_editAvail_insertAvail {r₁ r₂ : Region}
    (hregion : region.lo < region.hi) (h₁ : r₁.lo = r.lo ∧ r.lo < r₁.hi ∧ r₁.hi = region.lo)
    (h₂ : region.hi = r₂.lo ∧ r₂.lo < r₂.hi ∧ r₂.hi = r.hi) :
    Represents ((self.editAvail r r₁).insertAvail r₂)
      (cover lo hi l \ region.addresses) := by
  obtain ⟨front, rest, rfl⟩ := append_of_mem hr
  have hspaced : Spaced lo hi 1 [r₁, r₂] := by
    refine spaced_cons.mpr ⟨by omega, .singleton h₂.2.1, ?_⟩
    intro b hb
    rw [mem_singleton.mp hb]
    omega
  have hreplaced := h.spaced.replace hspaced (by simp; omega)
  have hedit : Indexed (self.editAvail r r₁) (front ++ r₁ :: rest) :=
    h.editAvail h.spaced.not_mem_front
  refine ⟨front ++ r₁ :: r₂ :: rest, ?_, hreplaced, ?_⟩
  · have hlt : ((front ++ [r₁]) ++ r₂ :: rest).Pairwise fun a b => a.lo < b.lo := by
      simpa using hreplaced.lo_lt
    obtain ⟨-, htail, hbetween⟩ := pairwise_append.mp hlt
    rw [append_cons] at hedit ⊢
    refine hedit.insertAvail ?_ ?_
    · intro b hb
      exact hbetween b hb r₂ mem_cons_self
    · intro b hb
      exact ((pairwise_cons.mp htail).1 b hb).le
  · refine h.spaced.cover_replace (m := [r₁, r₂]) (Ico_subset_Ico (by omega) (by omega)) ?_
    ext x
    simp only [addresses, cover_cons, cover_nil, union_empty, mem_union,
      mem_sdiff, mem_Ico]
    omega

end

end Cut

section Subtract

theorem subtractContained_spec {before : Region} {created : Bool} (h : Holds self l)
    (hbefore : before ∈ l) (hbound : before.hi < 2 ^ 64) (hregion : region.lo < region.hi)
    (hlo : before.lo ≤ region.lo) (hhi : region.hi ≤ before.hi) :
    Outcome self (fun _ self' =>
        Represents self' (cover lo hi l \ region.addresses) ∧
          self'.allocatedRegionsByBase = self.allocatedRegionsByBase)
      (self.subtractContained region before created) := by
  have hregionEnd := toNat_exclusiveEnd (Nat.lt_of_le_of_lt hhi hbound)
  have hbeforeEnd := toNat_exclusiveEnd hbound
  have hbase : region.base = before.base ↔ region.lo = before.lo := BitVec.toNat_inj.symm
  have hend : region.exclusiveEnd = before.exclusiveEnd ↔ region.hi = before.hi := by
    rw [← BitVec.toNat_inj, hregionEnd, hbeforeEnd]
  have hlen : region.hi = region.lo + region.size.toNat := rfl
  have hlen' : before.hi = before.lo + before.size.toNat := rfl
  have hsize : region.size.toNat ≤ before.size.toNat := by omega
  unfold subtractContained
  simp only [hbase, hend, ne_eq]
  split_ifs with hsame hsplit hcreated hfront
  · refine .ok ⟨?_, rfl⟩
    have haddresses : region.addresses = before.addresses := by
      rw [addresses, addresses, hsame.1, hsame.2]
    rw [haddresses]
    exact represents_eraseAvail h hbefore
  · have hfirst : hi ⟨before.base, region.base - before.base⟩ = region.lo :=
      hi_of_sub hlo
    have hsecond : hi ⟨region.exclusiveEnd, before.exclusiveEnd - region.exclusiveEnd⟩ =
        before.hi := by
      rw [hi_of_sub (by omega), hbeforeEnd]
    refine .ok ⟨represents_editAvail_insertAvail h hbefore hregion ?_ ?_, rfl⟩
    · exact ⟨rfl, by omega, hfirst⟩
    · refine ⟨hregionEnd.symm, ?_, hsecond⟩
      change region.exclusiveEnd.toNat < _
      omega
  · exact .error _
  · obtain ⟨hnewLo, hnewHi⟩ := trimFront hbound hsize
    exact .ok ⟨represents_editAvail h hbefore (by omega) hregion (by omega), rfl⟩
  · have hnewHi := trimEnd hsize
    have hnewLo : lo ⟨before.base, before.size - region.size⟩ = before.lo := rfl
    exact .ok ⟨represents_editAvail h hbefore (by omega) hregion (by omega), rfl⟩

/-- What is subtracted is taken from the regions up to the one at its start. -/
theorem subtractBefore_spec (h : Holds self (upTo ++ after)) (hbound : ∀ r ∈ upTo, r.hi < 2 ^ 64)
    (hupTo : ∀ r ∈ upTo, r.lo ≤ region.lo) :
    ∃ upTo', Holds (self.subtractBefore region upTo.getLast?) (upTo' ++ after) ∧
      cover lo hi upTo' = cover lo hi upTo ∩ Iio region.lo := by
  rcases (spaced_append.mp h.spaced).1.eq_nil_or_concat with
    rfl | ⟨front, before, rfl, hne, hfront⟩
  · refine ⟨[], h, ?_⟩
    rw [cover_nil, empty_inter]
  · have hend := toNat_exclusiveEnd (hbound before mem_concat_self)
    have hlo := hupTo before mem_concat_self
    have hlt : region.base < before.exclusiveEnd ↔ region.lo < before.hi := by
      rw [BitVec.lt_def, hend]
      rfl
    rw [getLast?_concat, subtractBefore, cover_concat_inter_Iio fun b hb => by
      have hb := hfront b hb
      omega]
    simp only [hlt]
    split_ifs with hin heq
    · have heq' : before.lo = region.lo := congrArg BitVec.toNat heq
      rw [← append_cons] at h
      refine ⟨front, h.erase, ?_⟩
      rw [Ico_eq_empty (by omega), union_empty]
    · have hne' : before.lo ≠ region.lo := fun heq' => heq (BitVec.eq_of_toNat_eq heq')
      have hnewHi : hi ⟨before.base, region.base - before.base⟩ = region.lo :=
        hi_of_sub hlo
      have hnewLo : lo ⟨before.base, region.base - before.base⟩ = before.lo := rfl
      rw [← append_cons] at h
      refine ⟨front ++ [⟨before.base, region.base - before.base⟩], ?_, ?_⟩
      · rw [append_assoc]
        exact h.edit (by omega) hnewLo.ge (by omega)
      · rw [cover_append, cover_cons, cover_nil, union_empty, hnewHi, hnewLo,
          Nat.min_eq_right hin.le]
    · refine ⟨front ++ [before], h, ?_⟩
      rw [cover_append, cover_cons, cover_nil, union_empty,
        Nat.min_eq_left (Nat.le_of_not_lt hin)]

/-- What is subtracted is taken from the regions after its start. -/
theorem subtractAfter_spec (h : Holds self (front ++ after))
    (hbound : ∀ r ∈ after, r.hi < 2 ^ 64) :
    ∃ after', Holds (subtractAfter regionEnd after self) (front ++ after') ∧
      cover lo hi after' =
        cover lo hi after ∩ Ici regionEnd.toNat := by
  induction after generalizing self with
  | nil => exact ⟨[], h, by rw [cover_nil, empty_inter]⟩
  | cons trim after ih =>
    have hend := toNat_exclusiveEnd (hbound trim mem_cons_self)
    obtain ⟨hne, hafter, hgap⟩ := spaced_cons.mp (spaced_append.mp h.spaced).2.1
    have hcover : regionEnd.toNat ≤ trim.hi →
        cover lo hi (trim :: after) ∩ Ici regionEnd.toNat =
          Set.Ico (max trim.lo regionEnd.toNat) trim.hi ∪ cover lo hi after := by
      intro hle
      refine cover_cons_inter_Ici fun b hb => ?_
      have hb := hgap b hb
      omega
    rw [subtractAfter]
    simp only [BitVec.le_def, BitVec.lt_def, hend]
    split_ifs with hstop htrim hdone
    · have hstop' : regionEnd.toNat ≤ trim.lo := hstop
      refine ⟨trim :: after, h, ?_⟩
      rw [hcover (by omega), Nat.max_eq_left hstop', cover_cons]
    · have hstop' : trim.lo < regionEnd.toNat := Nat.lt_of_not_le hstop
      have hnewHi : hi ⟨regionEnd, trim.exclusiveEnd - regionEnd⟩ = trim.hi := by
        rw [hi_of_sub (by omega), hend]
      have hnewLo : lo ⟨regionEnd, trim.exclusiveEnd - regionEnd⟩ = regionEnd.toNat := rfl
      refine ⟨⟨regionEnd, trim.exclusiveEnd - regionEnd⟩ :: after,
        h.edit (by omega) hstop'.le hnewHi.le, ?_⟩
      rw [hcover htrim.le, Nat.max_eq_right hstop'.le, cover_cons, hnewHi, hnewLo]
    · have hsame : regionEnd.toNat = trim.hi := by
        have hzero := congrArg BitVec.toNat hdone
        rw [BitVec.toNat_sub_of_le (BitVec.le_def.mpr (by omega))] at hzero
        have hzero' : regionEnd.toNat - trim.exclusiveEnd.toNat = 0 := hzero
        omega
      refine ⟨after, h.erase, ?_⟩
      rw [hcover hsame.le, Ico_eq_empty (by omega), empty_union]
    · obtain ⟨after', h', hcover'⟩ := ih h.erase fun b hb =>
        hbound b (mem_cons_of_mem trim hb)
      refine ⟨after', h', ?_⟩
      rw [hcover']
      ext x
      simp only [cover_cons, Set.mem_inter_iff, mem_union, mem_Ico, mem_Ici]
      constructor
      · rintro ⟨hafter, hle⟩
        exact ⟨.inr hafter, hle⟩
      · rintro ⟨htrim | hafter, hle⟩
        · omega
        · exact ⟨hafter, hle⟩

/-- What is subtracted is taken from all the regions, when none of them contains the whole of it. -/
theorem subtractAfter_subtractBefore_spec (h : Holds self (upTo ++ after))
    (hbound : ∀ r ∈ upTo ++ after, r.hi < 2 ^ 64) (hregionEnd : region.hi < 2 ^ 64)
    (hupTo : ∀ r ∈ upTo, r.lo ≤ region.lo ∧ r.hi < region.hi)
    (hafter : ∀ r ∈ after, region.lo < r.lo) :
    Represents (subtractAfter region.exclusiveEnd after (self.subtractBefore region upTo.getLast?))
      (cover lo hi (upTo ++ after) \ region.addresses) := by
  obtain ⟨upTo', h₁, hcover₁⟩ := subtractBefore_spec h
    (fun r hr => hbound r (mem_append_left after hr)) fun r hr => (hupTo r hr).1
  obtain ⟨after', h₂, hcover₂⟩ := @subtractAfter_spec _ _ _ region.exclusiveEnd h₁
    fun r hr => hbound r (mem_append_right upTo hr)
  refine ⟨upTo' ++ after', h₂.toIndexed, h₂.spaced, ?_⟩
  rw [toNat_exclusiveEnd hregionEnd] at hcover₂
  have hfirst : ∀ x ∈ cover lo hi upTo, x < region.hi := by
    rintro x ⟨r, hr, -, hx⟩
    exact hx.trans (hupTo r hr).2
  have hlast : ∀ x ∈ cover lo hi after, region.lo ≤ x := by
    rintro x ⟨r, hr, hx, -⟩
    exact (hafter r hr).le.trans hx
  ext x
  simp only [cover_append, hcover₁, hcover₂, addresses, mem_union, mem_inter_iff,
    mem_Iio, mem_Ici, mem_sdiff, mem_Ico]
  constructor
  · rintro (⟨hx, hlt⟩ | ⟨hx, hle⟩)
    · exact ⟨.inl hx, by omega⟩
    · exact ⟨.inr hx, by omega⟩
  · rintro ⟨hx | hx, hnot⟩
    · have hlt := hfirst x hx
      exact .inl ⟨hx, by omega⟩
    · have hle := hlast x hx
      exact .inr ⟨hx, by omega⟩

theorem allocated_subtractBefore {before : Option Region} :
    (self.subtractBefore region before).allocatedRegionsByBase = self.allocatedRegionsByBase := by
  cases before with
  | none => rfl
  | some before =>
    rw [subtractBefore]
    split_ifs <;> rfl

theorem allocated_subtractAfter :
    (subtractAfter regionEnd after self).allocatedRegionsByBase = self.allocatedRegionsByBase := by
  induction after generalizing self with
  | nil => rfl
  | cons trim after ih =>
    rw [subtractAfter]
    dsimp only
    split_ifs
    · rfl
    · rfl
    · rfl
    · exact ih

end Subtract

section Add

theorem toNat_stdMax (a b : BitVec 64) : (stdMax a b).toNat = max a.toNat b.toNat := by
  rw [stdMax]
  split_ifs with h
  · exact (Nat.max_eq_right (BitVec.lt_def.mp h).le).symm
  · exact (Nat.max_eq_left (Nat.le_of_not_lt fun hlt => h (BitVec.lt_def.mpr hlt))).symm

theorem le_of_merges (h : merges allowOverlap regionEnd base = true) :
    base.toNat ≤ regionEnd.toNat := by
  cases allowOverlap with
  | true => exact BitVec.le_def.mp (of_decide_eq_true h)
  | false => exact (congrArg BitVec.toNat (eq_of_beq h)).ge

/-- Regions that are not merged have a gap between them, if overlapping ones are merged or cannot
be. -/
theorem lt_of_not_merges (h : ¬ merges allowOverlap regionEnd base = true)
    (hle : allowOverlap = false → regionEnd.toNat ≤ base.toNat) :
    regionEnd.toNat < base.toNat := by
  cases allowOverlap with
  | true => exact Nat.lt_of_not_le fun hle => h (decide_eq_true (BitVec.le_def.mpr hle))
  | false =>
    refine Nat.lt_of_le_of_ne (hle rfl) fun heq => h ?_
    exact beq_iff_eq.mpr (BitVec.eq_of_toNat_eq heq)

theorem mergeBefore_spec (h : Holds self (upTo ++ after)) (hbound : ∀ r ∈ upTo, r.hi < 2 ^ 64)
    (hregion : region.lo < region.hi) (hregionEnd : region.hi < 2 ^ 64)
    (hupTo : ∀ r ∈ upTo, r.lo ≤ region.lo)
    (hbelow : allowOverlap = false → ∀ r ∈ upTo, r.hi ≤ region.lo) :
    ∃ upTo' base regionEnd self',
      self.mergeBefore region allowOverlap upTo.getLast? = (base, regionEnd, self') ∧
      Holds self' (upTo' ++ after) ∧ (∀ r ∈ upTo', r.hi < base.toNat) ∧
      base.toNat ≤ region.lo ∧ region.hi ≤ regionEnd.toNat ∧
      (allowOverlap = false → regionEnd.toNat = region.hi) ∧
      cover lo hi upTo' ∪ Ico base.toNat regionEnd.toNat =
        cover lo hi upTo ∪ region.addresses ∧
      self'.allocatedRegionsByBase = self.allocatedRegionsByBase := by
  have hregionEnd' := toNat_exclusiveEnd hregionEnd
  rcases (spaced_append.mp h.spaced).1.eq_nil_or_concat with
    rfl | ⟨front, before, rfl, hne, hgap⟩
  · refine ⟨[], _, _, _, rfl, h, by simp, Nat.le_refl _, hregionEnd'.ge, fun _ => hregionEnd',
      ?_, rfl⟩
    rw [hregionEnd']
    rfl
  · have hmem : before ∈ front ++ [before] := mem_concat_self
    have hend := toNat_exclusiveEnd (hbound before hmem)
    have hlo := hupTo before hmem
    rw [getLast?_concat, mergeBefore]
    split_ifs with hmerges
    · have hle : region.lo ≤ before.hi := by
        have hle := le_of_merges hmerges
        rwa [hend] at hle
      have hmax : (stdMax region.exclusiveEnd before.exclusiveEnd).toNat =
          max region.hi before.hi := by
        rw [toNat_stdMax, hregionEnd', hend]
      rw [← append_cons] at h
      refine ⟨front, _, _, _, rfl, h.erase, hgap, hlo, ?_, ?_, ?_, rfl⟩
      · rw [hmax]
        exact Nat.le_max_left _ _
      · intro hoverlap
        have hle := hbelow hoverlap before hmem
        omega
      · have hlo' : before.base.toNat = before.lo := rfl
        rw [cover_append, cover_cons, cover_nil, union_empty, union_assoc]
        congr 1
        ext x
        simp only [addresses, mem_union, mem_Ico]
        omega
    · have hlt : before.hi < region.lo := by
        have hlt := lt_of_not_merges hmerges fun hoverlap => by
          rw [hend]
          exact hbelow hoverlap before hmem
        rwa [hend] at hlt
      refine ⟨front ++ [before], _, _, _, rfl, h, ?_, Nat.le_refl _, hregionEnd'.ge,
        fun _ => hregionEnd', ?_, rfl⟩
      · refine forall_mem_append.mpr ⟨fun b hb => ?_, forall_mem_singleton.mpr hlt⟩
        have hbb := hgap b hb
        change b.hi < region.lo
        omega
      · rw [hregionEnd']
        rfl

theorem mergeAfter_spec (h : Holds self (front ++ after)) (hbound : ∀ r ∈ after, r.hi < 2 ^ 64)
    (habove : allowOverlap = false → ∀ r ∈ after, regionEnd.toNat ≤ r.lo) {start : ℕ}
    (hstart : start ≤ regionEnd.toNat) (hafter : ∀ r ∈ after, start ≤ r.lo) :
    ∃ rest regionEnd' self', mergeAfter allowOverlap after regionEnd self = (regionEnd', self') ∧
      Holds self' (front ++ rest) ∧ (∀ r ∈ rest, regionEnd'.toNat < r.lo) ∧
      regionEnd.toNat ≤ regionEnd'.toNat ∧
      Set.Ico start regionEnd'.toNat ∪ cover lo hi rest =
        Set.Ico start regionEnd.toNat ∪ cover lo hi after ∧
      self'.allocatedRegionsByBase = self.allocatedRegionsByBase := by
  induction after generalizing self regionEnd with
  | nil => exact ⟨[], regionEnd, self, rfl, h, by simp, Nat.le_refl _, rfl, rfl⟩
  | cons next after ih =>
    have hend := toNat_exclusiveEnd (hbound next mem_cons_self)
    obtain ⟨hne, -, hgap⟩ := spaced_cons.mp (spaced_append.mp h.spaced).2.1
    have hnext := hafter next mem_cons_self
    rw [mergeAfter]
    by_cases hmerges : merges allowOverlap regionEnd next.base = true
    · have hle : next.lo ≤ regionEnd.toNat := le_of_merges hmerges
      have hmax : (stdMax regionEnd next.exclusiveEnd).toNat = max regionEnd.toNat next.hi := by
        rw [toNat_stdMax, hend]
      have hcover : Set.Ico start (max regionEnd.toNat next.hi) =
          Set.Ico start regionEnd.toNat ∪ Ico next.lo next.hi := by
        ext x
        simp only [mem_union, mem_Ico]
        omega
      rw [if_pos hmerges]
      cases allowOverlap with
      | true =>
        obtain ⟨rest, regionEnd', self', hrun, h', hrest, hmono, hunion, hallocated⟩ :=
          @ih _ (stdMax regionEnd next.exclusiveEnd) h.erase
            (fun r hr => hbound r (mem_cons_of_mem next hr)) (by simp) (by omega)
            (fun r hr => hafter r (mem_cons_of_mem next hr))
        refine ⟨rest, regionEnd', self', hrun, h', hrest, by omega, ?_, hallocated⟩
        rw [hunion, hmax, hcover, cover_cons, union_assoc]
      | false =>
        -- the next region starts where the added one ends, and the one after it does not touch it
        have heq := habove rfl next mem_cons_self
        refine ⟨after, _, _, rfl, h.erase, ?_, by omega, ?_, rfl⟩
        · intro r hr
          have hr' := hgap r hr
          omega
        · rw [hmax, hcover, cover_cons, union_assoc]
    · have hlt : regionEnd.toNat < next.lo := lt_of_not_merges hmerges fun hoverlap =>
        habove hoverlap next mem_cons_self
      rw [if_neg hmerges]
      refine ⟨next :: after, regionEnd, self, rfl, h, forall_mem_cons.mpr ⟨hlt, fun r hr => ?_⟩,
        Nat.le_refl _, rfl, rfl⟩
      have hr' := hgap r hr
      omega

theorem addRegionToAvailLocked_spec (h : Holds self l) (hbound : ∀ r ∈ l, r.hi < 2 ^ 64)
    (hregion : region.lo < region.hi) (hregionEnd : region.hi < 2 ^ 64)
    (hdisjoint : allowOverlap = false →
      Disjoint (cover lo hi l) region.addresses) :
    Represents (self.addRegionToAvailLocked region allowOverlap)
        (cover lo hi l ∪ region.addresses) ∧
      (self.addRegionToAvailLocked region allowOverlap).allocatedRegionsByBase =
        self.allocatedRegionsByBase := by
  obtain ⟨hsplit, hupTo, hafter⟩ := upperBound_spec h.spaced region.base
  rw [addRegionToAvailLocked, h.byBase]
  generalize upperBound l region.base = bounds at hsplit hupTo hafter ⊢
  obtain ⟨upTo, after⟩ := bounds
  subst hsplit
  have hbelow : allowOverlap = false → ∀ r ∈ upTo, r.hi ≤ region.lo := by
    intro hoverlap r hr
    by_contra hlt
    refine disjoint_left.mp (hdisjoint hoverlap) (?_ : region.lo ∈ _) ?_
    · exact ⟨r, mem_append_left after hr, hupTo r hr, by omega⟩
    · exact mem_Ico.mpr ⟨Nat.le_refl _, hregion⟩
  have habove : allowOverlap = false → ∀ r ∈ after, region.hi ≤ r.lo := by
    intro hoverlap r hr
    by_contra hlt
    have hne := h.spaced.nonempty r (mem_append_right upTo hr)
    refine disjoint_left.mp (hdisjoint hoverlap) (?_ : r.lo ∈ _) ?_
    · exact ⟨r, mem_append_right upTo hr, Nat.le_refl _, hne⟩
    · exact mem_Ico.mpr ⟨(hafter r hr).le, by omega⟩
  obtain ⟨upTo', base, regionEnd, self₁, hrun₁, h₁, hbase, hlo, hhi, hsame, hcover₁, halloc₁⟩ :=
    mergeBefore_spec h (fun r hr => hbound r (mem_append_left after hr)) hregion hregionEnd
      hupTo hbelow
  have hbase₁ : base.toNat ≤ regionEnd.toNat := by omega
  have habove₁ : allowOverlap = false → ∀ r ∈ after, regionEnd.toNat ≤ r.lo := by
    intro hoverlap r hr
    rw [hsame hoverlap]
    exact habove hoverlap r hr
  obtain ⟨rest, regionEnd', self₂, hrun₂, h₂, hrest, hmono, hcover₂, halloc₂⟩ :=
    mergeAfter_spec h₁ (fun r hr => hbound r (mem_append_right upTo hr)) habove₁ hbase₁
      (fun r hr => hlo.trans (hafter r hr).le)
  have hnewHi : hi ⟨base, regionEnd' - base⟩ = regionEnd'.toNat := hi_of_sub (by omega)
  have hnewLo : lo ⟨base, regionEnd' - base⟩ = base.toNat := rfl
  obtain ⟨hfront, hrest', hbetween⟩ := spaced_append.mp h₂.spaced
  dsimp only
  rw [hrun₁]
  rw [hrun₂]
  dsimp only
  refine ⟨⟨upTo' ++ ⟨base, regionEnd' - base⟩ :: rest, ?_, ?_, ?_⟩, halloc₂.trans halloc₁⟩
  · refine h₂.insertAvail ?_ ?_
    · intro b hb
      exact (hfront.nonempty b hb).trans (hbase b hb)
    · intro b hb
      have hb' := hrest b hb
      omega
  · refine spaced_append.mpr ⟨hfront, spaced_cons.mpr ⟨by omega, hrest', ?_⟩, ?_⟩
    · intro b hb
      rw [hnewHi]
      exact hrest b hb
    · intro b hb c hc
      rcases mem_cons.mp hc with rfl | hc
      · exact hbase b hb
      · exact hbetween b hb c hc
  · calc cover lo hi (upTo' ++ ⟨base, regionEnd' - base⟩ :: rest)
        = cover lo hi upTo' ∪
            (Ico base.toNat regionEnd'.toNat ∪ cover lo hi rest) := by
          rw [cover_append, cover_cons, hnewHi, hnewLo]
      _ = cover lo hi upTo' ∪ Ico base.toNat regionEnd.toNat ∪
            cover lo hi after := by
          rw [hcover₂, union_assoc]
      _ = cover lo hi (upTo ++ after) ∪ region.addresses := by
          rw [hcover₁, cover_append, union_right_comm]

end Add

section Get

/-- A part of an available region is taken and handed out, or nothing changes. -/
theorem allocFromAvailLocked_spec {source : Region} {created : ℕ → Bool} (h : Holds self l)
    (hsource : source ∈ l) (hbound : source.hi < 2 ^ 64) (hsize : 0 < size.toNat)
    (hlo : source.lo ≤ base.toNat) (hhi : base.toNat + size.toNat ≤ source.hi) :
    Outcome self (fun out self₁ => out = ⟨base, size⟩ ∧ ∃ self', self₁ = self'.insertAllocated out ∧
        Represents self' (cover lo hi l \ out.addresses) ∧
        self'.allocatedRegionsByBase = self.allocatedRegionsByBase)
      (self.allocFromAvailLocked source base size created) := by
  have hsourceHi : source.hi = source.lo + source.size.toNat := rfl
  have houtLo : lo ⟨base, size⟩ = base.toNat := rfl
  have houtHi : hi ⟨base, size⟩ = base.toNat + size.toNat := rfl
  have hregion : lo ⟨base, size⟩ < hi ⟨base, size⟩ := by omega
  have hsizeLe : size.toNat ≤ source.size.toNat := by omega
  have hoverhead : (base - source.base).toNat = base.toNat - source.lo :=
    BitVec.toNat_sub_of_le (BitVec.le_def.mpr hlo)
  have hleftover : (source.size - size).toNat = source.size.toNat - size.toNat :=
    BitVec.toNat_sub_of_le (BitVec.le_def.mpr hsizeLe)
  have hbase : base = source.base ↔ base.toNat = source.lo := BitVec.toNat_inj.symm
  have hafter : base - source.base < source.size - size ↔
      base.toNat + size.toNat < source.hi := by
    rw [BitVec.lt_def]
    omega
  unfold allocFromAvailLocked
  simp only [hbase, hafter, ne_eq, not_not]
  split_ifs with hwhole hfront hmemory hend hmemory hmemory' hmemory
  · have hout : (⟨base, size⟩ : Region) = source := by
      have hbase' := hbase.mpr hwhole.1
      have hsize' : size = source.size := BitVec.eq_of_toNat_eq (by omega)
      rw [hbase', hsize']
    rw [hout]
    exact .ok ⟨rfl, _, rfl, represents_eraseAvail h hsource, rfl⟩
  · obtain ⟨hnewLo, hnewHi⟩ := trimFront hbound hsizeLe
    have hbase' := hbase.mpr hfront
    rw [← hbase'] at hnewLo hnewHi ⊢
    exact .ok ⟨rfl, _, rfl, represents_editAvail h hsource (by omega) hregion (by omega), rfl⟩
  · exact .error _
  · -- the region is cut into three
    have hout : source.base + (base - source.base) = base := by
      rw [BitVec.add_comm, BitVec.sub_add_cancel]
    have hfirstHi : hi ⟨source.base, base - source.base⟩ = base.toNat :=
      hi_of_sub hlo
    have hfirstLo : lo ⟨source.base, base - source.base⟩ = source.lo := rfl
    have hlastLo : lo ⟨base + size, source.size - size - (base - source.base)⟩ =
        base.toNat + size.toNat := BitVec.toNat_add_of_lt (by omega)
    have hlastHi : hi ⟨base + size, source.size - size - (base - source.base)⟩ =
        source.hi := by
      have hle : base - source.base ≤ source.size - size := BitVec.le_of_lt (hafter.mpr hend)
      have hsub := BitVec.toNat_sub_of_le hle
      change (base + size).toNat + (source.size - size - (base - source.base)).toNat = _
      have hadd : (base + size).toNat = base.toNat + size.toNat := hlastLo
      omega
    rw [hout]
    exact .ok ⟨rfl, _, rfl,
      represents_editAvail_insertAvail h hsource hregion (by omega) (by omega), rfl⟩
  · exact .error _
  · exact .error _
  · have hnewHi := trimEnd hsizeLe
    have hnewLo : lo ⟨source.base, source.size - size⟩ = source.lo := rfl
    exact .ok ⟨rfl, _, rfl, represents_editAvail h hsource (by omega) hregion (by omega), rfl⟩
  · exact .error _

end Get

end RegionAllocator

end Smos.RegionAlloc
