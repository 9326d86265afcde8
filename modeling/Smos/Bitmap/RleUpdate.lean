import Smos.Bitmap.RleSearch
import Mathlib.Data.UInt
import Mathlib.Data.List.TakeWhile

/-!
`Set` and `Clear` keep the runs of a bitmap maximal and the counters exact.
-/
namespace Smos.Bitmap

open Lib.Intervals Element RleBitmap List UInt64

/-- The sum of the lengths of the runs, in the arithmetic of the code. -/
def total (l : List Element) : UInt64 := (l.map Element.bitlen).sum

variable {e : Element} {l m : List Element} {p : ℕ} {numElems : ℕ}

theorem total_cons (e : Element) (l : List Element) : total (e :: l) = e.bitlen + total l := by
  rfl

theorem total_append (l m : List Element) : total (l ++ m) = total l + total m := by
  rw [total, map_append, sum_append]
  rfl

theorem mem_bits_append : p ∈ bits (l ++ m) ↔ p ∈ bits l ∨ p ∈ bits m := by
  rw [bits, cover_append]
  rfl

theorem Element.hi_sub {start stop : UInt64} (h : start.toNat ≤ stop.toNat) :
    hi ⟨start, stop - start⟩ = stop.toNat := by
  change start.toNat + (stop - start).toNat = _
  rw [UInt64.toNat_sub_of_le _ _ (le_iff_toNat_le.mpr h)]
  omega

structure Counted (l : List Element) (numElems : ℕ) (numBits : UInt64) (w : Walk) : Prop where
  elems : w.numElems + l.length = numElems + w.elems.length
  bits : w.numBits + total l = numBits + total w.elems

section Set

structure Merged (elem : Element) (rest : List Element) (numElems : ℕ) (numBits : UInt64)
    (w : Walk) : Prop where
  status : w.status = .ok
  runs : Runs w.elems
  bits : ∀ p, p ∈ bits w.elems ↔ elem.lo ≤ p ∧ p < elem.hi ∨ p ∈ Bitmap.bits rest
  ge : ∀ x ∈ w.elems, elem.lo ≤ x.lo
  counted : Counted (elem :: rest) numElems numBits w

theorem setLoop_spec (elem : Element) (maxEnd : UInt64) (source : Source) (numBits : UInt64)
    {rest : List Element} (hne : elem.lo < elem.hi) (hfits : elem.hi < 2 ^ 64)
    (hmax : maxEnd.toNat = elem.hi) (hrest : Runs rest) (hge : ∀ x ∈ rest, elem.lo ≤ x.lo)
    (hcount : rest.length < numElems) :
    Merged elem rest numElems numBits
      (setLoop elem maxEnd source numElems numBits rest) := by
  induction rest generalizing elem maxEnd source numElems numBits with
  | nil =>
    refine ⟨rfl, runs_cons.mpr ⟨hne, hfits, runs_nil, by simp⟩, fun p => mem_bits_cons, ?_,
      rfl, rfl⟩
    intro x hx
    rw [mem_singleton.mp hx]
  | cons itr rest ih =>
    obtain ⟨hitr, hitrFits, hrest', hafter⟩ := runs_cons.mp hrest
    have hstop := toNat_stop hitrFits
    have hitrLo : itr.lo = itr.bitoff.toNat := rfl
    unfold setLoop
    split
    case isTrue hgt =>
      rw [gt_iff_lt, lt_iff_toNat_lt] at hgt
      refine ⟨rfl, runs_cons.mpr ⟨hne, hfits, hrest, ?_⟩, fun p => mem_bits_cons, ?_, rfl, rfl⟩
      · refine forall_mem_cons.mpr ⟨by omega, fun x hx => ?_⟩
        have := hafter x hx
        omega
      · exact forall_mem_cons.mpr ⟨le_rfl, hge⟩
    case isFalse hle =>
      rw [gt_iff_lt, lt_iff_toNat_lt] at hle
      have hmax' : (max maxEnd (itr.bitoff + itr.bitlen)).toNat = max elem.hi itr.hi := by
        rw [toNat_max, hmax, hstop]
      dsimp only
      generalize max maxEnd (itr.bitoff + itr.bitlen) = newMax at hmax' ⊢
      have hge' := hge itr mem_cons_self
      have hhi : hi ⟨elem.bitoff, newMax - elem.bitoff⟩ = max elem.hi itr.hi := by
        have hlo : elem.lo = elem.bitoff.toNat := rfl
        rw [hi_sub (by omega), hmax']
      have hlo : lo ⟨elem.bitoff, newMax - elem.bitoff⟩ = elem.lo := rfl
      have hcount' : rest.length < numElems - 1 := by
        rw [length_cons] at hcount
        omega
      have hge'' : ∀ x ∈ rest, lo ⟨elem.bitoff, newMax - elem.bitoff⟩ ≤ x.lo :=
        fun x hx => hge x (mem_cons_of_mem itr hx)
      obtain ⟨hstatus, hruns, hbits, hall, helems, htotal⟩ :=
        ih ⟨elem.bitoff, newMax - elem.bitoff⟩ newMax (source.releaseElement itr)
          (numBits + (newMax - elem.bitoff - itr.bitlen - elem.bitlen)) (by omega) (by omega)
          (by omega) hrest' hge'' hcount'
      refine ⟨hstatus, hruns, fun p => ?_, hall, ?_, ?_⟩
      · rw [hbits, mem_bits_cons, ← or_assoc]
        refine or_congr_left ?_
        omega
      · rw [length_cons] at helems hcount ⊢
        rw [length_cons]
        omega
      · rw [total_cons] at htotal
        rw [total_cons, total_cons]
        grind

/-- What the insertion of an element before those that end at its start or later leaves. -/
structure Inserted (elem : Element) (rest : List Element) (numElems : ℕ) (numBits : UInt64)
    (w : Walk) : Prop where
  status : w.status = .ok
  runs : Runs w.elems
  bits : ∀ p, p ∈ bits w.elems ↔ elem.lo ≤ p ∧ p < elem.hi ∨ p ∈ Bitmap.bits rest
  ge : ∀ x ∈ w.elems, elem.lo ≤ x.lo ∨ ∃ r ∈ rest, r.lo ≤ x.lo
  counted : Counted (elem :: rest) numElems numBits w

theorem setMerge_spec (elem : Element) (source : Source) (numBits : UInt64)
    {rest : List Element} (hne : elem.lo < elem.hi) (hfits : elem.hi < 2 ^ 64) (hrest : Runs rest)
    (hreach : ∀ x ∈ rest, elem.lo ≤ x.hi) (hcount : rest.length < numElems) :
    Inserted elem rest numElems numBits
      (setMerge elem source numElems numBits rest) := by
  cases rest with
  | nil =>
    refine ⟨rfl, runs_cons.mpr ⟨hne, hfits, runs_nil, by simp⟩, fun p => mem_bits_cons, ?_,
      rfl, rfl⟩
    intro x hx
    rw [mem_singleton.mp hx]
    exact .inl le_rfl
  | cons itr rest =>
    obtain ⟨hitr, -, -, hafter⟩ := runs_cons.mp hrest
    have hitrGe : ∀ x ∈ itr :: rest, itr.lo ≤ x.lo := by
      refine forall_mem_cons.mpr ⟨le_rfl, fun x hx => ?_⟩
      have := hafter x hx
      omega
    simp only [setMerge]
    split
    case isTrue hge =>
      -- the element starts within or right after the one behind it, and is extended to its start
      rw [ge_iff_le, le_iff_toNat_le] at hge
      have hsub := UInt64.toNat_sub_of_le _ _ (le_iff_toNat_le.mpr hge)
      have hlen : (elem.bitlen + (elem.bitoff - itr.bitoff)).toNat =
          elem.bitlen.toNat + (elem.bitoff.toNat - itr.bitoff.toNat) := by
        rw [UInt64.toNat_add, hsub]
        apply Nat.mod_eq_of_lt
        change elem.bitoff.toNat + elem.bitlen.toNat < 2 ^ 64 at hfits
        omega
      have hhi : hi ⟨itr.bitoff, elem.bitlen + (elem.bitoff - itr.bitoff)⟩ = elem.hi := by
        change itr.bitoff.toNat + (elem.bitlen + (elem.bitoff - itr.bitoff)).toNat =
          elem.bitoff.toNat + elem.bitlen.toNat
        omega
      have hlo : lo ⟨itr.bitoff, elem.bitlen + (elem.bitoff - itr.bitoff)⟩ = itr.lo := rfl
      have hle : itr.lo ≤ elem.lo := hge
      have hitrReach := hreach itr mem_cons_self
      obtain ⟨hstatus, hruns, hbits, hall, helems, htotal⟩ :=
        setLoop_spec ⟨itr.bitoff, elem.bitlen + (elem.bitoff - itr.bitoff)⟩
          (stop ⟨itr.bitoff, elem.bitlen + (elem.bitoff - itr.bitoff)⟩) source
          (numBits + (elem.bitoff - itr.bitoff)) (by omega) (by omega)
          (toNat_stop (by omega)) hrest hitrGe hcount
      refine ⟨hstatus, hruns, fun p => ?_, fun x hx => ?_, helems, ?_⟩
      · rw [hbits, mem_bits_cons, ← or_assoc, ← or_assoc]
        refine or_congr_left ?_
        omega
      · exact .inr ⟨itr, mem_cons_self, hall x hx⟩
      · rw [total_cons] at htotal ⊢
        grind
    case isFalse hlt =>
      rw [ge_iff_le, le_iff_toNat_le, Nat.not_le] at hlt
      have hge : ∀ x ∈ itr :: rest, elem.lo ≤ x.lo := fun x hx =>
        (Nat.le_of_lt hlt).trans (hitrGe x hx)
      obtain ⟨hstatus, hruns, hbits, hall, hcounted⟩ :=
        setLoop_spec elem elem.stop source numBits hne hfits (toNat_stop hfits) hrest hge
          hcount
      exact ⟨hstatus, hruns, hbits, fun x hx => .inl (hall x hx), hcounted⟩

end Set

structure WellFormed (b : RleBitmap) : Prop where
  runs : Runs b.elems
  numElems : b.numElems = b.elems.length
  numBits : b.numBits = total b.elems

def Updates (isSet : Bool) (bitoff bitmax : UInt64) (b : RleBitmap) :
    Status × RleBitmap × Source → Prop
  | (status, b', _) =>
    status = .ok ∧ WellFormed b' ∧
        (∀ p, p ∈ bits b'.elems ↔
          if bitoff.toNat ≤ p ∧ p < bitmax.toNat then isSet = true else p ∈ bits b.elems) ∨
      status ≠ .ok ∧ b' = b

section Internal

variable {b : RleBitmap} {bitoff bitmax : UInt64}

/-- The elements from the first one on that ends at a position or later. -/
theorem le_hi_of_mem_dropWhile (h : Runs l) (bitoff : UInt64) :
    ∀ a ∈ l.dropWhile (fun a : Element => decide (a.bitoff + a.bitlen < bitoff)),
      bitoff.toNat ≤ a.hi := by
  intro a ha
  have hmem := (dropWhile_sublist _).subset ha
  have hordered : l.Pairwise fun a c => a.hi ≤ c.hi ∧ a.hi < 2 ^ 64 ∧ c.hi < 2 ^ 64 := by
    refine h.spaced.ordered.imp_of_mem fun ha hc hac => ⟨?_, h.fits _ ha, h.fits _ hc⟩
    have := h.spaced.nonempty _ hc
    omega
  have hfalse := not_of_mem_dropWhile hordered (fun c d hcd hc => ?_) a ha
  · have hlt := of_decide_eq_false hfalse
    rwa [lt_iff_toNat_lt, toNat_stop (h.fits a hmem), Nat.not_lt] at hlt
  · have hlt := of_decide_eq_false hc
    rw [lt_iff_toNat_lt, toNat_stop hcd.2.1] at hlt
    apply decide_eq_false
    rw [lt_iff_toNat_lt, toNat_stop hcd.2.2]
    omega

/-- The list with an element inserted behind those that end before it. -/
theorem updates_of_inserted {before rest : List Element} {w : Walk} (h : WellFormed b)
    (hle : bitoff ≤ bitmax) (hsplit : before ++ rest = b.elems)
    (hfirst : ∀ a ∈ before, a.hi < bitoff.toNat)
    (hw : Inserted ⟨bitoff, bitmax - bitoff⟩ rest (b.numElems + 1) (b.numBits + (bitmax - bitoff))
      w) :
    Updates true bitoff bitmax b
      (w.status, ⟨before ++ w.elems, w.numElems, w.numBits⟩, w.source) := by
  obtain ⟨hstatus, hruns, hbits, hge, helems, htotal⟩ := hw
  obtain ⟨hbefore, -, hbetween⟩ := runs_append.mp (hsplit.symm ▸ h.runs)
  have hhi := hi_sub (le_iff_toNat_le.mp hle)
  have hlo : lo ⟨bitoff, bitmax - bitoff⟩ = bitoff.toNat := rfl
  refine .inl ⟨hstatus, ⟨runs_append.mpr ⟨hbefore, hruns, fun a ha x hx => ?_⟩, ?_, ?_⟩,
    fun p => ?_⟩
  · rcases hge x hx with hge | ⟨r, hr, hge⟩
    · have := hfirst a ha
      omega
    · have := hbetween a ha r hr
      omega
  · have hlength := congrArg length hsplit
    rw [length_append] at hlength
    rw [length_cons, h.numElems] at helems
    change w.numElems = (before ++ w.elems).length
    rw [length_append]
    omega
  · have hsum := congrArg total hsplit
    rw [total_append] at hsum
    rw [total_cons, h.numBits] at htotal
    rw [total_append]
    grind
  · have hmem : p ∈ bits b.elems ↔ p ∈ bits before ∨ p ∈ bits rest := by
      rw [← hsplit, mem_bits_append]
    rw [mem_bits_append, hbits, hhi]
    split
    case isTrue hin => exact ⟨fun _ => rfl, fun _ => .inr (.inl hin)⟩
    case isFalse hout =>
      rw [hmem]
      exact or_congr_right ⟨fun hr => hr.resolve_left hout, Or.inr⟩

theorem sub_eq_zero_iff_le (h : bitoff ≤ bitmax) :
    bitmax - bitoff = 0 ↔ bitmax.toNat ≤ bitoff.toNat := by
  rw [← UInt64.toNat_inj, UInt64.toNat_sub_of_le _ _ h]
  exact Nat.sub_eq_zero_iff_le

/-- There is nothing to do for an empty range. -/
theorem updates_empty (h : WellFormed b) (isSet : Bool) (hle : bitmax.toNat ≤ bitoff.toNat)
    (source : Source) : Updates isSet bitoff bitmax b (.ok, b, source) := by
  refine .inl ⟨rfl, h, fun p => ?_⟩
  rw [if_neg (by omega)]

theorem setInternal_spec (h : WellFormed b) (bitoff bitmax : UInt64) (source : Source) :
    Updates true bitoff bitmax b (b.setInternal bitoff bitmax source) := by
  unfold setInternal
  split
  case isTrue => exact .inr ⟨by simp, rfl⟩
  case isFalse hle =>
    rw [UInt64.not_lt] at hle
    dsimp only
    split
    case isTrue hzero => exact updates_empty h true ((sub_eq_zero_iff_le hle).mp hzero) source
    case isFalse hnz =>
      rw [sub_eq_zero_iff_le hle, Nat.not_le] at hnz
      split
      case h_1 => exact .inr ⟨by simp, rfl⟩
      case h_2 source' _ =>
        have hsplit := takeWhile_append_dropWhile
          (p := fun a : Element => decide (a.bitoff + a.bitlen < bitoff)) (l := b.elems)
        obtain ⟨hbefore, hrest, -⟩ := runs_append.mp (hsplit.symm ▸ h.runs)
        have hhi := hi_sub hnz.le
        have hlo : lo ⟨bitoff, bitmax - bitoff⟩ = bitoff.toNat := rfl
        apply updates_of_inserted h hle hsplit
        · intro a ha
          have hlt := of_decide_eq_true (mem_takeWhile_imp
            (p := fun a : Element => decide (a.bitoff + a.bitlen < bitoff)) ha)
          rwa [lt_iff_toNat_lt, toNat_stop (hbefore.fits a ha)] at hlt
        · apply setMerge_spec
          · omega
          · rw [hhi]
            exact bitmax.toNat_lt
          · exact hrest
          · exact le_hi_of_mem_dropWhile h.runs bitoff
          · have hlength := congrArg length hsplit
            rw [length_append] at hlength
            rw [h.numElems]
            omega

structure Cleared (bitoff bitmax : UInt64) (l : List Element) (numElems : ℕ) (numBits : UInt64)
    (w : Walk) : Prop where
  runs : Runs w.elems
  bits : ∀ p, p ∈ bits w.elems ↔ p ∈ Bitmap.bits l ∧ ¬ (bitoff.toNat ≤ p ∧ p < bitmax.toNat)
  within : ∀ x ∈ w.elems, ∃ a ∈ l, a.lo ≤ x.lo
  counted : Counted l numElems numBits w

namespace Cleared

variable {itr x : Element} {rest : List Element} {numElems : ℕ} {numBits : UInt64} {w : Walk}

/-- What is behind an element is not cleared before the end of the range. -/
theorem mem_rest (hafter : ∀ a ∈ rest, itr.hi + 1 ≤ a.lo) (hend : bitmax.toNat ≤ itr.hi)
    (hp : p ∈ Bitmap.bits rest) : ¬ (bitoff.toNat ≤ p ∧ p < bitmax.toNat) := by
  have := hi_lt_of_mem_bits hafter hp
  omega

/-- Clearing the range changes the bits of the first element only. -/
theorem or_rest_iff {kept was : Prop} (hafter : ∀ a ∈ rest, itr.hi + 1 ≤ a.lo)
    (hend : bitmax.toNat ≤ itr.hi)
    (hfirst : kept ↔ was ∧ ¬ (bitoff.toNat ≤ p ∧ p < bitmax.toNat)) :
    kept ∨ p ∈ Bitmap.bits rest ↔
      (was ∨ p ∈ Bitmap.bits rest) ∧ ¬ (bitoff.toNat ≤ p ∧ p < bitmax.toNat) := by
  rw [hfirst, or_and_right]
  exact or_congr_right ⟨fun hp => ⟨hp, mem_rest hafter hend hp⟩, And.left⟩

section

variable (h : Runs (itr :: rest))
include h

/-- An element is kept up to the start of the range. -/
theorem keep (hlo : x.lo = itr.lo) (hne : x.lo < x.hi) (hhi : x.hi ≤ itr.hi)
    (hmem : ∀ p, p < x.hi ∧ x.lo ≤ p ↔
      (itr.lo ≤ p ∧ p < itr.hi) ∧ ¬ (bitoff.toNat ≤ p ∧ p < bitmax.toNat))
    {numBits' : UInt64} (hbits : numBits' + itr.bitlen = numBits + x.bitlen)
    (hw : Cleared bitoff bitmax rest numElems numBits' w) :
    Cleared bitoff bitmax (itr :: rest) numElems numBits (RleBitmap.Walk.cons x w) where
  runs := by
    obtain ⟨-, hfits, -, hafter⟩ := runs_cons.mp h
    refine runs_cons.mpr ⟨hne, by omega, hw.runs, fun y hy => ?_⟩
    obtain ⟨a, ha, hle⟩ := hw.within y hy
    have := hafter a ha
    omega
  bits := by
    intro p
    change p ∈ Bitmap.bits (x :: w.elems) ↔ _
    rw [mem_bits_cons, mem_bits_cons, hw.bits p, or_and_right, and_comm, hmem p]
  within := by
    intro y hy
    rcases mem_cons.mp hy with rfl | hy
    · exact ⟨itr, mem_cons_self, hlo.ge⟩
    · obtain ⟨a, ha, hle⟩ := hw.within y hy
      exact ⟨a, mem_cons_of_mem itr ha, hle⟩
  counted := by
    obtain ⟨helems, htotal⟩ := hw.counted
    refine ⟨?_, ?_⟩
    · change w.numElems + (itr :: rest).length = numElems + (x :: w.elems).length
      rw [length_cons, length_cons]
      omega
    · change w.numBits + total (itr :: rest) = numBits + total (x :: w.elems)
      rw [total_cons, total_cons]
      grind

/-- The range ends before an element. -/
theorem past (hpast : bitmax.toNat < itr.lo) (source : Source) :
    Cleared bitoff bitmax (itr :: rest) numElems numBits
      ⟨.ok, source, itr :: rest, numElems, numBits⟩ where
  runs := h
  bits := by
    intro p
    obtain ⟨hitr, -, -, hafter⟩ := runs_cons.mp h
    refine (and_iff_left_of_imp fun hp => ?_).symm
    rcases mem_bits_cons.mp hp with hin | hin
    · omega
    · exact mem_rest hafter (by omega) hin
  within := fun y hy => ⟨y, hy, le_rfl⟩
  counted := ⟨rfl, rfl⟩

/-- The element is cut in two by the range. -/
theorem split (hstart : itr.lo < bitoff.toNat)
    (hlt : bitoff.toNat < bitmax.toNat) (hend : bitmax.toNat < itr.hi) (source : Source) :
    Cleared bitoff bitmax (itr :: rest) numElems numBits
      ⟨.ok, source, { itr with bitlen := bitoff - itr.bitoff } ::
        ⟨bitmax, itr.bitoff + itr.bitlen - bitmax⟩ :: rest, numElems + 1,
        numBits - (bitmax - bitoff)⟩ := by
  obtain ⟨hitr, hfits, hrest, hafter⟩ := runs_cons.mp h
  have hstop := toNat_stop hfits
  have hhi₁ : hi { itr with bitlen := bitoff - itr.bitoff } = bitoff.toNat :=
    hi_sub hstart.le
  have hhi₂ : hi ⟨bitmax, itr.bitoff + itr.bitlen - bitmax⟩ = itr.hi :=
    (hi_sub (by omega)).trans hstop
  have hlo₁ : lo { itr with bitlen := bitoff - itr.bitoff } = itr.lo := rfl
  have hlo₂ : lo ⟨bitmax, itr.bitoff + itr.bitlen - bitmax⟩ = bitmax.toNat := rfl
  refine ⟨?_, fun p => ?_, fun y hy => ?_, ?_, ?_⟩
  · refine runs_cons.mpr ⟨by omega, by omega, runs_cons.mpr ⟨by omega, by omega, hrest, ?_⟩, ?_⟩
    · rwa [hhi₂]
    · refine forall_mem_cons.mpr ⟨by omega, fun y hy => ?_⟩
      have := hafter y hy
      omega
  · rw [mem_bits_cons, mem_bits_cons, mem_bits_cons, ← or_assoc]
    exact or_rest_iff hafter hend.le (by omega)
  · rcases mem_cons.mp hy with rfl | hy
    · exact ⟨itr, mem_cons_self, le_rfl⟩
    · rcases mem_cons.mp hy with rfl | hy
      · exact ⟨itr, mem_cons_self, by omega⟩
      · exact ⟨y, mem_cons_of_mem itr hy, le_rfl⟩
  · simp only [length_cons]
    omega
  · simp only [total_cons]
    grind

/-- The element is cut off up to the end of the range. -/
theorem trim (hstart : bitoff.toNat ≤ itr.lo)
    (hle : itr.lo ≤ bitmax.toNat) (hend : bitmax.toNat < itr.hi) (source : Source) :
    Cleared bitoff bitmax (itr :: rest) numElems numBits
      ⟨.ok, source, ⟨bitmax, itr.bitoff + itr.bitlen - bitmax⟩ :: rest, numElems,
        numBits - (bitmax - itr.bitoff)⟩ := by
  obtain ⟨hitr, hfits, hrest, hafter⟩ := runs_cons.mp h
  have hstop := toNat_stop hfits
  have hhi : hi ⟨bitmax, itr.bitoff + itr.bitlen - bitmax⟩ = itr.hi :=
    (hi_sub (by omega)).trans hstop
  have hlo : lo ⟨bitmax, itr.bitoff + itr.bitlen - bitmax⟩ = bitmax.toNat := rfl
  refine ⟨runs_cons.mpr ⟨by omega, by omega, hrest, by rwa [hhi]⟩, fun p => ?_, fun y hy => ?_, rfl,
    ?_⟩
  · rw [mem_bits_cons, mem_bits_cons]
    exact or_rest_iff hafter hend.le (by omega)
  · rcases mem_cons.mp hy with rfl | hy
    · exact ⟨itr, mem_cons_self, hle⟩
    · exact ⟨y, mem_cons_of_mem itr hy, le_rfl⟩
  · simp only [total_cons]
    grind

end

/-- The range contains the element. -/
theorem erase (hstart : bitoff.toNat ≤ itr.lo)
    (hend : itr.hi ≤ bitmax.toNat) (hcount : 0 < numElems)
    (hw : Cleared bitoff bitmax rest (numElems - 1) (numBits - itr.bitlen) w) :
    Cleared bitoff bitmax (itr :: rest) numElems numBits w where
  runs := hw.runs
  bits := by
    intro p
    rw [hw.bits p, mem_bits_cons]
    constructor
    · exact fun hin => ⟨.inr hin.1, hin.2⟩
    · rintro ⟨hin | hin, hout⟩
      · omega
      · exact ⟨hin, hout⟩
  within := by
    intro y hy
    obtain ⟨a, ha, hle⟩ := hw.within y hy
    exact ⟨a, mem_cons_of_mem itr ha, hle⟩
  counted := by
    obtain ⟨helems, htotal⟩ := hw.counted
    refine ⟨?_, ?_⟩
    · rw [length_cons]
      omega
    · rw [total_cons]
      grind

end Cleared

/-- The loop of `ClearInternal` clears the range, or fails at the one element that it would have to
split, with nothing changed. -/
theorem clearLoop_spec (source : Source) (numBits : UInt64) (h : Runs l)
    (hlt : bitoff.toNat < bitmax.toNat) (hcount : l.length ≤ numElems) :
    (clearLoop bitoff bitmax source numElems numBits l).status = .ok ∧
        Cleared bitoff bitmax l numElems numBits
          (clearLoop bitoff bitmax source numElems numBits l) ∨
      (∃ a ∈ l, a.lo < bitoff.toNat ∧ bitmax.toNat < a.hi) ∧
        clearLoop bitoff bitmax source numElems numBits l =
          ⟨.noMemory, source, l, numElems, numBits⟩ := by
  induction l generalizing source numElems numBits with
  | nil =>
    refine .inl ⟨rfl, runs_nil, fun p => ?_, fun x hx => ?_, rfl, rfl⟩
    · simp [clearLoop, bits]
    · simp [clearLoop] at hx
  | cons itr rest ih =>
    obtain ⟨hitr, hfits, hrest, hafter⟩ := runs_cons.mp h
    have hstop := toNat_stop hfits
    have hlo : itr.lo = itr.bitoff.toNat := rfl
    rw [length_cons] at hcount
    -- behind an element that reaches the range there is none that has to be split
    have hno : bitoff.toNat ≤ itr.hi → ¬ ∃ a ∈ rest, a.lo < bitoff.toNat ∧ bitmax.toNat < a.hi := by
      rintro hreach ⟨a, ha, hstart, -⟩
      have := hafter a ha
      omega
    unfold clearLoop
    simp only [lt_iff_toNat_lt, le_iff_toNat_le, hstop]
    split
    case isTrue hbefore =>
      rcases ih source numBits hrest (Nat.le_of_succ_le hcount) with
        ⟨hok, hw⟩ | ⟨⟨a, ha, hin⟩, hfail⟩
      · exact .inl ⟨hok, hw.keep h rfl hitr le_rfl (fun p => by omega) rfl⟩
      · refine .inr ⟨⟨a, mem_cons_of_mem itr ha, hin⟩, ?_⟩
        rw [hfail]
        rfl
    case isFalse hbefore =>
      split
      case isTrue hpast => exact .inl ⟨rfl, Cleared.past h hpast source⟩
      case isFalse hpast =>
        split
        case isTrue hstart =>
          split
          case isTrue hend =>
            have hhi : hi { itr with bitlen := bitoff - itr.bitoff } = bitoff.toNat :=
              hi_sub hstart.le
            have hlo' : lo { itr with bitlen := bitoff - itr.bitoff } = itr.lo := rfl
            rcases ih source (numBits - (itr.bitlen - (bitoff - itr.bitoff))) hrest
              (Nat.le_of_succ_le hcount) with ⟨hok, hw⟩ | ⟨hsplit, -⟩
            · refine .inl ⟨hok, hw.keep h rfl (by omega) (by omega) (fun p => by omega) ?_⟩
              grind
            · exact absurd hsplit (hno (by omega))
          case isFalse hend =>
            split
            case h_1 =>
              exact .inr ⟨⟨itr, mem_cons_self, hstart, by omega⟩, rfl⟩
            case h_2 source' _ =>
              exact .inl ⟨rfl, Cleared.split h hstart hlt (by omega) source'⟩
        case isFalse hstart =>
          split
          case isTrue hend =>
            exact .inl ⟨rfl, Cleared.trim h (by omega) (by omega) hend source⟩
          case isFalse hend =>
            rcases ih (source.releaseElement itr) (numBits - itr.bitlen) hrest
              (show rest.length ≤ numElems - 1 by omega) with ⟨hok, hw⟩ | ⟨hsplit, -⟩
            · exact .inl ⟨hok, hw.erase (by omega) (by omega) (by omega)⟩
            · exact absurd hsplit (hno (by omega))

theorem clearInternal_spec (h : WellFormed b) (bitoff bitmax : UInt64) (source : Source) :
    Updates false bitoff bitmax b (b.clearInternal bitoff bitmax source) := by
  unfold clearInternal
  split
  case isTrue => exact .inr ⟨by simp, rfl⟩
  case isFalse hle =>
    rw [UInt64.not_lt] at hle
    split
    case isTrue hzero => exact updates_empty h false ((sub_eq_zero_iff_le hle).mp hzero) source
    case isFalse hnz =>
      rw [sub_eq_zero_iff_le hle, Nat.not_le] at hnz
      have hloop := clearLoop_spec source b.numBits h.runs hnz h.numElems.ge
      rcases hloop with ⟨hok, hw⟩ | ⟨-, hfail⟩
      · refine .inl ⟨hok, ⟨hw.runs, ?_, ?_⟩, fun p => ?_⟩
        · have := hw.counted.elems
          change Walk.numElems _ = (Walk.elems _).length
          rw [h.numElems] at this ⊢
          omega
        · have := hw.counted.bits
          rw [h.numBits] at this ⊢
          grind
        · rw [hw.bits p]
          split
          case isTrue hin => simp [hin]
          case isFalse hout => exact and_iff_left hout
      · rw [hfail]
        exact .inr ⟨by simp, rfl⟩

end Internal

end Smos.Bitmap
