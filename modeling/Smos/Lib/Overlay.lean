import Smos.Lib.Spans

/-!
The merge steps by which overlapping items of two layers are resolved: the newer item is kept and
the older one trimmed, split or dropped, or two items of one value are joined.  Each is sound in
the sense of `MergeSound`, whatever lies in the layers between.
-/
namespace Smos.Lib.Spans

variable {α P M : Type*} [LinearOrder P] [Monoid M] {S : Span α P M}
  {a b : ℕ} {left right e l r : α}

def Absorbs (S : Span α P M) (x : α) : Prop :=
  ∀ p, S.lo x ≤ p → p < S.hi x → ∀ m : M, S.den x p * m = S.den x p

def HasValue (S : Span α P M) (x : α) (v : M) : Prop :=
  ∀ p, S.lo x ≤ p → p < S.hi x → S.den x p = v

/-- A well-formed item that means what `x` means, on the interval from `lo` to `hi` only. -/
structure Restricts (S : Span α P M) (y x : α) (lo hi : P) : Prop where
  ok : S.Ok y
  lo_eq : S.lo y = lo
  hi_eq : S.hi y = hi
  den_eq : ∀ p, lo ≤ p → p < hi → S.den y p = S.den x p

section

variable {n : ℕ} {rem : ℕ → List α} {x : α} {l : List α} {p : P} (ha : a < n)
  (hrem : rem a = x :: l) (habs : Absorbs S x) (hlo : S.lo x ≤ p) (hhi : p < S.hi x)
include ha hrem habs hlo hhi

end

/-- The newer left item hides the beginning of the right one, which is cut off. -/
theorem MergeSound.trim_right (hab : a < b) (hok : S.Ok left) (hle : S.lo left ≤ S.lo right)
    (hlt : S.lo right < S.hi left) (habs : Absorbs S left)
    (hr : Restricts S r right (S.hi left) (S.hi right)) (hw : S.weight r < S.weight right) :
    MergeSound S a left b right none (some left) (some r) := by
  refine ⟨hlt.le, ?_, ?_, by simp, ?_, ?_, by simp, ?_⟩
  · intro p hp
    have hrp : S.den r p = 1 := S.den_before r p (hr.lo_eq ▸ hp.trans hlt)
    simp [around, hrp]
  · intro p hp mid _
    simp only [around, if_pos hab, optDen_some]
    rcases lt_or_ge p (S.hi left) with h | h
    · simp only [habs p (hle.trans hp) h]
    · rcases lt_or_ge p (S.hi right) with h' | h'
      · rw [hr.den_eq p h h']
      · rw [S.den_after right p h', S.den_after r p (hr.hi_eq ▸ h')]
  · intro x hx
    cases hx
    exact ⟨hok, le_rfl, le_rfl⟩
  · intro x hx
    cases hx
    exact ⟨hr.ok, hr.lo_eq ▸ (hle.trans hlt.le), hr.hi_eq.le⟩
  · simpa using hw

/-- The newer left item hides the right one altogether. -/
theorem MergeSound.discard_right (hab : a < b) (hok : S.Ok left) (hle : S.lo left ≤ S.lo right)
    (hlt : S.lo right < S.hi left) (hhi : S.hi right ≤ S.hi left) (habs : Absorbs S left) :
    MergeSound S a left b right none (some left) none := by
  refine ⟨hlt.le, ?_, ?_, by simp, ?_, by simp, by simp, ?_⟩
  · intro p _
    simp [around]
  · intro p hp mid _
    simp only [around, if_pos hab, optDen_some, optDen_none]
    rcases lt_or_ge p (S.hi left) with h | h
    · simp only [habs p (hle.trans hp) h]
    · rw [S.den_after right p (hhi.trans h)]
  · intro x hx
    cases hx
    exact ⟨hok, le_rfl, le_rfl⟩
  · simpa using S.weight_pos right

/-- The newer right item starts with the left one and hides it altogether. -/
theorem MergeSound.discard_left (hba : b < a) (hok : S.Ok right) (hlo : S.lo left = S.lo right)
    (htouch : S.lo right ≤ S.hi left) (hhi : S.hi left ≤ S.hi right) (habs : Absorbs S right) :
    MergeSound S a left b right none none (some right) := by
  have hnot : ¬ a < b := by omega
  refine ⟨htouch, ?_, ?_, by simp, by simp, ?_, by simp, ?_⟩
  · intro p hp
    simp [around, S.den_before right p hp, S.den_before left p (hlo ▸ hp)]
  · intro p hp mid _
    simp only [around, if_neg hnot, optDen_some, optDen_none]
    rcases lt_or_ge p (S.hi right) with h | h
    · simp only [habs p hp h]
    · rw [S.den_after left p (hhi.trans h)]
  · intro x hx
    cases hx
    exact ⟨hok, hlo.le, le_rfl⟩
  · simpa using S.weight_pos left

/-- The part of the left item before the right one is emitted. -/
theorem MergeSound.split_left (hokr : S.Ok right) (hlt : S.lo right < S.hi left)
    (hle : S.lo left ≤ S.lo right) (he : Restricts S e left (S.lo left) (S.lo right))
    (hl : Restricts S l left (S.lo right) (S.hi left)) (hw : S.weight l < S.weight left) :
    MergeSound S a left b right (some e) (some l) (some right) := by
  refine ⟨hlt.le, ?_, ?_, ?_, ?_, ?_, ?_, ?_⟩
  · intro p hp
    have hlp : S.den l p = 1 := S.den_before l p (hl.lo_eq ▸ hp)
    have hep : S.den e p = S.den left p := by
      rcases lt_or_ge p (S.lo left) with h | h
      · rw [S.den_before left p h, S.den_before e p (he.lo_eq ▸ h)]
      · exact he.den_eq p h hp
    simp [around, hlp, S.den_before right p hp, hep]
  · intro p hp mid _
    have hlp : S.den l p = S.den left p := by
      rcases lt_or_ge p (S.hi left) with h | h
      · exact hl.den_eq p hp h
      · rw [S.den_after left p h, S.den_after l p (hl.hi_eq ▸ h)]
    simp [hlp]
  · intro x hx
    cases hx
    exact ⟨he.ok, he.lo_eq.ge, he.hi_eq.le⟩
  · intro x hx
    cases hx
    exact ⟨hl.ok, hl.lo_eq ▸ hle, hl.hi_eq.le⟩
  · intro x hx
    cases hx
    exact ⟨hokr, hle, le_rfl⟩
  · rintro x hx y (hy | hy)
    all_goals
      cases hx
      cases hy
    · rw [he.hi_eq, hl.lo_eq]
    · exact he.hi_eq.le
  · simpa using hw

/-- Two items of one interval are combined in place of the right one, or cancel each other. -/
theorem MergeSound.combine_right {r : Option α} (hlo : S.lo left = S.lo right)
    (htouch : S.lo right ≤ S.hi left)
    (hr : ∀ x ∈ r, S.Ok x ∧ S.lo x = S.lo right ∧ S.hi x = S.hi right)
    (hden : ∀ p, S.lo right ≤ p → ∀ mid : M,
      around a b 1 mid (optDen S r p) = around a b (S.den left p) mid (S.den right p))
    (hw : (r.toList.map S.weight).sum ≤ S.weight right) :
    MergeSound S a left b right none none r := by
  refine ⟨htouch, ?_, fun p hp mid _ => hden p hp mid, by simp, by simp, ?_, by simp, ?_⟩
  · intro p hp
    have hrp : optDen S r p = 1 := by
      cases r with
      | none => rfl
      | some x =>
        rw [optDen_some]
        exact S.den_before x p ((hr x rfl).2.1 ▸ hp)
    simp [around, hrp, S.den_before left p (hlo ▸ hp)]
  · intro x hx
    obtain ⟨hok, hxlo, hxhi⟩ := hr x hx
    exact ⟨hok, (hlo.trans hxlo.symm).le, hxhi.le⟩
  · have hpos := S.weight_pos left
    simp only [Option.toList_none, List.map_nil, List.sum_nil]
    omega

/-- Two items of one value, touching or in adjacent layers, are joined in place of the right. -/
theorem MergeSound.join_right {v : M} (hmul : ∀ m : M, v * m = v)
    (hnear : S.hi left = S.lo right ∨ a + 1 = b ∨ b + 1 = a)
    (htouch : S.lo right ≤ S.hi left) (hhi : S.hi left ≤ S.hi right)
    (hle : S.lo left ≤ S.lo right) (hl : HasValue S left v) (hr : HasValue S right v)
    (hokj : S.Ok r) (hloj : S.lo r = S.lo left) (hhij : S.hi r = S.hi right)
    (hj : HasValue S r v) (hw : S.weight r < S.weight left + S.weight right) :
    MergeSound S a left b right none none (some r) := by
  refine ⟨htouch, ?_, ?_, by simp, by simp, ?_, by simp, by simpa using hw⟩
  · intro p hp
    have hrp : S.den r p = S.den left p := by
      rcases lt_or_ge p (S.lo left) with h | h
      · rw [S.den_before left p h, S.den_before r p (hloj ▸ h)]
      · have hleft := hp.trans_le htouch
        rw [hl p h hleft, hj p (hloj ▸ h) (hhij ▸ hleft.trans_le hhi)]
    simp [around, hrp]
  · intro p hp mid hmid
    rcases lt_or_ge p (S.hi right) with h | h
    · rw [optDen_none, optDen_some, hj p (hloj ▸ hle.trans hp) (hhij ▸ h), hr p hp h]
      by_cases hlt : a < b
      · simp only [around, if_pos hlt, one_mul]
        rcases lt_or_ge p (S.hi left) with h' | h'
        · have hadj : a + 1 = b ∨ b + 1 = a := by
            rcases hnear with hnear | hnear
            · exact absurd (hnear ▸ hp) (not_le.mpr h')
            · exact hnear
          rw [hmid hadj, hl p (hle.trans hp) h', one_mul, mul_one, hmul]
        · rw [S.den_after left p h', one_mul]
      · simp only [around, if_neg hlt, mul_assoc, hmul]
    · rw [optDen_none, optDen_some, S.den_after r p (hhij ▸ h), S.den_after right p h,
        S.den_after left p (hhi.trans h)]
  · intro x hx
    cases hx
    exact ⟨hokj, hloj.ge, hhij.le⟩

/-- The left item contains the right one, of the same value and in an adjacent layer. -/
theorem MergeSound.absorb_right {v : M} (hmul : ∀ m : M, v * m = v)
    (hadj : a + 1 = b ∨ b + 1 = a) (hok : S.Ok left)
    (htouch : S.lo right ≤ S.hi left) (hhi : S.hi right ≤ S.hi left)
    (hle : S.lo left ≤ S.lo right) (hl : HasValue S left v) (hr : HasValue S right v) :
    MergeSound S a left b right none (some left) none := by
  refine ⟨htouch, ?_, ?_, by simp, ?_, by simp, by simp, ?_⟩
  · intro p _
    simp [around]
  · intro p hp mid hmid
    rw [hmid hadj]
    simp only [around, optDen_some, optDen_none, mul_one, one_mul]
    rcases lt_or_ge p (S.hi right) with h | h
    · rw [hl p (hle.trans hp) (h.trans_le hhi), hr p hp h, hmul]
    · rw [S.den_after right p h, one_mul, mul_one]
  · intro x hx
    cases hx
    exact ⟨hok, le_rfl, le_rfl⟩
  · simpa using S.weight_pos right

end Smos.Lib.Spans
