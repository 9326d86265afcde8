import Mathlib.Order.Interval.Set.Basic
import Mathlib.Order.Nat

/-!
Lists of half-open intervals of natural numbers in increasing order.

The items may be of any type; `lo` and `hi` give the ends of an item's interval.  The main lemmas
say what becomes of the covered set when one item of a list is replaced by others inside it, and
when a list is cut at a point.
-/
namespace Smos.Lib.Intervals

open List Set

variable {α : Type*} (lo hi : α → ℕ)

def cover (l : List α) : Set ℕ := {x | ∃ a ∈ l, lo a ≤ x ∧ x < hi a}

/-- The intervals are not empty and in increasing order, with a gap of at least `g` between two of
them. -/
structure Spaced (g : ℕ) (l : List α) : Prop where
  nonempty : ∀ a ∈ l, lo a < hi a
  ordered : l.Pairwise fun a b => hi a + g ≤ lo b

variable {lo hi} {g : ℕ} {l m front rest : List α} {a b : α} {x p : ℕ}

theorem mem_cover : x ∈ cover lo hi l ↔ ∃ a ∈ l, lo a ≤ x ∧ x < hi a := Iff.rfl

@[simp] theorem cover_nil : cover lo hi [] = ∅ := by
  ext x
  simp [mem_cover]

@[simp] theorem cover_cons : cover lo hi (a :: l) = Set.Ico (lo a) (hi a) ∪ cover lo hi l := by
  ext x
  simp [mem_cover]

@[simp] theorem cover_append : cover lo hi (l ++ m) = cover lo hi l ∪ cover lo hi m := by
  ext x
  simp only [mem_cover, mem_union, mem_append, or_and_right, exists_or]

theorem Spaced.nil : Spaced lo hi g [] := ⟨by simp, List.Pairwise.nil⟩

theorem Spaced.singleton (h : lo a < hi a) : Spaced lo hi g [a] := by
  refine ⟨?_, pairwise_singleton _ _⟩
  intro b hb
  rwa [mem_singleton.mp hb]

theorem spaced_append : Spaced lo hi g (l ++ m) ↔
    Spaced lo hi g l ∧ Spaced lo hi g m ∧ ∀ a ∈ l, ∀ b ∈ m, hi a + g ≤ lo b := by
  constructor
  · intro h
    obtain ⟨hl, hm, hlm⟩ := pairwise_append.mp h.ordered
    obtain ⟨hl', hm'⟩ := forall_mem_append.mp h.nonempty
    exact ⟨⟨hl', hl⟩, ⟨hm', hm⟩, hlm⟩
  · rintro ⟨hl, hm, hlm⟩
    exact ⟨forall_mem_append.mpr ⟨hl.nonempty, hm.nonempty⟩,
      pairwise_append.mpr ⟨hl.ordered, hm.ordered, hlm⟩⟩

theorem spaced_cons : Spaced lo hi g (a :: l) ↔
    lo a < hi a ∧ Spaced lo hi g l ∧ ∀ b ∈ l, hi a + g ≤ lo b := by
  constructor
  · intro h
    obtain ⟨hl, hordered⟩ := pairwise_cons.mp h.ordered
    obtain ⟨ha, hnonempty⟩ := forall_mem_cons.mp h.nonempty
    exact ⟨ha, ⟨hnonempty, hordered⟩, hl⟩
  · rintro ⟨ha, hl, hal⟩
    exact ⟨forall_mem_cons.mpr ⟨ha, hl.nonempty⟩, pairwise_cons.mpr ⟨hal, hl.ordered⟩⟩

theorem Spaced.lo_lt (h : Spaced lo hi g l) : l.Pairwise fun a b => lo a < lo b := by
  refine h.ordered.imp_of_mem ?_
  intro a b ha _ hab
  have hlt := h.nonempty a ha
  omega

/-- An item is outside the items before it. -/
theorem Spaced.not_mem_front (h : Spaced lo hi g (front ++ a :: rest)) : a ∉ front := by
  intro ha
  obtain ⟨hfront, -, hbetween⟩ := spaced_append.mp h
  have hlt := hfront.nonempty a ha
  have hle := hbetween a ha a mem_cons_self
  omega

/-- A list is empty or cut before its last item. -/
theorem Spaced.eq_nil_or_concat (h : Spaced lo hi g l) :
    l = [] ∨ ∃ front a, l = front ++ [a] ∧ lo a < hi a ∧ ∀ b ∈ front, hi b + g ≤ lo a := by
  rcases l.eq_nil_or_concat with rfl | ⟨front, a, hconcat⟩
  · exact .inl rfl
  · rw [concat_eq_append] at hconcat
    subst hconcat
    obtain ⟨-, ha, hbetween⟩ := spaced_append.mp h
    exact .inr ⟨front, a, rfl, ha.nonempty a mem_cons_self,
      fun b hb => hbetween b hb a mem_cons_self⟩

/-- The last item is a given one or after it. -/
theorem Spaced.exists_concat_of_mem (h : Spaced lo hi g l) (ha : a ∈ l) :
    ∃ front b, l = front ++ [b] ∧ lo b < hi b ∧ (a = b ∨ hi a + g ≤ lo b) := by
  obtain ⟨front, b, rfl, hne, hgap⟩ := h.eq_nil_or_concat.resolve_left (ne_nil_of_mem ha)
  refine ⟨front, b, rfl, hne, ?_⟩
  rcases mem_append.mp ha with ha | ha
  · exact .inr (hgap a ha)
  · exact .inl (mem_singleton.mp ha)

/-- What is covered below a point after all items but the last. -/
theorem cover_concat_inter_Iio (hfront : ∀ b ∈ front, hi b ≤ p) :
    cover lo hi (front ++ [a]) ∩ Set.Iio p =
      cover lo hi front ∪ Set.Ico (lo a) (min (hi a) p) := by
  ext x
  have hx : x ∈ cover lo hi front → x < p := by
    rintro ⟨b, hb, -, hxb⟩
    exact hxb.trans_le (hfront b hb)
  simp only [cover_append, cover_cons, cover_nil, union_empty, mem_inter_iff,
    mem_union, mem_Iio, mem_Ico, Nat.lt_min]
  tauto

/-- What is covered from a point before all items but the first. -/
theorem cover_cons_inter_Ici (hl : ∀ b ∈ l, p ≤ lo b) :
    cover lo hi (a :: l) ∩ Set.Ici p = Set.Ico (max (lo a) p) (hi a) ∪ cover lo hi l := by
  ext x
  have hx : x ∈ cover lo hi l → p ≤ x := by
    rintro ⟨b, hb, hbx, -⟩
    exact (hl b hb).trans hbx
  simp only [cover_cons, mem_inter_iff, mem_union, mem_Ici, mem_Ico, Nat.max_le]
  tauto

/-- Replacing an item by items inside it keeps the order. -/
theorem Spaced.replace (h : Spaced lo hi g (front ++ a :: rest)) (hmid : Spaced lo hi g m)
    (hin : ∀ b ∈ m, lo a ≤ lo b ∧ hi b ≤ hi a) : Spaced lo hi g (front ++ (m ++ rest)) := by
  obtain ⟨hfront, hrest, hbetween⟩ := spaced_append.mp h
  obtain ⟨-, hrest, hafter⟩ := spaced_cons.mp hrest
  refine spaced_append.mpr ⟨hfront, spaced_append.mpr ⟨hmid, hrest, ?_⟩, ?_⟩
  · intro b hb c hc
    have hbc := hafter c hc
    have hba := hin b hb
    omega
  · intro b hb c hc
    have hba := hbetween b hb a mem_cons_self
    rcases mem_append.mp hc with hc | hc
    · have hca := hin c hc
      omega
    · exact hbetween b hb c (mem_cons_of_mem a hc)

/-- Replacing an item by what remains of it without a part removes the part from the cover. -/
theorem Spaced.cover_replace (h : Spaced lo hi g (front ++ a :: rest)) {part : Set ℕ}
    (hpart : part ⊆ Set.Ico (lo a) (hi a))
    (hmid : cover lo hi m = Set.Ico (lo a) (hi a) \ part) :
    cover lo hi (front ++ (m ++ rest)) = cover lo hi (front ++ a :: rest) \ part := by
  obtain ⟨hfront, hrest, hbetween⟩ := spaced_append.mp h
  obtain ⟨-, hrest, hafter⟩ := spaced_cons.mp hrest
  ext x
  have hx : x ∈ part → x ∉ cover lo hi front ∧ x ∉ cover lo hi rest := by
    intro hx
    have hxa := mem_Ico.mp (hpart hx)
    refine ⟨?_, ?_⟩
    · rintro ⟨b, hb, hxb⟩
      have hba := hbetween b hb a mem_cons_self
      omega
    · rintro ⟨b, hb, hxb⟩
      have hab := hafter b hb
      omega
  simp only [cover_append, cover_cons, hmid, mem_union, mem_sdiff]
  tauto

/-- A covered interval lies in one item, if the items do not touch. -/
theorem Spaced.exists_of_Ico_subset {q : ℕ} (h : Spaced lo hi (g + 1) l) (hpq : p < q)
    (hsub : Set.Ico p q ⊆ cover lo hi l) : ∃ a ∈ l, lo a ≤ p ∧ q ≤ hi a := by
  obtain ⟨a, ha, hlo, hhi⟩ := hsub ⟨Nat.le_refl p, hpq⟩
  refine ⟨a, ha, hlo, ?_⟩
  by_contra hlt
  obtain ⟨b, hb, hblo, hbhi⟩ := hsub ⟨hhi.le, Nat.lt_of_not_le hlt⟩
  obtain ⟨front, rest, rfl⟩ := append_of_mem ha
  obtain ⟨-, hrest, hbefore⟩ := spaced_append.mp h
  rcases mem_append.mp hb with hb | hb
  · have hgap := hbefore b hb a mem_cons_self
    omega
  · rcases mem_cons.mp hb with rfl | hb
    · omega
    · have hgap := (spaced_cons.mp hrest).2.2 b hb
      omega

/-- A list cut where a property that is lost once stops holding. -/
theorem not_of_mem_dropWhile {P : α → Bool} {R : α → α → Prop} (hl : l.Pairwise R)
    (hP : ∀ a b, R a b → P a = false → P b = false) :
    ∀ a ∈ l.dropWhile P, P a = false := by
  induction l with
  | nil => simp
  | cons b l ih =>
    obtain ⟨hb, hl⟩ := pairwise_cons.mp hl
    cases hPb : P b with
    | true =>
      rw [dropWhile_cons_of_pos hPb]
      exact ih hl
    | false =>
      rw [dropWhile_cons_of_neg (by simp [hPb])]
      exact forall_mem_cons.mpr ⟨hPb, fun a ha => hP b a (hb a ha) hPb⟩

end Smos.Lib.Intervals
