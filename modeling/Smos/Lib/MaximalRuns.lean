import Mathlib.Order.Interval.Set.Nat
import Smos.Lib.Intervals

/-!
The maximal runs of a set of natural numbers.  A list of intervals that are not empty and do not
touch each other holds exactly the maximal runs of the set that it covers.
-/
namespace Smos.Lib.Intervals

variable {α : Type*} {lo hi : α → ℕ} {g : ℕ} {l : List α} {a b : α} {x y p : ℕ}

/-- An interval of points of a set that can be extended on neither side. -/
structure IsMaximalRun (s : Set ℕ) (x y : ℕ) : Prop where
  lt : x < y
  mem : ∀ p, x ≤ p → p < y → p ∈ s
  stop : y ∉ s
  start : ∀ p, p + 1 = x → p ∉ s

/-- Two items of a list are the same, or one of them is before the other. -/
theorem Spaced.trichotomy (h : Spaced lo hi g l) (ha : a ∈ l) (hb : b ∈ l) :
    a = b ∨ hi a + g ≤ lo b ∨ hi b + g ≤ lo a := by
  by_cases hab : a = b
  · exact Or.inl hab
  · have hordered : l.Pairwise fun c d => hi c + g ≤ lo d ∨ hi d + g ≤ lo c :=
      h.ordered.imp fun hcd => Or.inl hcd
    have : Std.Symm fun c d => hi c + g ≤ lo d ∨ hi d + g ≤ lo c := ⟨fun _ _ h => h.symm⟩
    exact Or.inr (hordered.forall ha hb hab)

/-- The end of an item is not covered. -/
theorem Spaced.hi_not_mem (h : Spaced lo hi 1 l) (ha : a ∈ l) : hi a ∉ cover lo hi l := by
  rintro ⟨b, hb, hlo, hhi⟩
  have hlt := h.nonempty a ha
  rcases h.trichotomy ha hb with rfl | hab | hba
  · omega
  · omega
  · omega

/-- The point before an item is not covered. -/
theorem Spaced.pred_not_mem (h : Spaced lo hi 1 l) (ha : a ∈ l) (hp : p + 1 = lo a) :
    p ∉ cover lo hi l := by
  rintro ⟨b, hb, hlo, hhi⟩
  have hlt := h.nonempty a ha
  rcases h.trichotomy ha hb with rfl | hab | hba
  · omega
  · omega
  · omega

/-- The items are the maximal runs of what they cover. -/
theorem Spaced.isMaximalRun_iff (h : Spaced lo hi 1 l) :
    IsMaximalRun (cover lo hi l) x y ↔ ∃ a ∈ l, lo a = x ∧ hi a = y := by
  constructor
  · intro hrun
    obtain ⟨a, ha, hlo, hhi⟩ := hrun.mem x le_rfl hrun.lt
    have hx : lo a = x := by
      by_contra hne
      have hpred : x - 1 + 1 = x := by omega
      exact hrun.start (x - 1) hpred ⟨a, ha, by omega, by omega⟩
    refine ⟨a, ha, hx, ?_⟩
    rcases Nat.lt_trichotomy (hi a) y with hlt | heq | hgt
    · exact absurd (hrun.mem (hi a) (by omega) hlt) (h.hi_not_mem ha)
    · exact heq
    · have hxy := hrun.lt
      exact absurd ⟨a, ha, by omega, hgt⟩ hrun.stop
  · rintro ⟨a, ha, rfl, rfl⟩
    exact ⟨h.nonempty a ha, fun p hlo hhi => ⟨a, ha, hlo, hhi⟩, h.hi_not_mem ha,
      fun p hp => h.pred_not_mem ha hp⟩

theorem finite_cover (lo hi : α → ℕ) (l : List α) : (cover lo hi l).Finite := by
  induction l with
  | nil => simp
  | cons a l ih =>
    rw [cover_cons]
    exact (Set.finite_Ico _ _).union ih

/-- The size of what is covered. -/
theorem Spaced.ncard_cover (h : Spaced lo hi g l) :
    (cover lo hi l).ncard = (l.map fun a => hi a - lo a).sum := by
  induction l with
  | nil => simp
  | cons a l ih =>
    obtain ⟨-, hl, hafter⟩ := spaced_cons.mp h
    have hdisjoint : Disjoint (Set.Ico (lo a) (hi a)) (cover lo hi l) := by
      rw [Set.disjoint_left]
      rintro p hp ⟨b, hb, hlo, -⟩
      have hab := hafter b hb
      rw [Set.mem_Ico] at hp
      omega
    rw [cover_cons, Set.ncard_union_eq hdisjoint (Set.finite_Ico _ _) (finite_cover lo hi l), ih hl,
      List.map_cons, List.sum_cons, ← Finset.coe_Ico, Set.ncard_coe_finset, Nat.card_Ico]

end Smos.Lib.Intervals
