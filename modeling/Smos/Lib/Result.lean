import Mathlib.Data.List.Basic

/-!
Fallible computations that succeed.

A computation in `Except` that succeeds has succeeded in each of its steps.
-/
namespace Smos.Lib.Result

universe u v

variable {ε : Type u} {α β : Type v} {f : α → Except ε β}

theorem bind_eq_ok {x : Except ε α} {b : β} :
    (x >>= f) = .ok b ↔ ∃ a, x = .ok a ∧ f a = .ok b := by
  cases x with
  | error e =>
    constructor
    · intro h
      cases h
    · rintro ⟨a, ha, -⟩
      cases ha
  | ok a =>
    constructor
    · intro h
      exact ⟨a, rfl, h⟩
    · rintro ⟨a', ha, hf⟩
      cases ha
      exact hf

theorem pure_eq_ok {a b : α} : (pure a : Except ε α) = .ok b ↔ a = b := by
  constructor
  · intro h
    cases h
    rfl
  · rintro rfl
    rfl

/-- A successful traversal has succeeded at each element. -/
theorem forall₂_of_mapM_eq_ok {l : List α} {r : List β}
    (h : l.mapM f = .ok r) : List.Forall₂ (fun a b => f a = .ok b) l r := by
  induction l generalizing r with
  | nil =>
    cases pure_eq_ok.mp h
    exact .nil
  | cons a l ih =>
    rw [List.mapM_cons] at h
    obtain ⟨b, hb, h⟩ := bind_eq_ok.mp h
    obtain ⟨bs, hbs, h⟩ := bind_eq_ok.mp h
    cases pure_eq_ok.mp h
    exact .cons hb (ih hbs)

theorem exists_of_mapM_eq_ok {l : List α} {r : List β} {b : β}
    (h : l.mapM f = .ok r) (hb : b ∈ r) : ∃ a ∈ l, f a = .ok b := by
  have hall := forall₂_of_mapM_eq_ok h
  clear h
  induction hall with
  | nil => cases hb
  | cons hhead _ ih =>
    rcases List.mem_cons.mp hb with rfl | hb
    · exact ⟨_, List.mem_cons_self, hhead⟩
    · obtain ⟨a, ha, hfa⟩ := ih hb
      exact ⟨a, List.mem_cons_of_mem _ ha, hfa⟩

end Smos.Lib.Result
