import Mathlib.Data.List.Cycle

/-!
Paths and elementary cycles of a relation.

An elementary cycle is a list of distinct points, each related to the next and the last one to the
first.  A cycle can be rotated, so it may be written from any of its points.
-/
namespace Smos.Lib.Cycles

open Relation List

variable {α : Type*} {R : α → α → Prop} {a b x y : α} {l m p : List α}

/-- Distinct points, each related to the next and the last one to the first. -/
structure Elementary (R : α → α → Prop) (l : List α) : Prop where
  ne_nil : l ≠ []
  nodup : l.Nodup
  chain : Cycle.Chain R (l : Cycle α)

theorem elementary_cons :
    Elementary R (a :: l) ↔ (a :: l).Nodup ∧ (a :: (l ++ [a])).IsChain R := by
  constructor
  · intro h
    exact ⟨h.nodup, (Cycle.chain_coe_cons R a l).mp h.chain⟩
  · rintro ⟨hnodup, hchain⟩
    exact ⟨cons_ne_nil a l, hnodup, (Cycle.chain_coe_cons R a l).mpr hchain⟩

theorem Elementary.rotated (h : Elementary R l) (hm : l ~r m) : Elementary R m := by
  refine ⟨?_, hm.nodup_iff.mp h.nodup, ?_⟩
  · rintro rfl
    exact h.ne_nil (isRotated_nil_iff.mp hm)
  · rw [← Cycle.coe_eq_coe.mpr hm]
    exact h.chain

/-- A cycle written from one of its points. -/
theorem exists_isRotated_cons (hx : x ∈ l) : ∃ m, l ~r x :: m := by
  obtain ⟨front, rest, rfl⟩ := append_of_mem hx
  exact ⟨rest ++ front, isRotated_append⟩

theorem transGen_of_isChain (h : (a :: (l ++ [b])).IsChain R) : TransGen R a b := by
  have hpairs := (h.imp fun _ _ => TransGen.single).pairwise
  exact rel_of_pairwise_cons hpairs (mem_append_right l mem_cons_self)

/-- From each point of a cycle every other one is reached. -/
theorem Elementary.reach (h : Elementary R l) (hx : x ∈ l) (hy : y ∈ l) : ReflTransGen R x y := by
  obtain ⟨m, hm⟩ := exists_isRotated_cons hx
  have hchain := (elementary_cons.mp (h.rotated hm)).2
  have hpairs := (hchain.imp fun _ _ => ReflTransGen.single).pairwise
  exact hpairs.rel_head (mem_append_left _ (hm.mem_iff.mp hy))

/-- A path to a set can be cut short at the first point of the set and at repeated points. -/
theorem exists_simple_path {C : α → Prop} (h : ReflTransGen R a b) (hb : C b) :
    ∃ p c, (p ++ [c]).head? = some a ∧ (p ++ [c]).IsChain R ∧ (p ++ [c]).Nodup ∧ C c ∧
      ∀ x ∈ p, ¬ C x := by
  classical
  induction h using ReflTransGen.head_induction_on with
  | refl => exact ⟨[], b, rfl, .singleton _, nodup_singleton _, hb, by simp⟩
  | @head a a' hstep _ ih =>
    obtain ⟨p, c, hhead, hchain, hnodup, hc, hout⟩ := ih
    by_cases ha : C a
    · exact ⟨[], a, rfl, .singleton _, nodup_singleton _, ha, by simp⟩
    · by_cases hmem : a ∈ p
      · obtain ⟨front, rest, rfl⟩ := append_of_mem hmem
        rw [append_assoc] at hchain hnodup
        refine ⟨a :: rest, c, rfl, hchain.right_of_append, (nodup_append.mp hnodup).2.1, hc, ?_⟩
        intro x hx
        exact hout x (mem_append_right front hx)
      · refine ⟨a :: p, c, rfl, ?_, ?_, hc, ?_⟩
        · rw [cons_append]
          refine isChain_cons.mpr ⟨?_, hchain⟩
          intro y hy
          rw [hhead] at hy
          cases hy
          exact hstep
        · rw [cons_append, nodup_cons]
          refine ⟨?_, hnodup⟩
          intro hmem'
          rcases mem_append.mp hmem' with hmem' | hmem'
          · exact hmem hmem'
          · rw [mem_singleton.mp hmem'] at ha
            exact ha hc
        · exact forall_mem_cons.mpr ⟨ha, hout⟩

/-- A relation has an elementary cycle as soon as a point reaches itself. -/
theorem exists_elementary_iff : (∃ l, Elementary R l) ↔ ∃ a, TransGen R a a := by
  constructor
  · rintro ⟨l, hl⟩
    cases l with
    | nil => exact absurd rfl hl.ne_nil
    | cons a l => exact ⟨a, transGen_of_isChain (elementary_cons.mp hl).2⟩
  · rintro ⟨a, ha⟩
    obtain ⟨b, hab, hba⟩ := TransGen.head'_iff.mp ha
    obtain ⟨p, c, hhead, hchain, hnodup, rfl, hout⟩ := exists_simple_path (C := (· = a)) hba rfl
    refine ⟨c :: p, elementary_cons.mpr ⟨?_, isChain_cons.mpr ⟨?_, hchain⟩⟩⟩
    · rw [nodup_cons]
      exact ⟨fun hmem => hout c hmem rfl, (nodup_append.mp hnodup).1⟩
    · intro y hy
      rw [hhead] at hy
      cases hy
      exact hab

/-- A relation restricted to the points on cycles through a point still reaches them from it. -/
theorem reflTransGen_restrict {S : α → Prop}
    (hS : ∀ x, ReflTransGen R a x → ReflTransGen R x a → S x) (hab : ReflTransGen R a b)
    (hba : ReflTransGen R b a) : ReflTransGen (fun x y => R x y ∧ S y) a b := by
  induction hab with
  | refl => exact .refl
  | @tail b c hab hbc ih =>
    exact .tail (ih (.head hbc hba)) ⟨hbc, hS c (hab.tail hbc) hba⟩

theorem le_of_isRotated [Preorder α] (h : (a :: l) ~r (b :: m)) (ha : ∀ x ∈ l, a ≤ x) : a ≤ b := by
  rcases mem_cons.mp (h.mem_iff.mpr mem_cons_self : b ∈ a :: l) with rfl | hmem
  · exact le_rfl
  · exact ha b hmem

/-- A list of distinct points has one rotation that starts with the lowest. -/
theorem eq_of_isRotated [PartialOrder α] (h : (a :: l) ~r (b :: m)) (hnodup : (a :: l).Nodup)
    (ha : ∀ x ∈ l, a ≤ x) (hb : ∀ x ∈ m, b ≤ x) : a :: l = b :: m := by
  obtain rfl := le_antisymm (le_of_isRotated h ha) (le_of_isRotated h.symm hb)
  obtain ⟨n, hrotate⟩ := h
  rw [← rotate_mod] at hrotate
  have hhead := head?_rotate (Nat.mod_lt n (length_pos_of_ne_nil (cons_ne_nil a l)))
  rw [hrotate] at hhead
  have hzero : 0 = n % (a :: l).length := (getElem?_inj (by simp) hnodup).mp hhead
  rw [← hrotate, ← hzero, rotate_zero]

end Smos.Lib.Cycles
