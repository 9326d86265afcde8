import Smos.Graph.CycleSearch

/-!
The invariant of the strongly connected components algorithm.

A node is visited once it has an index, and done once it has left the stack.  The nodes of the
calls in progress are on the stack.  Every other node on the stack reaches a lower one, so it is in
the component of a node whose visit has not ended; the nodes that are done are closed under edges,
so a component that is taken off the stack is complete.
-/
namespace Smos.Graph

open Lib.Cycles Relation List Function

namespace TarjanScc

section Extends

variable {T : Type} {s s' : TarjanScc T} {y : T}

def Visited (s : TarjanScc T) (x : T) : Prop := ∃ i, s.indices x = some i

def idx (s : TarjanScc T) (x : T) : ℕ := (s.indices x).getD 0

def Done (s : TarjanScc T) (x : T) : Prop := s.Visited x ∧ x ∉ s.stack

structure Extends (s s' : TarjanScc T) : Prop where
  indices : ∀ y, s.Visited y → s'.indices y = s.indices y
  lowLinks : ∀ y, s.Visited y → s'.lowLinks y = s.lowLinks y
  fresh : ∀ y, s'.Visited y → s.Visited y ∨ s.index ≤ s'.idx y
  index_le : s.index ≤ s'.index

theorem Extends.visited (h : Extends s s') (hy : s.Visited y) : s'.Visited y := by
  obtain ⟨i, hi⟩ := hy
  exact ⟨i, (h.indices y ⟨i, hi⟩).trans hi⟩

theorem Extends.idx_eq (h : Extends s s') (hy : s.Visited y) : s'.idx y = s.idx y := by
  rw [idx, h.indices y hy, idx]

theorem Extends.trans {s'' : TarjanScc T} (h : Extends s s') (h' : Extends s' s'') :
    Extends s s'' := by
  refine ⟨?_, ?_, ?_, h.index_le.trans h'.index_le⟩
  · intro y hy
    rw [h'.indices y (h.visited hy), h.indices y hy]
  · intro y hy
    rw [h'.lowLinks y (h.visited hy), h.lowLinks y hy]
  · intro y hy
    rcases h'.fresh y hy with hy' | hle
    · rw [h'.idx_eq hy']
      exact h.fresh y hy'
    · exact .inr (h.index_le.trans hle)

end Extends

end TarjanScc

variable {T : Type} [LinearOrder T] {graph : DirectedGraph T}

abbrev DirectedGraph.Reach (self : DirectedGraph T) : T → T → Prop := ReflTransGen self.Edge

namespace TarjanScc

variable {s s' : TarjanScc T} {gray : List T} {x y : T}

structure Inv (graph : DirectedGraph T) (gray : List T) (s : TarjanScc T) : Prop where
  idx_lt : ∀ x, s.Visited x → s.idx x < s.index
  mem_graph : ∀ x, s.Visited x → x ∈ graph
  onStack : ∀ x, x ∈ s.onStack ↔ x ∈ s.stack
  stack_visited : ∀ x ∈ s.stack, s.Visited x
  stack_sorted : s.stack.Pairwise fun x y => s.idx y < s.idx x
  gray_stack : ∀ x ∈ gray, x ∈ s.stack
  done_closed : ∀ x y, s.Done x → graph.Edge x y → s.Done y
  black_edge : ∀ x ∈ s.stack, x ∉ gray → ∀ y, graph.Edge x y → s.Visited y
  black_lower : ∀ x ∈ s.stack, x ∉ gray → ∃ y ∈ s.stack, s.idx y < s.idx x ∧ graph.Reach x y
  cycles : ∀ c, c ∈ s.cycles ↔ graph.IsCycle c ∧ ∀ x ∈ c, s.Done x
  order_nodup : s.nodeOrder.Nodup
  order_mem : ∀ x, x ∈ s.nodeOrder ↔ s.Visited x ∧ x ∉ gray
  order_before : ∀ front x rest, s.nodeOrder = front ++ x :: rest → ∀ y, graph.Edge x y →
    y ∈ front ∨ graph.Reach y x

theorem Inv.idx_lt_of_ext {a b : T} (h : Inv graph gray s) (hext : Extends s s') (ha : a ∈ s.stack)
    (hb : b ∈ s.stack) (hlt : s.idx b < s.idx a) : s'.idx b < s'.idx a := by
  rwa [hext.idx_eq (h.stack_visited a ha), hext.idx_eq (h.stack_visited b hb)]

structure Post (graph : DirectedGraph T) (x : T) (s s' : TarjanScc T) : Prop where
  ext : Extends s s'
  visited : s'.Visited x
  /-- What is left of the visit on the stack, and the low link of the node. -/
  low : ∃ left n, s'.stack = left ++ s.stack ∧ s'.lowLinks x = some n ∧
    (∀ y ∈ left, graph.Reach x y ∧ ¬ s.Visited y) ∧
    (s.index ≤ n ∨ ∃ y ∈ s'.stack, s'.idx y = n ∧ graph.Reach x y) ∧
    ∀ y ∈ left, ∀ w ∈ s.stack, graph.Edge y w → n ≤ s'.idx w

/-- The state of the visit of a node after some of its targets: what the visits of these have left
on the stack above the node, and its low link. -/
structure Loop (graph : DirectedGraph T) (x : T) (s₀ : TarjanScc T) (targets : List T)
    (s : TarjanScc T) (left : List T) (n : ℕ) : Prop where
  ext : Extends s₀ s
  index_lt : s₀.index < s.index
  indices_self : s.indices x = some s₀.index
  stack : s.stack = left ++ x :: s₀.stack
  lowLink : s.lowLinks x = some n
  reach : ∀ y ∈ left, graph.Reach x y ∧ ¬ s₀.Visited y
  lowLink_le : n ≤ s₀.index
  attained : ∃ y ∈ s.stack, s.idx y = n ∧ graph.Reach x y
  cross : ∀ y ∈ left, ∀ w ∈ s₀.stack, graph.Edge y w → n ≤ s.idx w
  processed : ∀ t ∈ targets, s.Visited t ∧ (t ∈ s₀.stack → n ≤ s.idx t)

section Enter

theorem visited_enter : (s.enter x).Visited y ↔ y = x ∨ s.Visited y := by
  by_cases hyx : y = x
  · subst hyx
    simp [Visited, enter]
  · simp [Visited, enter, hyx]

theorem idx_enter_self : (s.enter x).idx x = s.index := by
  simp [idx, enter]

theorem extends_enter (hx : ¬ s.Visited x) : Extends s (s.enter x) := by
  have hne : ∀ y, s.Visited y → y ≠ x := by
    rintro y hy rfl
    exact hx hy
  refine ⟨?_, ?_, ?_, Nat.le_succ _⟩
  · intro y hy
    exact update_of_ne (hne y hy) _ _
  · intro y hy
    exact update_of_ne (hne y hy) _ _
  · intro y hy
    rcases visited_enter.mp hy with rfl | hy
    · exact .inr (Nat.le_of_eq idx_enter_self.symm)
    · exact .inl hy

theorem Inv.enter (h : Inv graph gray s) (hx : ¬ s.Visited x) (hgraph : x ∈ graph) :
    Inv graph (x :: gray) (s.enter x) := by
  have hext := extends_enter hx
  have hdone : ∀ y, (s.enter x).Done y ↔ s.Done y := by
    intro y
    simp only [Done, visited_enter]
    change (y = x ∨ s.Visited y) ∧ y ∉ x :: s.stack ↔ _
    rw [mem_cons]
    have hne : s.Visited y → y ≠ x := by
      rintro hy rfl
      exact hx hy
    tauto
  refine ⟨?_, ?_, ?_, ?_, ?_, ?_, ?_, ?_, ?_, ?_, h.order_nodup, ?_, h.order_before⟩
  · intro y hy
    rcases visited_enter.mp hy with rfl | hy
    · rw [idx_enter_self]
      exact Nat.lt_succ_self _
    · rw [hext.idx_eq hy]
      exact Nat.lt_succ_of_lt (h.idx_lt y hy)
  · intro y hy
    rcases visited_enter.mp hy with rfl | hy
    · exact hgraph
    · exact h.mem_graph y hy
  · intro y
    change y ∈ insert x s.onStack ↔ y ∈ x :: s.stack
    rw [Finset.mem_insert, mem_cons, h.onStack]
  · exact forall_mem_cons.mpr ⟨visited_enter.mpr (.inl rfl),
      fun y hy => visited_enter.mpr (.inr (h.stack_visited y hy))⟩
  · refine pairwise_cons.mpr ⟨?_, ?_⟩
    · intro y hy
      have hy' := h.stack_visited y hy
      rw [hext.idx_eq hy', idx_enter_self]
      exact h.idx_lt y hy'
    · exact h.stack_sorted.imp_of_mem (h.idx_lt_of_ext hext)
  · exact cons_subset_cons x h.gray_stack
  · intro y z hy hedge
    exact (hdone z).mpr (h.done_closed y z ((hdone y).mp hy) hedge)
  · intro y hy hgray z hedge
    rw [mem_cons, not_or] at hgray
    have hy' := (mem_cons.mp hy).resolve_left hgray.1
    exact hext.visited (h.black_edge y hy' hgray.2 z hedge)
  · intro y hy hgray
    rw [mem_cons, not_or] at hgray
    have hy' := (mem_cons.mp hy).resolve_left hgray.1
    obtain ⟨z, hz, hlt, hreach⟩ := h.black_lower y hy' hgray.2
    exact ⟨z, mem_cons_of_mem x hz, h.idx_lt_of_ext hext hy' hz hlt, hreach⟩
  · intro c
    simp only [hdone]
    exact h.cycles c
  · intro y
    rw [visited_enter, mem_cons, not_or]
    change y ∈ s.nodeOrder ↔ _
    rw [h.order_mem]
    constructor
    · rintro ⟨hy, hgray⟩
      refine ⟨.inr hy, ?_, hgray⟩
      rintro rfl
      exact hx hy
    · rintro ⟨hy, hne, hgray⟩
      exact ⟨hy.resolve_left hne, hgray⟩

theorem loop_enter (hx : ¬ s.Visited x) : Loop graph x s [] (s.enter x) [] s.index := by
  refine ⟨extends_enter hx, Nat.lt_succ_self _, update_self _ _ _, rfl,
    update_self _ _ _, by simp, Nat.le_refl _, ?_, by simp, by simp⟩
  exact ⟨x, mem_cons_self, idx_enter_self, .refl⟩

end Enter

end TarjanScc

end Smos.Graph
