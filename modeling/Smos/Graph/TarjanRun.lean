import Smos.Graph.TarjanInvariant

/-!
Visits keep the invariant, and the topological sort is correct.
-/
namespace Smos.Graph

open Lib.Cycles Relation List Function

variable {T : Type} [LinearOrder T] {graph : DirectedGraph T}

namespace TarjanScc

variable {s s' s₀ : TarjanScc T} {gray targets : List T} {x y t : T}

section Targets

theorem Inv.withLowLinks (h : Inv graph gray s) (lowLinks : T → Option ℕ) :
    Inv graph gray { s with lowLinks := lowLinks } :=
  { h with }

theorem Inv.done_reach (h : Inv graph gray s) (hy : s.Done y) (hreach : graph.Reach y t) :
    s.Done t := by
  induction hreach with
  | refl => exact hy
  | tail _ hedge ih => exact h.done_closed _ _ ih hedge

theorem Extends.updateLowLink (h : Extends s s') (hx : ¬ s.Visited x) (low : Option ℕ) :
    Extends s { s' with lowLinks := update s'.lowLinks x low } := by
  refine { h with lowLinks := fun y hy => (update_of_ne ?_ _ _).trans (h.lowLinks y hy) }
  rintro rfl
  exact hx hy

theorem lower_eq {n : ℕ} (h : s.lowLinks x = some n) (value : ℕ) :
    s.lower x value = some
      { s with lowLinks := update s.lowLinks x (some (min n value)) } := by
  rw [lower, h]
  rfl

variable {left : List T} {n : ℕ}

section

variable (h : Loop graph x s₀ targets s left n)
include h

/-- A target that is on the stack lowers the low link to its index. -/
theorem Loop.lower_onStack
    (hinv : Inv graph (x :: gray) s) (hx : ¬ s₀.Visited x) (hedge : graph.Edge x t)
    (ht : t ∈ s.stack) :
    ∃ s', s.lower x (s.idx t) = some s' ∧ Inv graph (x :: gray) s' ∧
      Loop graph x s₀ (targets ++ [t]) s' left (min n (s.idx t)) := by
  refine ⟨_, lower_eq h.lowLink _, hinv.withLowLinks _, h.ext.updateLowLink hx _,
    h.index_lt, h.indices_self, h.stack, update_self _ _ _, h.reach,
    (Nat.min_le_left _ _).trans h.lowLink_le, ?_, ?_, ?_⟩
  · rcases Nat.le_total n (s.idx t) with hmin | hmin
    · rw [Nat.min_eq_left hmin]
      exact h.attained
    · rw [Nat.min_eq_right hmin]
      exact ⟨t, ht, rfl, .single hedge⟩
  · intro y hy w hw hyw
    exact (Nat.min_le_left _ _).trans (h.cross y hy w hw hyw)
  · intro t' ht'
    rcases mem_append.mp ht' with ht' | ht'
    · obtain ⟨hvisited, hle'⟩ := h.processed t' ht'
      exact ⟨hvisited, fun hmem => (Nat.min_le_left _ _).trans (hle' hmem)⟩
    · rw [mem_singleton.mp ht']
      exact ⟨hinv.stack_visited t ht, fun _ => Nat.min_le_right _ _⟩

theorem Loop.mem_stack {w : T} (hw : w ∈ s₀.stack) :
    w ∈ s.stack := by
  rw [h.stack]
  exact mem_append_right left (mem_cons_of_mem x hw)

/-- A target whose component is complete changes nothing. -/
theorem Loop.skip (ht : s.Visited t) (hout : t ∉ s.stack) :
    Loop graph x s₀ (targets ++ [t]) s left n := by
  refine { h with processed := forall_mem_append.mpr ⟨h.processed, ?_⟩ }
  exact forall_mem_singleton.mpr ⟨ht, fun hmem => absurd (h.mem_stack hmem) hout⟩

/-- A target that is visited lowers the low link to its own. -/
theorem Loop.lower_visit (hinv₀ : Inv graph gray s₀)
    (hinv : Inv graph (x :: gray) s) (hx : ¬ s₀.Visited x) (hedge : graph.Edge x t)
    (ht : ¬ s.Visited t) (hpost : Post graph t s s') (hinv' : Inv graph (x :: gray) s') :
    ∃ m s'' left', s'.lowLinks t = some m ∧ s'.lower x m = some s'' ∧
      Inv graph (x :: gray) s'' ∧ Loop graph x s₀ (targets ++ [t]) s'' left' (min n m) := by
  obtain ⟨left', m, hstack', hlow', hreach', hattained', hcross'⟩ := hpost.low
  have hself : s.Visited x := ⟨_, h.indices_self⟩
  have hlowx : s'.lowLinks x = some n := (hpost.ext.lowLinks x hself).trans h.lowLink
  have hidx : ∀ w ∈ s₀.stack, s'.idx w = s.idx w := by
    intro w hw
    exact hpost.ext.idx_eq (h.ext.visited (hinv₀.stack_visited w hw))
  have hle := h.lowLink_le
  have hlt := h.index_lt
  refine ⟨m, _, left' ++ left, hlow', lower_eq hlowx _, hinv'.withLowLinks _,
    (h.ext.trans hpost.ext).updateLowLink hx _, hlt.trans_le hpost.ext.index_le,
    (hpost.ext.indices x hself).trans h.indices_self, ?_, update_self _ _ _, ?_,
    (Nat.min_le_left _ _).trans hle, ?_, ?_, ?_⟩
  · rw [hstack', h.stack, append_assoc]
  · intro y hy
    rcases mem_append.mp hy with hy | hy
    · obtain ⟨hty, hnot⟩ := hreach' y hy
      exact ⟨.head hedge hty, fun hvisited => hnot (h.ext.visited hvisited)⟩
    · exact h.reach y hy
  · rcases Nat.lt_or_ge m n with hmin | hmin
    · -- the lower link is not that of a component that was complete
      rw [Nat.min_eq_right hmin.le]
      obtain ⟨y, hy, hidxy, hty⟩ := hattained'.resolve_left (by omega)
      exact ⟨y, hy, hidxy, .head hedge hty⟩
    · obtain ⟨y, hy, hidxy, hxy⟩ := h.attained
      rw [Nat.min_eq_left hmin]
      refine ⟨y, ?_, ?_, hxy⟩
      · rw [hstack']
        exact mem_append_right left' hy
      · exact (hpost.ext.idx_eq (hinv.stack_visited y hy)).trans hidxy
  · intro y hy w hw hyw
    rcases mem_append.mp hy with hy | hy
    · exact (Nat.min_le_right _ _).trans (hcross' y hy w (h.mem_stack hw) hyw)
    · refine (Nat.min_le_left _ _).trans ((h.cross y hy w hw hyw).trans ?_)
      exact Nat.le_of_eq (hidx w hw).symm
  · intro t' ht'
    rcases mem_append.mp ht' with ht' | ht'
    · obtain ⟨hvisited, hle'⟩ := h.processed t' ht'
      refine ⟨hpost.ext.visited hvisited, fun hmem => ?_⟩
      exact (Nat.min_le_left _ _).trans ((hle' hmem).trans (Nat.le_of_eq (hidx t' hmem).symm))
    · rw [mem_singleton.mp ht']
      refine ⟨hpost.visited, fun hmem => absurd ?_ ht⟩
      exact h.ext.visited (hinv₀.stack_visited t hmem)

end

end Targets

section Component

variable {left : List T} {n : ℕ}

section

variable (h : Loop graph x s₀ targets s left n)
include h

/-- What the visit has left on the stack lies above the node and is not the node. -/
theorem Loop.ne_self (hinv : Inv graph (x :: gray) s)
    (hy : y ∈ left) : y ≠ x := by
  rintro rfl
  have hsorted := hinv.stack_sorted
  rw [h.stack] at hsorted
  exact Nat.lt_irrefl _ ((pairwise_append.mp hsorted).2.2 y hy y mem_cons_self)

theorem Loop.not_gray (hinv₀ : Inv graph gray s₀) (hinv : Inv graph (x :: gray) s)
    (hy : y ∈ left) : y ∉ x :: gray := by
  rw [mem_cons, not_or]
  refine ⟨h.ne_self hinv hy, fun hgray => (h.reach y hy).2 ?_⟩
  exact hinv₀.stack_visited y (hinv₀.gray_stack y hgray)

theorem Loop.component_mem_stack (hy : y ∈ x :: left) :
    y ∈ s.stack := by
  rw [h.stack]
  rcases mem_cons.mp hy with rfl | hy
  · exact mem_append_right left mem_cons_self
  · exact mem_append_left _ hy

end

variable (h : Loop graph x s₀ targets s left s₀.index) (hinv₀ : Inv graph gray s₀)
  (hinv : Inv graph (x :: gray) s) (htargets : ∀ y, graph.Edge x y → y ∈ targets)

include h hinv₀ hinv htargets

/-- When the low link of the node is its index, no edge leaves its component for the stack. -/
theorem component_closed {w : T} (hy : y ∈ x :: left) (hedge : graph.Edge y w) :
    w ∈ x :: left ∨ s.Done w := by
  have hlow : w ∈ s₀.stack → s₀.index ≤ s.idx w := by
    intro hw
    rcases mem_cons.mp hy with rfl | hy
    · exact (h.processed w (htargets w hedge)).2 hw
    · exact h.cross y hy w hw hedge
  have hvisited : s.Visited w := by
    rcases mem_cons.mp hy with rfl | hy
    · exact (h.processed w (htargets w hedge)).1
    · exact hinv.black_edge y (h.component_mem_stack (mem_cons_of_mem x hy))
        (h.not_gray hinv₀ hinv hy) w hedge
  by_cases hstack : w ∈ s.stack
  · left
    rw [h.stack] at hstack
    rcases mem_append.mp hstack with hw | hw
    · exact mem_cons_of_mem x hw
    · rcases mem_cons.mp hw with rfl | hw
      · exact mem_cons_self
      · have hlt := hinv₀.idx_lt w (hinv₀.stack_visited w hw)
        have hle := hlow hw
        rw [h.ext.idx_eq (hinv₀.stack_visited w hw)] at hle
        omega
  · exact .inr ⟨hvisited, hstack⟩

theorem component_reach {w : T} (hy : y ∈ x :: left) (hreach : graph.Reach y w) :
    w ∈ x :: left ∨ s.Done w := by
  induction hreach with
  | refl => exact .inl hy
  | @tail b c _ hedge ih =>
    rcases ih with hb | hb
    · exact component_closed h hinv₀ hinv htargets hb hedge
    · exact .inr (hinv.done_closed b c hb hedge)

/-- Every node of the component reaches the root: it reaches a lower one of the component. -/
theorem component_reach_root {k : ℕ} (hk : s.idx y = k) (hy : y ∈ x :: left) :
    graph.Reach y x := by
  induction k using Nat.strong_induction_on generalizing y with
  | _ k ih =>
    rcases mem_cons.mp hy with rfl | hleft
    · exact .refl
    · have hstack := h.component_mem_stack hy
      obtain ⟨z, hz, hlt, hyz⟩ := hinv.black_lower y hstack
        (h.not_gray hinv₀ hinv hleft)
      have hz' := (component_reach h hinv₀ hinv htargets hy hyz).resolve_right
        fun hdone => hdone.2 hz
      exact hyz.trans (ih (s.idx z) (hk ▸ hlt) rfl hz')

/-- What the visit has left on the stack with the node is its strongly connected component. -/
theorem mem_component_iff :
    y ∈ x :: left ↔ graph.Reach x y ∧ graph.Reach y x := by
  constructor
  · intro hy
    refine ⟨?_, component_reach_root h hinv₀ hinv htargets rfl hy⟩
    rcases mem_cons.mp hy with rfl | hleft
    · exact .refl
    · exact (h.reach y hleft).1
  · rintro ⟨hxy, hyx⟩
    rcases component_reach h hinv₀ hinv htargets mem_cons_self hxy with hy | hdone
    · exact hy
    · -- a node that is done does not reach one on the stack
      exact absurd (h.component_mem_stack mem_cons_self) (hinv.done_reach hdone hyx).2

end Component

section Finish

variable {left : List T} {n : ℕ}

theorem popScc_spec {rest : List T} (hx : x ∉ left) (onStack sccNodes : Finset T) :
    ∃ onStack' sccNodes', popScc x (left ++ x :: rest) onStack sccNodes =
        some (rest, onStack', sccNodes') ∧
      (∀ y, y ∈ onStack' ↔ y ∈ onStack ∧ y ∉ x :: left) ∧
      ∀ y, y ∈ sccNodes' ↔ y ∈ sccNodes ∨ y ∈ x :: left := by
  induction left generalizing onStack sccNodes with
  | nil =>
    refine ⟨onStack.erase x, insert x sccNodes, ?_, ?_, ?_⟩
    · rw [nil_append, popScc, if_pos rfl]
    · intro y
      rw [Finset.mem_erase, mem_singleton, and_comm]
    · intro y
      rw [Finset.mem_insert, mem_singleton, or_comm]
  | cons a left ih =>
    obtain ⟨hax, hx'⟩ := not_or.mp (mt mem_cons.mpr hx)
    obtain ⟨onStack', sccNodes', hrun, hon, hscc⟩ := ih hx' (onStack.erase a) (insert a sccNodes)
    refine ⟨onStack', sccNodes', ?_, ?_, ?_⟩
    · rw [cons_append, popScc, if_neg (Ne.symm hax)]
      exact hrun
    · intro y
      rw [hon, Finset.mem_erase]
      simp only [mem_cons]
      tauto
    · intro y
      rw [hscc, Finset.mem_insert]
      simp only [mem_cons]
      tauto

variable (h : Loop graph x s₀ targets s left n) (hinv₀ : Inv graph gray s₀)
  (hinv : Inv graph (x :: gray) s) (hx : ¬ s₀.Visited x)
  (hgray : ∀ z ∈ gray, graph.Reach z x) (htargets : ∀ y, graph.Edge x y → y ∈ targets)

include h hinv₀ hinv hx hgray htargets

/-- The node is appended to the order: its targets are before it or reach it. -/
theorem order_append :
    (s.nodeOrder ++ [x]).Nodup ∧
      (∀ y, y ∈ s.nodeOrder ++ [x] ↔ s.Visited y ∧ y ∉ gray) ∧
      ∀ front z rest, s.nodeOrder ++ [x] = front ++ z :: rest → ∀ y, graph.Edge z y →
        y ∈ front ∨ graph.Reach y z := by
  have hnot : x ∉ s.nodeOrder := fun hmem => ((hinv.order_mem x).mp hmem).2 mem_cons_self
  have hnotGray : x ∉ gray := fun hmem => hx (hinv₀.stack_visited x (hinv₀.gray_stack x hmem))
  refine ⟨?_, ?_, ?_⟩
  · rw [← concat_eq_append, nodup_concat]
    exact ⟨hnot, hinv.order_nodup⟩
  · intro y
    rw [mem_append, mem_singleton, hinv.order_mem, mem_cons, not_or]
    constructor
    · rintro (⟨hy, -, hg⟩ | rfl)
      · exact ⟨hy, hg⟩
      · exact ⟨⟨_, h.indices_self⟩, hnotGray⟩
    · rintro ⟨hy, hg⟩
      by_cases hyx : y = x
      · exact .inr hyx
      · exact .inl ⟨hy, hyx, hg⟩
  · intro front z rest hsplit y hedge
    rcases eq_nil_or_concat rest with rfl | ⟨rest', b, hrest⟩
    · obtain ⟨hfront, hz⟩ := append_inj' hsplit rfl
      cases hz
      rw [← hfront, hinv.order_mem]
      have hvisited := (h.processed y (htargets y hedge)).1
      by_cases hy : y ∈ x :: gray
      · right
        rcases mem_cons.mp hy with rfl | hy
        · exact .refl
        · exact hgray y hy
      · exact .inl ⟨hvisited, hy⟩
    · rw [hrest, concat_eq_append, ← cons_append, ← append_assoc] at hsplit
      obtain ⟨hsplit', -⟩ := append_inj' hsplit rfl
      exact hinv.order_before front z rest' hsplit' y hedge

/-- A node whose component is not complete stays on the stack. -/
theorem finish_stay (hlow : n < s₀.index) :
    ∃ s', s.finish graph x = some s' ∧ Inv graph gray s' ∧ Post graph x s₀ s' := by
  obtain ⟨hnodup, hmem, hbefore⟩ := order_append h hinv₀ hinv hx hgray htargets
  have hne : s.lowLinks x ≠ s.indices x := by
    rw [h.lowLink, h.indices_self]
    intro heq
    cases heq
    exact Nat.lt_irrefl _ hlow
  refine ⟨{ s with nodeOrder := s.nodeOrder ++ [x] }, ?_, ?_, ?_⟩
  · rw [finish, if_neg hne]
    rfl
  · refine { hinv with
      gray_stack := ?_, black_edge := ?_, black_lower := ?_,
      order_nodup := hnodup, order_mem := hmem, order_before := hbefore }
    · intro y hy
      exact hinv.gray_stack y (mem_cons_of_mem x hy)
    · intro y hy hout z hedge
      by_cases hyx : y = x
      · rw [hyx] at hedge
        exact (h.processed z (htargets z hedge)).1
      · exact hinv.black_edge y hy (by simp [hyx, hout]) z hedge
    · intro y hy hout
      by_cases hyx : y = x
      · obtain ⟨z, hz, hidx, hreach⟩ := h.attained
        refine ⟨z, hz, ?_, hyx ▸ hreach⟩
        rw [hyx]
        change s.idx z < s.idx x
        rw [hidx, idx, h.indices_self]
        exact hlow
      · exact hinv.black_lower y hy (by simp [hyx, hout])
  · refine ⟨{ h.ext with }, ⟨_, h.indices_self⟩, left ++ [x], n, ?_, h.lowLink, ?_,
      .inr h.attained, ?_⟩
    · rw [h.stack, append_assoc]
      rfl
    · exact forall_mem_append.mpr ⟨h.reach, forall_mem_singleton.mpr ⟨.refl, hx⟩⟩
    · intro y hy w hw hedge
      rcases mem_append.mp hy with hy | hy
      · exact h.cross y hy w hw hedge
      · rw [mem_singleton.mp hy] at hedge
        exact (h.processed w (htargets w hedge)).2 hw

/-- The root of a component takes it off the stack, with its cycles. -/
theorem finish_root (hroot : n = s₀.index) :
    ∃ s', s.finish graph x = some s' ∧ Inv graph gray s' ∧ Post graph x s₀ s' := by
  subst hroot
  obtain ⟨hnodup, hmem, hbefore⟩ := order_append h hinv₀ hinv hx hgray htargets
  have hleft : x ∉ left := fun hmem => h.ne_self hinv hmem rfl
  obtain ⟨onStack', sccNodes, hpop, hon, hscc⟩ := @popScc_spec T _ x left s₀.stack hleft s.onStack ∅
  simp only [Finset.notMem_empty, false_or] at hscc
  have hgraph : ∀ y ∈ sccNodes, y ∈ graph := by
    intro y hy
    exact hinv.mem_graph y (hinv.stack_visited y (h.component_mem_stack ((hscc y).mp hy)))
  obtain ⟨cycles', hcycles, hmemCycles⟩ := insertCyclesFromScc_component hgraph
    (fun y => (hscc y).trans (mem_component_iff h hinv₀ hinv htargets)) s.cycles
  have hout : ∀ y ∈ s₀.stack, y ∉ x :: left := by
    intro y hy hcomponent
    rcases mem_cons.mp hcomponent with rfl | hleft'
    · exact hx (hinv₀.stack_visited y hy)
    · exact (h.reach y hleft').2 (hinv₀.stack_visited y hy)
  have hstack : ∀ y, y ∈ s.stack ↔ y ∈ x :: left ∨ y ∈ s₀.stack := by
    intro y
    rw [h.stack]
    simp only [mem_append, mem_cons]
    tauto
  -- the nodes that are done after the visit
  have hdone : ∀ y, (s.Visited y ∧ y ∉ s₀.stack) ↔ s.Done y ∨ y ∈ x :: left := by
    intro y
    have hvisited := hinv.stack_visited y
    have hy := hstack y
    simp only [Done]
    tauto
  have hfinish : s.finish graph x = some
      { s with
        stack := s₀.stack
        onStack := onStack'
        cycles := cycles'
        nodeOrder := s.nodeOrder ++ [x] } := by
    rw [finish, h.lowLink, h.indices_self, if_pos rfl, h.stack, hpop]
    change (insertCyclesFromScc graph sccNodes (sccNodes.card + 1) x ∅ [] s.cycles >>= _) = _
    rw [hcycles]
    rfl
  refine ⟨_, hfinish, ?_, ?_⟩
  · refine ⟨hinv.idx_lt, hinv.mem_graph, ?_, ?_, ?_, hinv₀.gray_stack, ?_, ?_, ?_, ?_, hnodup, hmem,
      hbefore⟩
    · intro y
      rw [hon, hinv.onStack, hstack]
      tauto
    · intro y hy
      exact h.ext.visited (hinv₀.stack_visited y hy)
    · exact hinv₀.stack_sorted.imp_of_mem (hinv₀.idx_lt_of_ext { h.ext with })
    · intro y z hy hedge
      change s.Visited z ∧ z ∉ s₀.stack
      rw [hdone]
      rcases (hdone y).mp hy with hy | hy
      · exact .inl (hinv.done_closed y z hy hedge)
      · exact (component_closed h hinv₀ hinv htargets hy hedge).symm
    · intro y hy hg z hedge
      exact h.ext.visited (hinv₀.black_edge y hy hg z hedge)
    · intro y hy hg
      obtain ⟨z, hz, hlt, hreach⟩ := hinv₀.black_lower y hy hg
      exact ⟨z, hz, hinv₀.idx_lt_of_ext { h.ext with } hy hz hlt, hreach⟩
    · intro c
      change c ∈ cycles' ↔ graph.IsCycle c ∧ ∀ y ∈ c, s.Visited y ∧ y ∉ s₀.stack
      simp only [hmemCycles, hinv.cycles, hdone, hscc]
      constructor
      · rintro (⟨hcycle, hall⟩ | ⟨hcycle, hall⟩)
        · exact ⟨hcycle, fun y hy => .inl (hall y hy)⟩
        · exact ⟨hcycle, fun y hy => .inr (hall y hy)⟩
      · rintro ⟨hcycle, hall⟩
        -- a cycle through a node that was done before consists of such nodes
        by_cases hsome : ∃ y ∈ c, s.Done y
        · obtain ⟨y, hy, hydone⟩ := hsome
          exact .inl ⟨hcycle, fun z hz => hinv.done_reach hydone (hcycle.reach hy hz)⟩
        · refine .inr ⟨hcycle, fun y hy => (hall y hy).resolve_left fun hydone => ?_⟩
          exact hsome ⟨y, hy, hydone⟩
  · refine ⟨{ h.ext with }, ⟨_, h.indices_self⟩, [], s₀.index, rfl, h.lowLink, by simp,
      .inl (Nat.le_refl _), by simp⟩

end Finish

section Visit

def unvisited (graph : DirectedGraph T) (s : TarjanScc T) : Finset T :=
  graph.keys.toFinset.filter fun x => s.indices x = none

omit [LinearOrder T] in
theorem not_visited_iff : ¬ s.Visited x ↔ s.indices x = none := by
  rw [Visited, ← Option.isSome_iff_exists, Bool.not_eq_true, Option.isSome_eq_false_iff,
    Option.isNone_iff_eq_none]

theorem mem_unvisited : x ∈ unvisited graph s ↔ x ∈ graph ∧ ¬ s.Visited x := by
  rw [unvisited, Finset.mem_filter, mem_toFinset, not_visited_iff]
  rfl

theorem Extends.unvisited_subset (h : Extends s s') : unvisited graph s' ⊆ unvisited graph s := by
  intro y hy
  obtain ⟨hgraph, hnot⟩ := mem_unvisited.mp hy
  exact mem_unvisited.mpr ⟨hgraph, fun hvisited => hnot (h.visited hvisited)⟩

theorem unvisited_lower {value : ℕ} (h : s.lower x value = some s') :
    unvisited graph s' = unvisited graph s := by
  obtain ⟨n, -, hs⟩ := Option.bind_eq_some_iff.mp h
  cases hs
  rfl

theorem card_unvisited_enter (hx : ¬ s.Visited x) (hgraph : x ∈ graph) :
    (unvisited graph (s.enter x)).card < (unvisited graph s).card := by
  refine Finset.card_lt_card ⟨(extends_enter hx).unvisited_subset, fun hsubset => ?_⟩
  have hmem := hsubset (mem_unvisited.mpr ⟨hgraph, hx⟩)
  exact (mem_unvisited.mp hmem).2 (visited_enter.mpr (.inl rfl))

/-- With enough fuel a visit of a new node ends, keeps the invariant and does what it is for. -/
def VisitSpec (graph : DirectedGraph T) (fuel : ℕ) : Prop :=
  ∀ gray x s, Inv graph gray s → x ∈ graph → ¬ s.Visited x → (∀ z ∈ gray, graph.Reach z x) →
    (unvisited graph s).card ≤ fuel →
    ∃ s', visit graph fuel x s = some s' ∧ Inv graph gray s' ∧ Post graph x s s'

variable (hclosed : ∀ a b, graph.Edge a b → b ∈ graph)

include hclosed

section

variable {fuel n : ℕ} {left : List T} (hvisit : VisitSpec graph fuel) (hinv₀ : Inv graph gray s₀)
  (hx : ¬ s₀.Visited x) (hgray : ∀ z ∈ gray, graph.Reach z x)

include hvisit hinv₀ hx hgray

/-- One target of the node. -/
theorem Loop.visitTarget
    (h : Loop graph x s₀ targets s left n) (hinv : Inv graph (x :: gray) s)
    (hfuel : (unvisited graph s).card ≤ fuel) (hedge : graph.Edge x t) :
    ∃ s' left' n', TarjanScc.visitTarget (visit graph fuel) x s t = some s' ∧
      Inv graph (x :: gray) s' ∧ Loop graph x s₀ (targets ++ [t]) s' left' n' ∧
      (unvisited graph s').card ≤ fuel := by
  rw [TarjanScc.visitTarget]
  cases hindex : s.indices t with
  | none =>
    have hnot := not_visited_iff.mpr hindex
    have hreach : ∀ z ∈ x :: gray, graph.Reach z t :=
      forall_mem_cons.mpr ⟨.single hedge, fun z hz => (hgray z hz).tail hedge⟩
    obtain ⟨s₁, hrun, hinv₁, hpost⟩ :=
      hvisit (x :: gray) t s hinv (hclosed x t hedge) hnot hreach hfuel
    obtain ⟨m, s₂, left', hlow, hlower, hinv₂, hloop⟩ :=
      h.lower_visit hinv₀ hinv hx hedge hnot hpost hinv₁
    refine ⟨s₂, left', _, ?_, hinv₂, hloop, ?_⟩
    · rw [hrun]
      change (s₁.lowLinks t >>= _) = _
      rw [hlow]
      exact hlower
    · rw [unvisited_lower hlower]
      exact (Finset.card_le_card hpost.ext.unvisited_subset).trans hfuel
  | some i =>
    have hidx : s.idx t = i := by
      rw [idx, hindex]
      rfl
    split_ifs with hon
    · obtain ⟨s', hlower, hinv', hloop⟩ :=
        h.lower_onStack hinv hx hedge ((hinv.onStack t).mp hon)
      rw [hidx] at hlower
      refine ⟨s', left, _, hlower, hinv', hloop, ?_⟩
      rw [unvisited_lower hlower]
      exact hfuel
    · refine ⟨s, left, n, rfl, hinv, h.skip ⟨i, hindex⟩ ?_, hfuel⟩
      exact fun hmem => hon ((hinv.onStack t).mpr hmem)

/-- All targets of the node. -/
theorem Loop.foldlM_visitTarget {rest : List T}
    (h : Loop graph x s₀ targets s left n) (hinv : Inv graph (x :: gray) s)
    (hfuel : (unvisited graph s).card ≤ fuel) (hedges : ∀ t ∈ rest, graph.Edge x t) :
    ∃ s' left' n', rest.foldlM (TarjanScc.visitTarget (visit graph fuel) x) s = some s' ∧
      Inv graph (x :: gray) s' ∧ Loop graph x s₀ (targets ++ rest) s' left' n' := by
  induction rest generalizing targets s left n with
  | nil =>
    refine ⟨s, left, n, rfl, hinv, ?_⟩
    rw [append_nil]
    exact h
  | cons t rest ih =>
    obtain ⟨s₁, left₁, n₁, hrun, hinv₁, hloop₁, hfuel₁⟩ := Loop.visitTarget hclosed hvisit hinv₀ hx
      hgray h hinv hfuel (hedges t mem_cons_self)
    obtain ⟨s₂, left₂, n₂, hrun₂, hinv₂, hloop₂⟩ := ih hloop₁ hinv₁ hfuel₁
      (forall_mem_cons.mp hedges).2
    refine ⟨s₂, left₂, n₂, ?_, hinv₂, ?_⟩
    · rw [foldlM_cons, hrun]
      exact hrun₂
    · rw [append_assoc] at hloop₂
      exact hloop₂

end

theorem visit_spec (fuel : ℕ) : VisitSpec graph fuel := by
  induction fuel with
  | zero =>
    intro gray x s _ hgraph hx _ hfuel
    have hmem := mem_unvisited.mpr ⟨hgraph, hx⟩
    rw [Finset.card_eq_zero.mp (Nat.le_zero.mp hfuel)] at hmem
    cases hmem
  | succ fuel ih =>
    intro gray x s hinv hgraph hx hgray hfuel
    obtain ⟨targets, htargets⟩ := Option.isSome_iff_exists.mp (AList.lookup_isSome.mpr hgraph)
    have hedge : ∀ t, graph.Edge x t ↔ t ∈ targets.sort (· ≤ ·) := by
      intro t
      rw [DirectedGraph.Edge, htargets, Finset.mem_sort]
      rfl
    have hlt := card_unvisited_enter hx hgraph
    obtain ⟨s₁, left, n, hrun, hinv₁, hloop⟩ := Loop.foldlM_visitTarget hclosed ih hinv hx
      hgray (loop_enter hx) (hinv.enter hx hgraph) (by omega) fun t ht => (hedge t).mpr ht
    have hstep : visit graph (fuel + 1) x s = s₁.finish graph x := by
      rw [visit, htargets]
      change ((targets.sort (· ≤ ·)).foldlM (TarjanScc.visitTarget (visit graph fuel) x)
        (s.enter x) >>= fun self => self.finish graph x) = _
      rw [hrun]
      rfl
    rw [hstep]
    rcases Nat.lt_or_eq_of_le hloop.lowLink_le with hlow | hroot
    · exact finish_stay hloop hinv hinv₁ hx hgray (fun t => (hedge t).mp) hlow
    · exact finish_root hloop hinv hinv₁ hx hgray (fun t => (hedge t).mp) hroot

theorem visitAll_spec {fuel : ℕ} {nodes : List T} (hinv : Inv graph [] s)
    (hnodes : ∀ x ∈ nodes, x ∈ graph) (hfuel : (unvisited graph s).card ≤ fuel) :
    ∃ s', visitAll graph fuel nodes s = some s' ∧ Inv graph [] s' ∧
      (∀ x, s.Visited x → s'.Visited x) ∧ ∀ x ∈ nodes, s'.Visited x := by
  induction nodes generalizing s with
  | nil => exact ⟨s, rfl, hinv, fun _ hx => hx, by simp⟩
  | cons x nodes ih =>
    have hnodes' : ∀ y ∈ nodes, y ∈ graph := fun y hy => hnodes y (mem_cons_of_mem x hy)
    rw [visitAll]
    cases hindex : s.indices x with
    | some i =>
      obtain ⟨s', hrun, hinv', hmono, hall⟩ := ih hinv hnodes' hfuel
      exact ⟨s', hrun, hinv', hmono, forall_mem_cons.mpr ⟨hmono x ⟨i, hindex⟩, hall⟩⟩
    | none =>
      obtain ⟨s₁, hrun₁, hinv₁, hpost⟩ := visit_spec hclosed fuel [] x s hinv
        (hnodes x mem_cons_self) (not_visited_iff.mpr hindex) (by simp) hfuel
      obtain ⟨s', hrun, hinv', hmono, hall⟩ := ih hinv₁ hnodes'
        ((Finset.card_le_card hpost.ext.unvisited_subset).trans hfuel)
      refine ⟨s', ?_, hinv', fun y hy => hmono y (hpost.ext.visited hy), ?_⟩
      · rw [hrun₁]
        exact hrun
      · exact forall_mem_cons.mpr ⟨hmono x hpost.visited, hall⟩

end Visit

theorem inv_new : Inv graph [] (new : TarjanScc T) := by
  have hnot : ∀ y, ¬ (new : TarjanScc T).Visited y := by
    rintro y ⟨i, hi⟩
    cases hi
  refine ⟨fun y hy => absurd hy (hnot y), fun y hy => absurd hy (hnot y), by simp [new],
    by simp [new], .nil, by simp, fun y z hy => absurd hy.1 (hnot y), by simp [new], by simp [new],
    ?_, .nil, ?_, by simp [new]⟩
  · intro c
    refine ⟨fun hc => absurd hc (Finset.notMem_empty c), ?_⟩
    rintro ⟨⟨a, l, rfl, -, -⟩, hdone⟩
    exact absurd (hdone a mem_cons_self).1 (hnot a)
  · intro y
    refine ⟨fun hy => absurd hy not_mem_nil, fun hy => absurd hy.1 (hnot y)⟩

/-- With no visit in progress the stack is empty: each node on it would reach a lower one. -/
theorem Inv.done (hinv : Inv graph [] s) (hx : s.Visited x) : s.Done x := by
  refine ⟨hx, fun hmem => ?_⟩
  have hnone : ∀ k y, y ∈ s.stack → s.idx y ≠ k := by
    intro k
    induction k using Nat.strong_induction_on with
    | _ k ih =>
      intro y hy hk
      obtain ⟨z, hz, hlt, -⟩ := hinv.black_lower y hy (by simp)
      exact ih (s.idx z) (hk ▸ hlt) z hz rfl
  exact hnone _ x hmem rfl

end TarjanScc

namespace DirectedGraph

variable {a b x y : T}

theorem mem_addEdge : x ∈ graph.addEdge a b ↔ x ∈ graph ∨ x = a ∨ x = b := by
  unfold addEdge
  dsimp only
  split_ifs with hb
  · rw [AList.mem_insert] at hb ⊢
    constructor
    · tauto
    · rintro (hx | hx | rfl)
      · exact .inr hx
      · exact .inl hx
      · exact hb
  · rw [AList.mem_insert, AList.mem_insert]
    tauto

theorem edge_addEdge : (graph.addEdge a b).Edge x y ↔ graph.Edge x y ∨ x = a ∧ y = b := by
  have hfirst : y ∈ ((graph.insert a (insert b ((graph.lookup a).getD ∅))).lookup x).getD ∅ ↔
      graph.Edge x y ∨ x = a ∧ y = b := by
    by_cases hx : x = a
    · subst hx
      rw [AList.lookup_insert, Option.getD_some, Finset.mem_insert]
      tauto
    · rw [AList.lookup_insert_ne hx]
      tauto
  rw [Edge, ← hfirst]
  unfold addEdge
  dsimp only
  split_ifs with hb
  · exact Iff.rfl
  · by_cases hx : x = b
    · subst hx
      rw [AList.lookup_insert, AList.lookup_eq_none.mpr hb]
      exact Iff.rfl
    · rw [AList.lookup_insert_ne hx]

theorem ofEdges_append_singleton (edges : List (T × T)) (edge : T × T) :
    ofEdges (edges ++ [edge]) = (ofEdges edges).addEdge edge.1 edge.2 := by
  rw [ofEdges, foldl_append]
  rfl

theorem edge_ofEdges (edges : List (T × T)) (x y : T) :
    (ofEdges edges).Edge x y ↔ (x, y) ∈ edges := by
  induction edges using reverseRecOn with
  | nil => exact ⟨nofun, nofun⟩
  | append_singleton edges edge ih =>
    rw [ofEdges_append_singleton, edge_addEdge, ih, mem_append, mem_singleton, Prod.ext_iff]

theorem mem_ofEdges (edges : List (T × T)) (x : T) :
    x ∈ ofEdges edges ↔ ∃ edge ∈ edges, x = edge.1 ∨ x = edge.2 := by
  induction edges using reverseRecOn with
  | nil => exact ⟨fun h => absurd h (AList.notMem_empty x), nofun⟩
  | append_singleton edges edge ih =>
    simp only [ofEdges_append_singleton, mem_addEdge, ih, mem_append, mem_singleton, or_and_right,
      exists_or, exists_eq_left]

/-- The topological sort of a graph that has the targets of its edges as nodes. -/
theorem topologicalSort_spec (hclosed : ∀ x y, graph.Edge x y → y ∈ graph) :
    (∃ order, graph.topologicalSort = some (.ok order) ∧ (∀ n, ¬ TransGen graph.Edge n n) ∧
      order.Nodup ∧ (∀ n, n ∈ order ↔ n ∈ graph) ∧
      ∀ a b, graph.Edge a b → ∃ front rest, order = front ++ a :: rest ∧ b ∈ front) ∨
    ∃ cycles, graph.topologicalSort = some (.error cycles) ∧ (∃ n, TransGen graph.Edge n n) ∧
      ∀ c, c ∈ cycles ↔ graph.IsCycle c := by
  have hfuel : (TarjanScc.unvisited graph .new).card ≤ graph.keys.length :=
    (Finset.card_filter_le _ _).trans (toFinset_card_le _)
  obtain ⟨s, hrun, hinv, -, hall⟩ := @TarjanScc.visitAll_spec T _ graph .new hclosed
    graph.keys.length (graph.keys.insertionSort (· ≤ ·)) TarjanScc.inv_new
    (fun x hx => (mem_insertionSort _).mp hx) hfuel
  have hvisited : ∀ x, s.Visited x ↔ x ∈ graph :=
    fun x => ⟨hinv.mem_graph x, fun hx => hall x ((mem_insertionSort _).mpr hx)⟩
  have hcycles : ∀ c, c ∈ s.cycles ↔ graph.IsCycle c := by
    intro c
    rw [hinv.cycles]
    refine ⟨And.left, fun hcycle => ⟨hcycle, ?_⟩⟩
    intro x hx
    obtain ⟨y, -, hedge⟩ := TransGen.tail'_iff.mp (hcycle.transGen hx)
    exact hinv.done ((hvisited x).mpr (hclosed y x hedge))
  have hloop : (∃ n, TransGen graph.Edge n n) ↔ ∃ c, c ∈ s.cycles := by
    rw [← exists_isCycle_iff]
    simp only [hcycles]
  have hsort : graph.topologicalSort =
      if s.cycles = ∅ then some (.ok s.nodeOrder) else some (.error s.cycles) := by
    rw [topologicalSort, hrun]
    rfl
  rw [hsort]
  by_cases hempty : s.cycles = ∅
  · left
    have hacyclic : ∀ n, ¬ TransGen graph.Edge n n := by
      intro n hn
      obtain ⟨c, hc⟩ := hloop.mp ⟨n, hn⟩
      rw [hempty] at hc
      exact Finset.notMem_empty c hc
    have hmem : ∀ n, n ∈ s.nodeOrder ↔ n ∈ graph := by
      intro n
      rw [hinv.order_mem, hvisited]
      exact and_iff_left not_mem_nil
    refine ⟨s.nodeOrder, if_pos hempty, hacyclic, hinv.order_nodup, hmem, ?_⟩
    intro a b hedge
    have ha : a ∈ graph := by
      by_contra ha
      rw [Edge, AList.lookup_eq_none.mpr ha] at hedge
      cases hedge
    obtain ⟨front, rest, hsplit⟩ := append_of_mem ((hmem a).mpr ha)
    refine ⟨front, rest, hsplit, ?_⟩
    refine (hinv.order_before front a rest hsplit b hedge).resolve_right fun hback => ?_
    exact hacyclic a (TransGen.head' hedge hback)
  · right
    refine ⟨s.cycles, if_neg hempty, hloop.mpr ?_, hcycles⟩
    obtain ⟨c, hc⟩ := Finset.nonempty_iff_ne_empty.mpr hempty
    exact ⟨c, hc⟩

/-- The topological sort of a graph built by adding edges returns an order exactly when no node
reaches itself, and then every node is in it once, after the targets of its edges; otherwise it
returns the elementary cycles of the graph, each written from its lowest node and closed. -/
theorem topologicalSort_ofEdges (edges : List (T × T)) :
    (∀ a b, (ofEdges edges).Edge a b ↔ (a, b) ∈ edges) ∧
    (∀ n, n ∈ ofEdges edges ↔ ∃ edge ∈ edges, n = edge.1 ∨ n = edge.2) ∧
    ((∃ order, (ofEdges edges).topologicalSort = some (.ok order) ∧
      (∀ n, ¬ TransGen (ofEdges edges).Edge n n) ∧ order.Nodup ∧
      (∀ n, n ∈ order ↔ n ∈ ofEdges edges) ∧
      ∀ a b, (ofEdges edges).Edge a b → ∃ front rest, order = front ++ a :: rest ∧ b ∈ front) ∨
    ∃ cycles, (ofEdges edges).topologicalSort = some (.error cycles) ∧
      (∃ n, TransGen (ofEdges edges).Edge n n) ∧
      ∀ c, c ∈ cycles ↔ (ofEdges edges).IsCycle c) := by
  refine ⟨edge_ofEdges edges, mem_ofEdges edges, topologicalSort_spec fun x y hedge => ?_⟩
  exact (mem_ofEdges edges y).mpr ⟨(x, y), (edge_ofEdges edges x y).mp hedge, .inr rfl⟩

end DirectedGraph

end Smos.Graph
