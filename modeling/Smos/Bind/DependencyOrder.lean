import Mathlib.Data.Fintype.EquivFin
import Smos.Bind.DependencyGraph

/-!
The order that `resolve` puts the nodes of a dependency graph in.

Both loops take nodes without parents out of the graph, one at a time, with the edges to their
children; `Removed` says what is left.  The first loop never takes out a node that is reachable from
the root.  The second one starts from the root and has, in `next_indices` and in the result, all
nodes that have lost their last parent.
-/
namespace Smos.Bind.DependencyGraph

open Std (TreeMap)
open List hiding getElem?_insert
open Lib.OrderedMap Option Relation

variable {K V : Type} {g g' g₀ : DependencyGraph K V} {i j index : ℕ} {children : List ℕ}

def HasEdge (g : DependencyGraph K V) (i j : ℕ) : Prop := j ∈ g.children[i]?.getD ∅

def IsData (g : DependencyGraph K V) (i : ℕ) : Prop :=
  ∃ key value, g.nodes[i]? = some (.data key value)

/-- The two edge maps are inverse to each other, edges lead to data nodes, and every data node is
the one its key is mapped to. -/
structure WellFormed (g : DependencyGraph K V) : Prop where
  inverse : ∀ i j, i ∈ g.parents[j]?.getD ∅ ↔ g.HasEdge i j
  target : ∀ i j, g.HasEdge i j → g.IsData j
  index : ∀ i key value, g.nodes[i]? = some (.data key value) → g.indices key = some i

theorem exists_of_mem_getD {entry : Option (Finset ℕ)} (h : i ∈ entry.getD ∅) :
    ∃ set, entry = some set ∧ i ∈ set := by
  cases entry with
  | none => exact absurd h (Finset.notMem_empty i)
  | some set => exact ⟨set, rfl, h⟩

structure Cut (g : DependencyGraph K V) (index : ℕ) (children : List ℕ)
    (g' : DependencyGraph K V) : Prop where
  nodes : g'.nodes = g.nodes
  wellFormed : g'.WellFormed
  edges : ∀ a b, g'.HasEdge a b ↔ g.HasEdge a b ∧ ¬ (a = index ∧ b ∈ children)

namespace Cut

variable {g₁ g₂ : DependencyGraph K V} {c : ℕ} {rest : List ℕ}

theorem trans (h : Cut g index [c] g₁) (h' : Cut g₁ index rest g₂) :
    Cut g index (c :: rest) g₂ := by
  refine ⟨h'.nodes.trans h.nodes, h'.wellFormed, ?_⟩
  intro a b
  rw [h'.edges, h.edges, mem_singleton, mem_cons]
  tauto

/-- The edges to other children are still there. -/
theorem hasEdge (h : Cut g index [c] g₁) (hc : c ∉ rest)
    (hedges : ∀ d ∈ c :: rest, g.HasEdge index d) : ∀ d ∈ rest, g₁.HasEdge index d := by
  intro d hd
  refine (h.edges index d).mpr ⟨hedges d (mem_cons_of_mem c hd), ?_⟩
  rintro ⟨-, hdc⟩
  exact hc (mem_singleton.mp hdc ▸ hd)

end Cut

theorem removeEdge_spec (hg : g.WellFormed) (h : g.HasEdge i j) :
    ∃ g', g.removeEdge i j = some g' ∧ Cut g i [j] g' := by
  obtain ⟨children, hchildren, hj⟩ := exists_of_mem_getD h
  obtain ⟨parents, hparents, hi⟩ := exists_of_mem_getD ((hg.inverse i j).mpr h)
  let g' : DependencyGraph K V := { g with
    parents := g.parents.insert j (parents.erase i)
    children := g.children.insert i (children.erase j) }
  have hedges : ∀ a b, g'.HasEdge a b ↔ g.HasEdge a b ∧ ¬ (a = i ∧ b ∈ [j]) := by
    intro a b
    simp only [HasEdge, g', getElem?_insert, mem_singleton]
    by_cases ha : i = a
    · subst ha
      simp [hchildren, and_comm]
    · simp [ha, Ne.symm ha]
  refine ⟨g', by simp [removeEdge, hparents, hchildren, g'], rfl, ⟨?_, ?_, hg.index⟩, hedges⟩
  · intro a b
    rw [hedges, ← hg.inverse]
    simp only [g', getElem?_insert]
    by_cases hb : j = b
    · subst hb
      simp [hparents, and_comm]
    · simp [hb, Ne.symm hb]
  · intro a b hab
    exact hg.target a b ((hedges a b).mp hab).1

/-- A node is orphaned exactly when it is a data node and no edge leads to it. -/
theorem isOrphaned_spec (hg : g.WellFormed) {node : Node K V} (h : g.nodes[i]? = some node) :
    ∃ orphaned, g.isOrphaned node = some orphaned ∧
      (orphaned = true ↔ g.IsData i ∧ ∀ a, ¬ g.HasEdge a i) := by
  cases node with
  | root | zombie => exact ⟨false, rfl, by simp [IsData, h]⟩
  | data key value =>
    have hindex := hg.index i key value h
    have hparents : (∀ a, ¬ g.HasEdge a i) ↔ g.parents[i]?.getD ∅ = ∅ := by
      simp only [← hg.inverse, Finset.eq_empty_iff_forall_notMem]
    refine ⟨(g.parents[i]?.map fun vs => decide (vs = ∅)).getD true,
      by simp [isOrphaned, hindex], ?_⟩
    rw [hparents, and_iff_right ⟨key, value, h⟩]
    cases g.parents[i]? with
    | none => simp
    | some vs => simp

theorem removeEdges_spec (hg : g.WellFormed) (hnodup : children.Nodup)
    (h : ∀ c ∈ children, g.HasEdge index c) :
    ∃ g', removeEdges index children g = some g' ∧ Cut g index children g' := by
  induction children generalizing g with
  | nil => exact ⟨g, rfl, rfl, hg, by simp⟩
  | cons c rest ih =>
    obtain ⟨hc, hrest⟩ := nodup_cons.mp hnodup
    obtain ⟨g₁, hrun₁, hcut₁⟩ := removeEdge_spec hg (h c mem_cons_self)
    obtain ⟨g₂, hrun₂, hcut₂⟩ := ih hcut₁.wellFormed hrest (hcut₁.hasEdge hc h)
    exact ⟨g₂, by simp [removeEdges, hrun₁, hrun₂], hcut₁.trans hcut₂⟩

/-- Visiting the children removes the edges to them and pushes those without parents. -/
theorem visitChildren_spec (nextIndices : List ℕ) (hg : g.WellFormed)
    (hnodup : children.Nodup) (h : ∀ c ∈ children, g.HasEdge index c) :
    ∃ pushed g', visitChildren index children nextIndices g = some (pushed ++ nextIndices, g') ∧
      Cut g index children g' ∧ pushed.Nodup ∧
      ∀ c, c ∈ pushed ↔ c ∈ children ∧ ∀ a, ¬ g'.HasEdge a c := by
  induction children generalizing g nextIndices with
  | nil => exact ⟨[], g, rfl, ⟨rfl, hg, by simp⟩, nodup_nil, by simp⟩
  | cons c rest ih =>
    obtain ⟨hc, hrest⟩ := nodup_cons.mp hnodup
    have hedge := h c mem_cons_self
    obtain ⟨key, value, hnode⟩ := hg.target index c hedge
    obtain ⟨g₁, hrun₁, hcut₁⟩ := removeEdge_spec hg hedge
    rw [← hcut₁.nodes] at hnode
    obtain ⟨orphaned, horphaned, hiff⟩ := isOrphaned_spec hcut₁.wellFormed hnode
    rw [and_iff_right ⟨key, value, hnode⟩] at hiff
    obtain ⟨pushed, g₂, hrun₂, hcut₂, hpushed, hmem⟩ :=
      ih (if orphaned then c :: nextIndices else nextIndices) hcut₁.wellFormed hrest
        (hcut₁.hasEdge hc h)
    have horphan : orphaned = true ↔ ∀ a, ¬ g₂.HasEdge a c := by
      rw [hiff]
      refine forall_congr' fun a => not_congr ?_
      rw [hcut₂.edges, and_iff_left fun hac => hc hac.2]
    have hnot : c ∉ pushed := fun hcp => hc ((hmem c).mp hcp).1
    refine ⟨pushed ++ if orphaned then [c] else [], g₂, ?_, hcut₁.trans hcut₂, ?_, ?_⟩
    · cases orphaned <;> simp_all [visitChildren]
    · cases orphaned
      · simpa using hpushed
      · simpa [nodup_append] using ⟨hpushed, fun d hd hdc => hnot (hdc ▸ hd)⟩
    · intro d
      rw [mem_append, hmem]
      by_cases hd : d = c
      · subst hd
        cases orphaned
        · simp [hc, ← horphan]
        · simp [horphan.mp rfl]
      · cases orphaned <;> simp [hd]

structure Removed (g₀ g : DependencyGraph K V) (removed : List ℕ) : Prop where
  wellFormed : g.WellFormed
  length_eq : g.nodes.length = g₀.nodes.length
  nodup : removed.Nodup
  lt_length : ∀ i ∈ removed, i < g₀.nodes.length
  node_eq : ∀ i, i ∉ removed → g.nodes[i]? = g₀.nodes[i]?
  zombie : ∀ i ∈ removed, g.nodes[i]? = some .zombie
  edges : ∀ i j, g.HasEdge i j ↔ g₀.HasEdge i j ∧ i ∉ removed

variable {removed : List ℕ} {E : ℕ → ℕ → Prop}

def ParentsFirst (E : ℕ → ℕ → Prop) (l : List ℕ) : Prop :=
  ∀ before j after, l = before ++ j :: after → ∀ i, E i j → i ∈ before

/-- A node that has no parents left can be taken out next. -/
theorem Removed.parentsFirst_concat (h : Removed g₀ g removed)
    (hfirst : ParentsFirst g₀.HasEdge removed) (hno : ∀ i, ¬ g.HasEdge i index) :
    ParentsFirst g₀.HasEdge (removed ++ [index]) := by
  intro before j after heq i hij
  rcases eq_nil_or_concat after with rfl | ⟨after', last, rfl⟩
  · obtain ⟨rfl, hj⟩ := append_inj' heq rfl
    obtain rfl : index = j := by simpa using hj
    by_contra hi
    exact hno i ((h.edges i index).mpr ⟨hij, hi⟩)
  · have heq' : removed ++ [index] = (before ++ j :: after') ++ [last] := by
      simpa [concat_eq_append] using heq
    exact hfirst before j after' (append_inj' heq' rfl).1 i hij

/-- A node whose parents can be followed back without an end is not in such a list. -/
theorem ParentsFirst.not_mem {C : ℕ → Prop} {l : List ℕ}
    (h : ParentsFirst E l) (hC : ∀ j, C j → ∃ i, C i ∧ E i j) (hj : C j) : j ∉ l := by
  intro hmem
  obtain ⟨before, after, heq⟩ := append_of_mem hmem
  induction hn : before.length using Nat.strong_induction_on generalizing j before after with
  | _ n ih =>
    obtain ⟨i, hi, hij⟩ := hC j hj
    have hbefore := h before j after heq i hij
    obtain ⟨before', after', rfl⟩ := append_of_mem hbefore
    refine ih before'.length ?_ hi (heq ▸ mem_append_left _ hbefore) before'
      (after' ++ j :: after) ?_ rfl
    · simp only [length_append, length_cons] at hn
      omega
    · rw [heq]
      simp

theorem Removed.refl (h : g.WellFormed) : Removed g g [] :=
  ⟨h, rfl, nodup_nil, by simp, by simp, by simp, by simp⟩

theorem Removed.length_le (h : Removed g₀ g removed) : removed.length ≤ g₀.nodes.length := by
  have hsub : removed ⊆ range g₀.nodes.length := by
    intro i hi
    exact mem_range.mpr (h.lt_length i hi)
  simpa using (List.Nodup.subperm h.nodup hsub).length_le

theorem IsData.lt_length (h : g.IsData i) : i < g.nodes.length := by
  obtain ⟨key, value, hnode⟩ := h
  exact (List.getElem?_eq_some_iff.mp hnode).1

theorem Removed.isData_of (h : Removed g₀ g removed) (hi : g.IsData i) :
    g₀.IsData i ∧ i ∉ removed := by
  obtain ⟨key, value, hnode⟩ := hi
  have hnot : i ∉ removed := by
    intro hmem
    rw [h.zombie i hmem] at hnode
    cases hnode
  exact ⟨⟨key, value, (h.node_eq i hnot) ▸ hnode⟩, hnot⟩

def withoutNode (g : DependencyGraph K V) (index : ℕ) : DependencyGraph K V :=
  { g with
    nodes := g.nodes.set index .zombie
    children := g.children.insert index (g.children[index]?.getD ∅) }

def dataAt (g : DependencyGraph K V) (index : ℕ) : Option V :=
  match g.nodes[index]? with
  | some (.data _ value) => some value
  | _ => none

theorem remove_eq (hlt : index < g.nodes.length) :
    g.remove index = some (g.dataAt index, { g with nodes := g.nodes.set index .zombie }) := by
  simp only [remove, dataAt, getElem?_eq_getElem hlt]
  cases g.nodes[index] <;> rfl

theorem withoutNode_hasEdge (a b : ℕ) : (g.withoutNode index).HasEdge a b ↔ g.HasEdge a b := by
  simp only [HasEdge, withoutNode, getElem?_insert]
  by_cases ha : index = a
  · subst ha
    simp
  · simp [ha]

theorem withoutNode_wellFormed (hg : g.WellFormed) (h : ∀ a, ¬ g.HasEdge a index) :
    (g.withoutNode index).WellFormed := by
  refine ⟨?_, ?_, ?_⟩
  · intro a b
    rw [withoutNode_hasEdge, ← hg.inverse]
    rfl
  · intro a b hab
    rw [withoutNode_hasEdge] at hab
    obtain ⟨key, value, hnode⟩ := hg.target a b hab
    have hne : index ≠ b := by
      rintro rfl
      exact h a hab
    exact ⟨key, value, by simp [withoutNode, getElem?_set_ne hne, hnode]⟩
  · intro a key value hnode
    simp only [withoutNode, getElem?_set] at hnode
    split_ifs at hnode
    · cases hnode
    · exact hg.index a key value hnode

/-- Without the edges to all its children a node has none. -/
theorem Cut.edges_withoutNode (h : Cut (g.withoutNode index) index children g')
    (hchildren : ∀ c, c ∈ children ↔ g.HasEdge index c) (a b : ℕ) :
    g'.HasEdge a b ↔ g.HasEdge a b ∧ a ≠ index := by
  rw [h.edges, withoutNode_hasEdge, hchildren]
  refine and_congr_right fun hab => not_congr ⟨fun hai => hai.1, ?_⟩
  rintro rfl
  exact ⟨rfl, hab⟩

/-- One more node is taken out with all its edges. -/
theorem Removed.concat (h : Removed g₀ g removed) (hlt : index < g.nodes.length)
    (hindex : index ∉ removed) (hg' : g'.WellFormed)
    (hnodes : g'.nodes = g.nodes.set index .zombie)
    (hedges : ∀ a b, g'.HasEdge a b ↔ g.HasEdge a b ∧ a ≠ index) :
    Removed g₀ g' (removed ++ [index]) where
  wellFormed := hg'
  length_eq := by rw [hnodes, length_set, h.length_eq]
  nodup := by
    rw [← concat_eq_append]
    exact h.nodup.concat hindex
  lt_length := by
    refine forall_mem_append.mpr ⟨h.lt_length, forall_mem_singleton.mpr ?_⟩
    rwa [← h.length_eq]
  node_eq := by
    intro i hi
    rw [mem_append, mem_singleton, not_or] at hi
    rw [hnodes, getElem?_set_ne (Ne.symm hi.2), h.node_eq i hi.1]
  zombie := by
    rw [hnodes]
    refine forall_mem_append.mpr ⟨?_, forall_mem_singleton.mpr (getElem?_set_self hlt)⟩
    intro i hi
    have hne : index ≠ i := fun heq => hindex (heq ▸ hi)
    rw [getElem?_set_ne hne, h.zombie i hi]
  edges := by
    intro i j
    rw [hedges, h.edges, mem_append, mem_singleton, not_or, and_assoc]

theorem findOrphan_spec (hg : g.WellFormed) {l : List (Node K V × ℕ)}
    (hl : ∀ entry ∈ l, g.nodes[entry.2]? = some entry.1) :
    ∃ found, g.findOrphan l = some found ∧
      (found = none → ∀ entry ∈ l, g.IsData entry.2 → ∃ a, g.HasEdge a entry.2) ∧
      ∀ i, found = some i → g.IsData i ∧ ∀ a, ¬ g.HasEdge a i := by
  induction l with
  | nil => exact ⟨none, rfl, by simp, by simp⟩
  | cons entry rest ih =>
    obtain ⟨node, index⟩ := entry
    obtain ⟨found, hrun, hnone, hsome⟩ := ih (forall_mem_cons.mp hl).2
    have hnode : g.nodes[index]? = some node := hl _ mem_cons_self
    obtain ⟨orphaned, horphaned, hiff⟩ := isOrphaned_spec hg hnode
    cases orphaned with
    | true =>
      refine ⟨some index, by simp [findOrphan, horphaned], by simp, ?_⟩
      intro i hi
      obtain rfl : index = i := some.inj hi
      exact hiff.mp rfl
    | false =>
      refine ⟨found, by simp [findOrphan, horphaned, hrun], ?_, hsome⟩
      intro hf e he hdata
      rcases mem_cons.mp he with rfl | he
      · simpa [hdata] using hiff
      · exact hnone hf e he hdata

/-- Pruning ends with a graph in which every data node has a parent.  It takes out data nodes
only, a node after all its parents. -/
theorem pruneOrphans_spec (order : HashOrder) {fuel : ℕ} (h : Removed g₀ g removed)
    (hdata : ∀ i ∈ removed, g₀.IsData i) (hfirst : ParentsFirst g₀.HasEdge removed)
    (hfuel : g₀.nodes.length < fuel + removed.length) :
    ∃ g' removed', pruneOrphans order fuel g = some g' ∧ Removed g₀ g' removed' ∧
      (∀ i ∈ removed', g₀.IsData i) ∧ ParentsFirst g₀.HasEdge removed' ∧
      ∀ i, g'.IsData i → ∃ a, g'.HasEdge a i := by
  induction fuel generalizing g removed with
  | zero =>
    have := h.length_le
    omega
  | succ fuel ih =>
    obtain ⟨found, hfound, hnone, hsome⟩ := findOrphan_spec h.wellFormed (l := g.nodes.zipIdx)
      fun entry hentry => mk_mem_zipIdx_iff_getElem?.mp hentry
    cases found with
    | none =>
      refine ⟨g, removed, by simp [pruneOrphans, hfound], h, hdata, hfirst, ?_⟩
      intro i hi
      obtain ⟨key, value, hnode⟩ := hi
      exact hnone rfl (_, i) (mk_mem_zipIdx_iff_getElem?.mpr hnode) ⟨key, value, hnode⟩
    | some index =>
      obtain ⟨hindex, hno⟩ := hsome index rfl
      have hlt := hindex.lt_length
      obtain ⟨hdata₀, hnot⟩ := h.isData_of hindex
      let children := g.children[index]?.getD ∅
      obtain ⟨g', hrun, hcut⟩ :=
        removeEdges_spec (withoutNode_wellFormed h.wellFormed hno) (order.nodup fuel children)
          fun c hc => withoutNode_hasEdge index c |>.mpr ((order.mem_iff fuel children c).mp hc)
      have hremoved : Removed g₀ g' (removed ++ [index]) :=
        h.concat hlt hnot hcut.wellFormed hcut.nodes
          (hcut.edges_withoutNode (order.mem_iff fuel children))
      obtain ⟨g'', removed', hrun', hremoved', hdata', hfirst', hall⟩ := ih hremoved
        (forall_mem_append.mpr ⟨hdata, forall_mem_singleton.mpr hdata₀⟩)
        (h.parentsFirst_concat hfirst hno)
        (by simp only [length_append, length_singleton]; omega)
      refine ⟨g'', removed', ?_, hremoved', hdata', hfirst', hall⟩
      simp only [pruneOrphans, hfound, remove_eq hlt, childrenOf, bind_eq_bind,
        bind_some]
      exact bind_eq_some_iff.mpr ⟨g', hrun, hrun'⟩

def Live (g : DependencyGraph K V) (i : ℕ) : Prop := i = rootIndex ∨ g.IsData i

/-- The state of the second loop: the nodes taken out and those in `next_indices` are the live nodes
that have no parents left, and a node is taken out after all its parents. -/
structure Visited (g₀ g : DependencyGraph K V) (nextIndices visited : List ℕ) : Prop extends
    Removed g₀ g visited where
  nextIndices_nodup : nextIndices.Nodup
  not_visited : ∀ i ∈ nextIndices, i ∉ visited
  mem_iff : ∀ j, j ∈ nextIndices ∨ j ∈ visited ↔ g₀.Live j ∧ ∀ i, ¬ g.HasEdge i j
  parents_before : ∀ before j after, visited = before ++ j :: after →
    ∀ i, g₀.HasEdge i j → i ∈ before

variable {nextIndices visited : List ℕ}

theorem Live.lt_length (h : g.Live i) (hroot : g.nodes[rootIndex]? = some .root) :
    i < g.nodes.length := by
  rcases h with rfl | h
  · exact (List.getElem?_eq_some_iff.mp hroot).1
  · exact h.lt_length

/-- Taking the next node out of the graph. -/
theorem Visited.step (h : Visited g₀ g (index :: nextIndices) visited)
    (hroot : g₀.nodes[rootIndex]? = some .root) (hnodup : children.Nodup)
    (hchildren : ∀ c, c ∈ children ↔ g.HasEdge index c) :
    ∃ nextIndices' g', visitChildren index children nextIndices (g.withoutNode index) =
        some (nextIndices', g') ∧ Visited g₀ g' nextIndices' (visited ++ [index]) := by
  have hmem : index ∈ index :: nextIndices ∨ index ∈ visited := .inl mem_cons_self
  obtain ⟨hlive, hno⟩ := (h.mem_iff index).mp hmem
  have hnot : index ∉ visited := h.not_visited index mem_cons_self
  have hlt : index < g.nodes.length := h.length_eq ▸ hlive.lt_length hroot
  obtain ⟨hfresh, hrest⟩ := nodup_cons.mp h.nextIndices_nodup
  obtain ⟨pushed, g', hrun, hcut, hpushed, hpushed_iff⟩ :=
    visitChildren_spec nextIndices (withoutNode_wellFormed h.wellFormed hno) hnodup
      fun c hc => (withoutNode_hasEdge index c).mpr ((hchildren c).mp hc)
  have hedges := hcut.edges_withoutNode hchildren
  -- A child that is pushed had a parent before, so it was in neither list.
  have hnew : ∀ c ∈ pushed, c ∉ index :: nextIndices ∧ c ∉ visited := by
    intro c hc
    have hedge := (hchildren c).mp ((hpushed_iff c).mp hc).1
    refine ⟨fun hin => ?_, fun hin => ?_⟩
    · exact ((h.mem_iff c).mp (.inl hin)).2 index hedge
    · exact ((h.mem_iff c).mp (.inr hin)).2 index hedge
  refine ⟨pushed ++ nextIndices, g', hrun,
    h.toRemoved.concat hlt hnot hcut.wellFormed hcut.nodes hedges, ?_, ?_, ?_, ?_⟩
  · exact hpushed.append hrest fun c hc hd => (hnew c hc).1 (mem_cons_of_mem index hd)
  · intro c hc hin
    rcases mem_append.mp hin with hin | hin
    · rcases mem_append.mp hc with hc | hc
      · exact (hnew c hc).2 hin
      · exact h.not_visited c (mem_cons_of_mem index hc) hin
    · obtain rfl := mem_singleton.mp hin
      rcases mem_append.mp hc with hc | hc
      · exact (hnew c hc).1 mem_cons_self
      · exact hfresh hc
  · intro j
    have hnoParents : (∀ a, ¬ g'.HasEdge a j) ↔ ∀ a, g.HasEdge a j → a = index := by
      simp only [hedges, not_and, not_not]
    have hold : j ∈ index :: nextIndices ∨ j ∈ visited → g₀.Live j ∧ ∀ a, ¬ g'.HasEdge a j := by
      intro hj
      obtain ⟨hl, hn⟩ := (h.mem_iff j).mp hj
      exact ⟨hl, hnoParents.mpr fun a ha => absurd ha (hn a)⟩
    rw [mem_append, mem_append, mem_singleton, hpushed_iff, hchildren]
    constructor
    · rintro ((⟨hedge, hall⟩ | hj) | hj | rfl)
      · exact ⟨.inr ((h.isData_of (h.wellFormed.target index j hedge)).1), hall⟩
      · exact hold (.inl (mem_cons_of_mem index hj))
      · exact hold (.inr hj)
      · exact hold hmem
    · rintro ⟨hl, hn⟩
      by_cases hedge : g.HasEdge index j
      · exact .inl (.inl ⟨hedge, hn⟩)
      · have hnone : ∀ a, ¬ g.HasEdge a j := by
          intro a ha
          exact hedge (hnoParents.mp hn a ha ▸ ha)
        rcases (h.mem_iff j).mpr ⟨hl, hnone⟩ with hj | hj
        · rcases mem_cons.mp hj with rfl | hj
          · exact .inr (.inr rfl)
          · exact .inl (.inr hj)
        · exact .inr (.inl hj)
  · exact h.parentsFirst_concat h.parents_before hno

theorem resolveLoop_spec (order : HashOrder) {fuel : ℕ} (h : Visited g₀ g nextIndices visited)
    (hroot : g₀.nodes[rootIndex]? = some .root)
    (hfuel : g₀.nodes.length < fuel + visited.length) :
    ∃ visited' g', resolveLoop order fuel nextIndices (visited.filterMap g₀.dataAt) g =
        some (visited'.filterMap g₀.dataAt, g') ∧ Visited g₀ g' [] visited' := by
  induction fuel generalizing g nextIndices visited with
  | zero =>
    have := h.length_le
    omega
  | succ fuel ih =>
    cases nextIndices with
    | nil => exact ⟨visited, g, rfl, h⟩
    | cons index nextIndices =>
      have hmem : index ∈ index :: nextIndices ∨ index ∈ visited := .inl mem_cons_self
      have hlive := ((h.mem_iff index).mp hmem).1
      have hnot : index ∉ visited := h.not_visited index mem_cons_self
      have hlt : index < g.nodes.length := h.length_eq ▸ hlive.lt_length hroot
      have hdata : g.dataAt index = g₀.dataAt index := by
        simp only [dataAt, h.node_eq index hnot]
      let children := g.children[index]?.getD ∅
      obtain ⟨nextIndices', g', hrun, hvisited⟩ := h.step hroot (order.nodup fuel children)
        (order.mem_iff fuel children)
      obtain ⟨visited', g'', hrun', hvisited'⟩ := ih hvisited (by
        simp only [length_append, length_singleton]
        omega)
      refine ⟨visited', g'', ?_, hvisited'⟩
      have hresult : (visited ++ [index]).filterMap g₀.dataAt =
          visited.filterMap g₀.dataAt ++ (g.dataAt index).toList := by
        rw [hdata]
        cases hd : g₀.dataAt index <;> simp [hd]
      rw [hresult] at hrun'
      simp only [resolveLoop, remove_eq hlt, childrenOf, bind_eq_bind, bind_some]
      exact bind_eq_some_iff.mpr ⟨_, hrun, hrun'⟩

theorem isEmpty_iff (hg : g.WellFormed) : g.isEmpty = true ↔ ∀ i j, ¬ g.HasEdge i j := by
  have hall : ∀ map : TreeMap ℕ (Finset ℕ),
      (map.toList.all fun entry => decide (entry.2 = ∅)) = true ↔ ∀ i : ℕ, map[i]?.getD ∅ = ∅ := by
    intro map
    simp only [List.all_eq_true, decide_eq_true_eq, Prod.forall,
      TreeMap.mem_toList_iff_getElem?_eq_some]
    constructor
    · intro h i
      cases hi : map[i]? with
      | none => rfl
      | some s => exact h i s hi
    · intro h i s hi
      simpa [hi] using h i
  rw [isEmpty, Bool.and_eq_true, hall, hall]
  constructor
  · rintro ⟨hchildren, -⟩ i j hij
    simp [HasEdge, hchildren i] at hij
  · intro h
    refine ⟨fun i => Finset.eq_empty_of_forall_notMem fun j hj => h i j hj, ?_⟩
    intro j
    exact Finset.eq_empty_of_forall_notMem fun i hi => h i j ((hg.inverse i j).mp hi)

/-- A finite graph in which everything with a child has a parent has a cycle. -/
theorem exists_cycle {n : ℕ} (hlt : ∀ i j, E i j → j < n)
    (hparent : ∀ i j, E i j → ∃ a, E a i) (hij : E i j) : ∃ k, TransGen E k k := by
  by_contra hacyclic
  rw [not_exists] at hacyclic
  let r : Fin n → Fin n → Prop := fun a b => TransGen E a b
  have : Std.Irrefl r := ⟨fun a => hacyclic a⟩
  have hwf : WellFounded r := Finite.wellFounded_of_trans_of_irrefl r
  obtain ⟨a, hai⟩ := hparent i j hij
  let S : Set (Fin n) := {x | ∃ b, E x b}
  obtain ⟨m, ⟨b, hmb⟩, hmin⟩ := hwf.has_min S ⟨⟨i, hlt a i hai⟩, j, hij⟩
  obtain ⟨c, hcm⟩ := hparent m b hmb
  obtain ⟨d, hdc⟩ := hparent c m hcm
  exact hmin ⟨c, hlt d c hdc⟩ ⟨m, hcm⟩ (.single hcm)

/-- What a list of indices has to be for `resolve` to return its data. -/
structure Resolves (g : DependencyGraph K V) (visited : List ℕ) : Prop where
  nodup : visited.Nodup
  mem_iff : ∀ j, j ∈ visited ↔ ReflTransGen g.HasEdge rootIndex j
  parents_before : ∀ before j after, visited = before ++ j :: after →
    ∀ i ∈ visited, g.HasEdge i j → i ∈ before

structure Ended (g g₁ g₂ : DependencyGraph K V) (pruned visited : List ℕ) : Prop where
  prune : Removed g g₁ pruned
  root : rootIndex ∉ pruned
  pruned_first : ParentsFirst g.HasEdge pruned
  parents : ∀ i, g₁.IsData i → ∃ a, g₁.HasEdge a i
  visit : Visited g₁ g₂ [] visited

/-- The second loop starts with the root, the only node without parents after pruning. -/
theorem visited_root (hg : g.WellFormed) (hroot : g.nodes[rootIndex]? = some .root)
    (hparents : ∀ i, g.IsData i → ∃ a, g.HasEdge a i) : Visited g g [rootIndex] [] := by
  refine ⟨Removed.refl hg, nodup_singleton _, by simp, ?_, by simp⟩
  intro j
  simp only [mem_singleton, not_mem_nil, or_false]
  constructor
  · rintro rfl
    refine ⟨.inl rfl, fun a ha => ?_⟩
    obtain ⟨key, value, hnode⟩ := hg.target a rootIndex ha
    rw [hroot] at hnode
    cases hnode
  · rintro ⟨rfl | hj, hno⟩
    · rfl
    · obtain ⟨a, ha⟩ := hparents j hj
      exact absurd ha (hno a)

/-- Neither loop panics, and the result depends on whether edges are left. -/
theorem exists_ended (hg : g.WellFormed) (hroot : g.nodes[rootIndex]? = some .root)
    (pruneOrder order : HashOrder) :
    ∃ g₁ g₂ pruned visited, Ended g g₁ g₂ pruned visited ∧ g.resolve pruneOrder order =
      some (if g₂.isEmpty then .ok (visited.filterMap g₁.dataAt)
        else .error .circularDependency) := by
  obtain ⟨g₁, pruned, hprune, hremoved, hdata, hfirst, hparents⟩ := pruneOrphans_spec pruneOrder
    (Removed.refl hg) (by simp) (by simp [ParentsFirst]) (by simp : _ < g.nodes.length + 1 + _)
  have hnotroot : rootIndex ∉ pruned := by
    intro hmem
    obtain ⟨key, value, hnode⟩ := hdata rootIndex hmem
    rw [hroot] at hnode
    cases hnode
  have hroot₁ : g₁.nodes[rootIndex]? = some .root :=
    (hremoved.node_eq rootIndex hnotroot).trans hroot
  obtain ⟨visited, g₂, hloop, hvisited⟩ := resolveLoop_spec order
    (visited_root hremoved.wellFormed hroot₁ hparents) hroot₁
    (by simp : _ < g₁.nodes.length + 1 + _)
  refine ⟨g₁, g₂, pruned, visited, ⟨hremoved, hnotroot, hfirst, hparents, hvisited⟩, ?_⟩
  simp only [filterMap_nil] at hloop
  simp [resolve, hprune, hloop]

namespace Ended

variable {g₁ g₂ : DependencyGraph K V} {pruned visited : List ℕ}
  (h : Ended g g₁ g₂ pruned visited)
include h

theorem mem_visited : j ∈ visited ↔ g₁.Live j ∧ ∀ i, ¬ g₂.HasEdge i j := by
  simpa using h.visit.mem_iff j

theorem hasEdge_iff : g₂.HasEdge i j ↔ g.HasEdge i j ∧ i ∉ pruned ∧ i ∉ visited := by
  rw [h.visit.edges, h.prune.edges, and_assoc]

/-- A node that is reachable from the root is not pruned. -/
theorem live_of_reachable (hj : ReflTransGen g.HasEdge rootIndex j) :
    j ∉ pruned ∧ g₁.Live j := by
  induction hj with
  | refl => exact ⟨h.root, .inl rfl⟩
  | tail _ hij ih =>
    have hedge := (h.prune.edges _ _).mpr ⟨hij, ih.1⟩
    have htarget := h.prune.wellFormed.target _ _ hedge
    exact ⟨(h.prune.isData_of htarget).2, .inr htarget⟩

theorem reachable_of_visited (hj : j ∈ visited) : ReflTransGen g.HasEdge rootIndex j := by
  -- A visited node that is not reachable has a parent of the same kind.
  have hunreached : ∀ j, j ∈ visited ∧ ¬ReflTransGen g.HasEdge rootIndex j →
      ∃ i, (i ∈ visited ∧ ¬ReflTransGen g.HasEdge rootIndex i) ∧ g₁.HasEdge i j := by
    rintro j ⟨hj, hno⟩
    rcases (h.mem_visited.mp hj).1 with rfl | hdata
    · exact absurd .refl hno
    · obtain ⟨a, ha⟩ := h.parents j hdata
      obtain ⟨before, after, heq⟩ := append_of_mem hj
      have hbefore := h.visit.parents_before before j after heq a ha
      refine ⟨a, ⟨heq ▸ mem_append_left _ hbefore, fun hreach => hno ?_⟩, ha⟩
      exact hreach.tail ((h.prune.edges a j).mp ha).1
  by_contra hno
  exact ParentsFirst.not_mem h.visit.parents_before hunreached ⟨hj, hno⟩ hj

/-- With all edges gone all live nodes are visited. -/
theorem resolves (hnone : ∀ i j, ¬ g₂.HasEdge i j) :
    g.Resolves visited ∧ visited.filterMap g₁.dataAt = visited.filterMap g.dataAt := by
  have hkept : ∀ j ∈ visited, j ∉ pruned := fun j hj =>
    (h.live_of_reachable (h.reachable_of_visited hj)).1
  refine ⟨⟨h.visit.nodup, fun j => ⟨h.reachable_of_visited, fun hj => ?_⟩, ?_⟩, ?_⟩
  · exact h.mem_visited.mpr ⟨(h.live_of_reachable hj).2, fun i => hnone i j⟩
  · intro before j after heq i hi hij
    exact h.visit.parents_before before j after heq i
      ((h.prune.edges i j).mpr ⟨hij, hkept i hi⟩)
  · apply filterMap_congr
    intro j hj
    simp only [dataAt, h.prune.node_eq j (hkept j hj)]

/-- The edges that are left have a cycle: a node that still has a child is not visited, so it still
has a parent. -/
theorem exists_cycle (hsource : ∀ i j, g.HasEdge i j → g.Live i) (hij : g₂.HasEdge i j) :
    ∃ k, TransGen g.HasEdge k k := by
  have hparent : ∀ a b, g₂.HasEdge a b → ∃ c, g₂.HasEdge c a := by
    intro a b hab
    obtain ⟨hedge, hnotPruned, hnotVisited⟩ := h.hasEdge_iff.mp hab
    by_contra hno
    push Not at hno
    have hlive : g₁.Live a := (hsource a b hedge).imp_right fun ⟨key, value, hnode⟩ =>
      ⟨key, value, (h.prune.node_eq a hnotPruned).trans hnode⟩
    exact hnotVisited (h.mem_visited.mpr ⟨hlive, hno⟩)
  have hlt : ∀ a b, g₂.HasEdge a b → b < g₂.nodes.length := fun a b hab =>
    (h.visit.wellFormed.target a b hab).lt_length
  obtain ⟨k, hk⟩ := DependencyGraph.exists_cycle hlt hparent hij
  exact ⟨k, TransGen.mono (fun a b hab => (h.hasEdge_iff.mp hab).1) k k hk⟩

/-- Nodes that always have a parent are neither pruned nor visited, and keep their edges. -/
theorem exists_hasEdge {C : ℕ → Prop} (hC : ∀ j, C j → ∃ i, C i ∧ g.HasEdge i j) (hj : C j) :
    ∃ i, g₂.HasEdge i j := by
  have hC₁ : ∀ j, C j → ∃ i, C i ∧ g₁.HasEdge i j := by
    intro j hj
    obtain ⟨i, hi, hij⟩ := hC j hj
    exact ⟨i, hi, (h.prune.edges i j).mpr ⟨hij, h.pruned_first.not_mem hC hi⟩⟩
  obtain ⟨i, hi, hij⟩ := hC₁ j hj
  exact ⟨i, (h.visit.edges i j).mpr
    ⟨hij, ParentsFirst.not_mem h.visit.parents_before hC₁ hi⟩⟩

end Ended

/-- `resolve` returns the data of the nodes reachable from the root in a topological order, unless
there is a cycle, or anything else in which every node has a parent. -/
theorem resolve_spec (hg : g.WellFormed) (hroot : g.nodes[rootIndex]? = some .root)
    (hsource : ∀ i j, g.HasEdge i j → g.Live i)
    (pruneOrder order : HashOrder) :
    ∃ result, g.resolve pruneOrder order = some result ∧
      (∀ list, result = .ok list → ∃ visited, list = visited.filterMap g.dataAt ∧
        g.Resolves visited) ∧
      ((∀ k, ¬ TransGen g.HasEdge k k) → ∃ list, result = .ok list) ∧
      ∀ C : ℕ → Prop, (∀ j, C j → ∃ i, C i ∧ g.HasEdge i j) → ∀ j, C j →
        result = .error .circularDependency := by
  obtain ⟨g₁, g₂, pruned, visited, hended, hrun⟩ := exists_ended hg hroot pruneOrder order
  have hempty := isEmpty_iff hended.visit.wellFormed
  refine ⟨_, hrun, ?_, ?_, ?_⟩
  · intro list hlist
    split_ifs at hlist with hyes
    obtain ⟨hresolves, hdata⟩ := hended.resolves (hempty.mp hyes)
    exact ⟨visited, (Except.ok.inj hlist).symm.trans hdata, hresolves⟩
  · intro hacyclic
    refine ⟨_, if_pos (hempty.mpr fun i j hij => ?_)⟩
    obtain ⟨k, hk⟩ := hended.exists_cycle hsource hij
    exact hacyclic k hk
  · intro C hC j hj
    obtain ⟨i, hij⟩ := hended.exists_hasEdge hC hj
    exact if_neg fun hyes => hempty.mp hyes i j hij

section Build

variable [DecidableEq K] {nodes : List (K × V)} {edges : List (Edge K)}

def valueOf (nodes : List (K × V)) (key : K) : Option V :=
  nodes.foldl (fun found node => if node.1 = key then some node.2 else found) none

theorem valueOf_concat (node : K × V) (key : K) :
    valueOf (nodes ++ [node]) key = if node.1 = key then some node.2 else valueOf nodes key := by
  simp [valueOf]

structure HasNodes (nodes : List (K × V)) (g : DependencyGraph K V) : Prop where
  root : g.nodes[rootIndex]? = some .root
  index : ∀ i key value, g.nodes[i]? = some (.data key value) → g.indices key = some i
  node : ∀ i key, g.indices key = some i → ∃ value, g.nodes[i]? = some (.data key value) ∧
    valueOf nodes key = some value
  exists_index : ∀ key value, valueOf nodes key = some value → ∃ i, g.indices key = some i

theorem HasNodes.index_ne_root (h : HasNodes nodes g) {key : K} :
    g.indices key ≠ some rootIndex := by
  intro hindex
  obtain ⟨_, hnode, -⟩ := h.node rootIndex key hindex
  rw [h.root] at hnode
  cases hnode

theorem HasNodes.key_eq (h : HasNodes nodes g) {key key' : K} (hkey : g.indices key = some i)
    (hkey' : g.indices key' = some i) : key = key' := by
  obtain ⟨_, hnode, -⟩ := h.node i key hkey
  obtain ⟨_, hnode', -⟩ := h.node i key' hkey'
  rw [hnode] at hnode'
  exact (Node.data.inj (some.inj hnode')).1

theorem HasNodes.insertNode (h : HasNodes nodes g) (key : K) (value : V) :
    HasNodes (nodes ++ [(key, value)]) (g.insertNode key value) := by
  have hlt : ∀ {k i}, g.indices k = some i → i < g.nodes.length := fun hk => by
    obtain ⟨_, hnode, -⟩ := h.node _ _ hk
    exact (List.getElem?_eq_some_iff.mp hnode).1
  have hnodes : ∀ i, (g.insertNode key value).nodes[i]? =
      if i = g.nodes.length then some (.data key value)
      else if g.indices key = some i then some .zombie else g.nodes[i]? := by
    intro i
    unfold DependencyGraph.insertNode
    cases hindex : g.indices key with
    | none => grind
    | some previous => grind
  have hindices : ∀ k, (g.insertNode key value).indices k =
      if k = key then some g.nodes.length else g.indices k := fun k => rfl
  refine ⟨?_, ?_, ?_, ?_⟩
  · rw [hnodes, if_neg (List.getElem?_eq_some_iff.mp h.root).1.ne, if_neg h.index_ne_root]
    exact h.root
  · intro i k v hnode
    rw [hnodes] at hnode
    rw [hindices]
    split_ifs at hnode with hi hprevious
    · cases hnode
      rw [if_pos rfl, hi]
    · cases hnode
    · have hindex := h.index i k v hnode
      have hk : k ≠ key := fun heq => hprevious (heq ▸ hindex)
      rw [if_neg hk]
      exact hindex
  · intro i k hindex
    rw [hindices] at hindex
    rw [valueOf_concat, hnodes]
    split_ifs at hindex with hk
    · cases hindex
      exact ⟨value, by rw [if_pos rfl, hk], if_pos hk.symm⟩
    · obtain ⟨v, hnode, hv⟩ := h.node i k hindex
      have hprevious : g.indices key ≠ some i := fun hkey => hk (h.key_eq hindex hkey)
      refine ⟨v, ?_, ?_⟩
      · rw [if_neg (hlt hindex).ne, if_neg hprevious]
        exact hnode
      · rw [if_neg (Ne.symm hk)]
        exact hv
  · intro k v hv
    rw [valueOf_concat] at hv
    rw [hindices]
    by_cases hk : k = key
    · exact ⟨g.nodes.length, by rw [if_pos hk]⟩
    · rw [if_neg (Ne.symm hk)] at hv
      rw [if_neg hk]
      exact h.exists_index k v hv

def Connects (g : DependencyGraph K V) (i j : ℕ) : Edge K → Prop
  | .fromRoot target => i = rootIndex ∧ g.indices target = some j
  | .between source target => g.indices source = some i ∧ g.indices target = some j

structure HasEdges (edges : List (Edge K)) (g : DependencyGraph K V) : Prop where
  inverse : ∀ i j, i ∈ g.parents[j]?.getD ∅ ↔ g.HasEdge i j
  hasEdge_iff : ∀ i j, g.HasEdge i j ↔ ∃ edge ∈ edges, g.Connects i j edge

omit [DecidableEq K] in
private theorem mem_insertInto (map : TreeMap ℕ (Finset ℕ)) (a b x y : ℕ) :
    y ∈ (insertInto map a b)[x]?.getD ∅ ↔ y ∈ map[x]?.getD ∅ ∨ x = a ∧ y = b := by
  simp only [insertInto, getElem?_insert]
  by_cases hx : a = x
  · subst hx
    simp [or_comm]
  · simp [hx, Ne.symm hx]

omit [DecidableEq K] in
/-- Inserting an edge, or failing to. -/
private theorem insert_eq (g : DependencyGraph K V) (edge : Edge K) :
    (∃ a b, (g.insert edge).toOption.getD g = g.insertIndices a b ∧
      ∀ i j, g.Connects i j edge ↔ i = a ∧ j = b) ∨
    (g.insert edge).toOption.getD g = g ∧ ∀ i j, ¬ g.Connects i j edge := by
  cases edge with
  | fromRoot target =>
    cases htarget : g.indices target with
    | none =>
      refine .inr ⟨?_, by simp [Connects, htarget]⟩
      rw [insert, insertEdgeFromRoot, getIndex, htarget]
      rfl
    | some b =>
      refine .inl ⟨rootIndex, b, ?_, by simp [Connects, htarget, eq_comm]⟩
      rw [insert, insertEdgeFromRoot, getIndex, htarget]
      rfl
  | between source target =>
    cases hsource : g.indices source with
    | none =>
      refine .inr ⟨?_, by simp [Connects, hsource]⟩
      rw [insert, insertEdge, getIndex, hsource]
      rfl
    | some a =>
      cases htarget : g.indices target with
      | none =>
        refine .inr ⟨?_, by simp [Connects, htarget]⟩
        rw [insert, insertEdge, getIndex, getIndex, hsource, htarget]
        rfl
      | some b =>
        refine .inl ⟨a, b, ?_, by simp [Connects, hsource, htarget, eq_comm]⟩
        rw [insert, insertEdge, getIndex, getIndex, hsource, htarget]
        rfl

theorem HasEdges.insert (hnodes : HasNodes nodes g) (h : HasEdges edges g) (edge : Edge K) :
    HasNodes nodes ((g.insert edge).toOption.getD g) ∧
      HasEdges (edges ++ [edge]) ((g.insert edge).toOption.getD g) := by
  rcases insert_eq g edge with ⟨a, b, heq, hconnects⟩ | ⟨heq, hconnects⟩
  · rw [heq]
    have hedge : ∀ i j, (g.insertIndices a b).HasEdge i j ↔ g.HasEdge i j ∨ i = a ∧ j = b :=
      fun i j => mem_insertInto g.children a b i j
    refine ⟨{ hnodes with }, ?_, ?_⟩
    · intro i j
      rw [hedge, ← h.inverse]
      exact (mem_insertInto g.parents b a j i).trans (or_congr_right And.comm)
    · intro i j
      have hsame : ∀ e, (g.insertIndices a b).Connects i j e ↔ g.Connects i j e := fun e => Iff.rfl
      rw [hedge, h.hasEdge_iff]
      simp only [mem_append, mem_singleton, or_and_right, exists_or, exists_eq_left,
        hsame, hconnects]
  · rw [heq]
    refine ⟨hnodes, h.inverse, ?_⟩
    intro i j
    rw [h.hasEdge_iff]
    simp only [mem_append, mem_singleton, or_and_right, exists_or, exists_eq_left,
      hconnects, or_false]

theorem build_spec (nodes : List (K × V)) (edges : List (Edge K)) :
    HasNodes nodes (build nodes edges) ∧ HasEdges edges (build nodes edges) := by
  induction edges using reverseRecOn with
  | nil =>
    have hedges : ∀ nodes : List (K × V), HasNodes nodes (build nodes []) ∧
        (build nodes []).children = ∅ ∧ (build nodes []).parents = ∅ := by
      intro nodes
      induction nodes using reverseRecOn with
      | nil =>
        refine ⟨⟨rfl, ?_, by simp [build, new], by simp [valueOf]⟩, rfl, rfl⟩
        intro i key value hnode
        cases i with
        | zero => simp [build, new] at hnode
        | succ i => simp [build, new] at hnode
      | append_singleton nodes node ih =>
        have hbuild : build (nodes ++ [node]) [] = (build nodes []).insertNode node.1 node.2 := by
          simp [build]
        rw [hbuild]
        exact ⟨ih.1.insertNode node.1 node.2, ih.2⟩
    obtain ⟨hnodes, hchildren, hparents⟩ := hedges nodes
    exact ⟨hnodes, by simp [HasEdge, hchildren, hparents], by simp [HasEdge, hchildren]⟩
  | append_singleton edges edge ih =>
    have hbuild : build nodes (edges ++ [edge]) =
        ((build nodes edges).insert edge).toOption.getD (build nodes edges) := by
      simp [build]
    rw [hbuild]
    exact ih.2.insert ih.1 edge

def keyAt (g : DependencyGraph K V) (index : ℕ) : Option K :=
  match g.nodes[index]? with
  | some (.data key _) => some key
  | _ => none

def EdgeBetween (nodes : List (K × V)) (edges : List (Edge K)) (a b : K) : Prop :=
  Edge.between a b ∈ edges ∧ (valueOf nodes a).isSome ∧ (valueOf nodes b).isSome

def OnCycle (nodes : List (K × V)) (edges : List (Edge K)) (key : K) : Prop :=
  TransGen (EdgeBetween nodes edges) key key

inductive Reachable (nodes : List (K × V)) (edges : List (Edge K)) : K → Prop where
  | root {k : K} : Edge.fromRoot k ∈ edges → (valueOf nodes k).isSome → Reachable nodes edges k
  | edge {a b : K} : Reachable nodes edges a → EdgeBetween nodes edges a b →
      Reachable nodes edges b

namespace HasNodes

section

variable (h : HasNodes nodes g)
include h

theorem keyAt_iff {i : ℕ} {key : K} :
    g.keyAt i = some key ↔ g.indices key = some i := by
  constructor
  · intro hkey
    unfold keyAt at hkey
    split at hkey
    · next k value hnode =>
      obtain rfl := some.inj hkey
      exact h.index i k value hnode
    · cases hkey
  · intro hindex
    obtain ⟨value, hnode, -⟩ := h.node i key hindex
    simp [keyAt, hnode]

theorem dataAt_eq (i : ℕ) :
    g.dataAt i = (g.keyAt i).bind (valueOf nodes) := by
  unfold dataAt keyAt
  split
  · next key value hnode =>
    obtain ⟨value', hnode', hvalue⟩ := h.node i key (h.index i key value hnode)
    rw [hnode] at hnode'
    obtain ⟨-, rfl⟩ := Node.data.inj (some.inj hnode')
    simp [hvalue]
  · rfl

theorem isSome_iff (key : K) :
    (valueOf nodes key).isSome ↔ ∃ i, g.indices key = some i := by
  constructor
  · intro hsome
    obtain ⟨value, hvalue⟩ := isSome_iff_exists.mp hsome
    exact h.exists_index key value hvalue
  · rintro ⟨i, hi⟩
    obtain ⟨value, -, hvalue⟩ := h.node i key hi
    simp [hvalue]

/-- The data of nodes are the values of their keys. -/
theorem map_dataAt (l : List ℕ) :
    (l.filterMap g.dataAt).map some = (l.filterMap g.keyAt).map (valueOf nodes) := by
  rw [map_filterMap, map_filterMap]
  apply filterMap_congr
  intro i _
  rw [h.dataAt_eq]
  cases hkey : g.keyAt i with
  | none => rfl
  | some key =>
    obtain ⟨value, -, hvalue⟩ := h.node i key (h.keyAt_iff.mp hkey)
    simp [hvalue]

end

end HasNodes

omit [DecidableEq K] in
/-- Edges lead to nodes that have a key. -/
theorem HasEdges.target (h : HasEdges edges g) (hij : g.HasEdge i j) :
    ∃ key, g.indices key = some j := by
  obtain ⟨edge, -, hconnects⟩ := (h.hasEdge_iff i j).mp hij
  cases edge with
  | fromRoot target => exact ⟨target, hconnects.2⟩
  | between source target => exact ⟨target, hconnects.2⟩

section Keys

variable (hnodes : HasNodes nodes g) (hedges : HasEdges edges g)
include hnodes hedges

theorem wellFormed_of_hasEdges : g.WellFormed ∧ ∀ i j, g.HasEdge i j → g.Live i := by
  have hdata : ∀ key i, g.indices key = some i → g.IsData i := by
    intro key i hindex
    obtain ⟨value, hnode, -⟩ := hnodes.node i key hindex
    exact ⟨key, value, hnode⟩
  refine ⟨⟨hedges.inverse, ?_, hnodes.index⟩, ?_⟩
  · intro i j hij
    obtain ⟨key, hkey⟩ := hedges.target hij
    exact hdata key j hkey
  · intro i j hij
    obtain ⟨edge, -, hconnects⟩ := (hedges.hasEdge_iff i j).mp hij
    cases edge with
    | fromRoot target => exact .inl hconnects.1
    | between source target => exact .inr (hdata source i hconnects.1)

/-- Edges between data nodes are edges between their keys. -/
theorem edgeBetween_iff {a b : K} (ha : g.indices a = some i) (hb : g.indices b = some j) :
    g.HasEdge i j ↔ EdgeBetween nodes edges a b := by
  rw [hedges.hasEdge_iff]
  constructor
  · rintro ⟨edge, hmem, hconnects⟩
    cases edge with
    | fromRoot target => exact absurd (hconnects.1 ▸ ha) hnodes.index_ne_root
    | between source target =>
      obtain rfl := hnodes.key_eq hconnects.1 ha
      obtain rfl := hnodes.key_eq hconnects.2 hb
      exact ⟨hmem, (hnodes.isSome_iff _).mpr ⟨i, ha⟩, (hnodes.isSome_iff _).mpr ⟨j, hb⟩⟩
  · rintro ⟨hmem, -, -⟩
    exact ⟨_, hmem, ha, hb⟩

theorem reachable_iff {key : K} (hindex : g.indices key = some i) :
    ReflTransGen g.HasEdge rootIndex i ↔ Reachable nodes edges key := by
  constructor
  · intro hreach
    have hkeys : ∀ j, ReflTransGen g.HasEdge rootIndex j → j = rootIndex ∨
        ∀ k, g.indices k = some j → Reachable nodes edges k := by
      intro j hj
      induction hj with
      | refl => exact .inl rfl
      | @tail a b _ hab ih =>
        refine .inr fun k hk => ?_
        obtain ⟨edge, hmem, hconnects⟩ := (hedges.hasEdge_iff a b).mp hab
        cases edge with
        | fromRoot target =>
          obtain rfl := hnodes.key_eq hconnects.2 hk
          exact .root hmem ((hnodes.isSome_iff _).mpr ⟨b, hk⟩)
        | between source target =>
          rcases ih with rfl | ih
          · exact absurd hconnects.1 hnodes.index_ne_root
          · exact .edge (ih source hconnects.1)
              ((edgeBetween_iff hnodes hedges hconnects.1 hk).mp hab)
    rcases hkeys i hreach with rfl | h
    · exact absurd hindex hnodes.index_ne_root
    · exact h key hindex
  · intro hreach
    induction hreach generalizing i with
    | root hmem hsome => exact .single ((hedges.hasEdge_iff _ _).mpr ⟨_, hmem, rfl, hindex⟩)
    | @edge a b _ hab ih =>
      obtain ⟨x, hx⟩ := (hnodes.isSome_iff a).mp hab.2.1
      exact (ih hx).tail ((edgeBetween_iff hnodes hedges hx hindex).mpr hab)

/-- A cycle of indices is a cycle of keys. -/
theorem transGen_keys (h : TransGen g.HasEdge i j) {a : K} (ha : g.indices a = some i) :
    ∃ b, g.indices b = some j ∧ TransGen (EdgeBetween nodes edges) a b := by
  induction h with
  | single hij =>
    obtain ⟨b, hb⟩ := hedges.target hij
    exact ⟨b, hb, .single ((edgeBetween_iff hnodes hedges ha hb).mp hij)⟩
  | tail _ hjk ih =>
    obtain ⟨b, hb, hab⟩ := ih
    obtain ⟨c, hc⟩ := hedges.target hjk
    exact ⟨c, hc, hab.tail ((edgeBetween_iff hnodes hedges hb hc).mp hjk)⟩

end Keys

/-- A graph without a cycle is resolved, and a cycle is found wherever it is. -/
theorem resolve_onCycle (nodes : List (K × V)) (edges : List (Edge K))
    (pruneOrder order : HashOrder) :
    ((∀ key, ¬OnCycle nodes edges key) →
      ∃ list, (build nodes edges).resolve pruneOrder order = some (.ok list)) ∧
    ∀ key, OnCycle nodes edges key →
      (build nodes edges).resolve pruneOrder order = some (.error .circularDependency) := by
  obtain ⟨hnodes, hedges⟩ := build_spec nodes edges
  generalize build nodes edges = g at hnodes hedges ⊢
  obtain ⟨hwf, hsource⟩ := wellFormed_of_hasEdges hnodes hedges
  obtain ⟨result, hrun, -, hacyclic, hcyclic⟩ :=
    resolve_spec hwf hnodes.root hsource pruneOrder order
  constructor
  · intro hkeys
    obtain ⟨list, rfl⟩ := hacyclic fun k hk => by
      obtain ⟨x, -, hxk⟩ := TransGen.tail'_iff.mp hk
      obtain ⟨key, value, hnode⟩ := hwf.target x k hxk
      have hkey := hnodes.index k key value hnode
      obtain ⟨key', hkey', hcycle⟩ := transGen_keys hnodes hedges hk hkey
      obtain rfl := hnodes.key_eq hkey hkey'
      exact hkeys key hcycle
    exact ⟨list, hrun⟩
  · intro key hkey
    have hparent : ∀ {b}, OnCycle nodes edges b → ∃ a, OnCycle nodes edges a ∧
        EdgeBetween nodes edges a b := by
      intro b hb
      obtain ⟨a, hback, hab⟩ := TransGen.tail'_iff.mp hb
      exact ⟨a, .head' hab hback, hab⟩
    obtain ⟨a, -, hab⟩ := hparent hkey
    obtain ⟨j, hj⟩ := (hnodes.isSome_iff key).mp hab.2.2
    rw [hrun, hcyclic (fun j => ∃ b, OnCycle nodes edges b ∧ g.indices b = some j) ?_ j
      ⟨key, hkey, hj⟩]
    rintro j ⟨b, hb, hj⟩
    obtain ⟨a, ha, hab⟩ := hparent hb
    obtain ⟨i, hi⟩ := (hnodes.isSome_iff a).mp hab.2.1
    exact ⟨i, ⟨a, ha, hi⟩, (edgeBetween_iff hnodes hedges hi hj).mpr hab⟩

/-- `resolve` does not panic, in whatever order hash sets are iterated.  If it returns a list, this
is the data of the nodes reachable from the root, each once and before the nodes that it has edges
to; and it does return a list if the graph has no cycle. -/
theorem resolve_reachable_in_order (nodes : List (K × V)) (edges : List (Edge K))
    (pruneOrder order : HashOrder) :
    ∃ result, (build nodes edges).resolve pruneOrder order = some result ∧
      (∀ list, result = .ok list → ∃ keys : List K,
        list.map some = keys.map (valueOf nodes) ∧ keys.Nodup ∧
        (∀ key, key ∈ keys ↔ Reachable nodes edges key) ∧
        ∀ (i j : ℕ) (a b : K), keys[i]? = some a → keys[j]? = some b →
          EdgeBetween nodes edges a b → i < j) ∧
      ((∀ key, ¬ TransGen (EdgeBetween nodes edges) key key) →
        ∃ list, result = .ok list) := by
  obtain ⟨hacyclic, -⟩ := resolve_onCycle nodes edges pruneOrder order
  obtain ⟨hnodes, hedges⟩ := build_spec nodes edges
  generalize build nodes edges = g at hnodes hedges hacyclic ⊢
  obtain ⟨hwf, hsource⟩ := wellFormed_of_hasEdges hnodes hedges
  obtain ⟨result, hrun, hok, -, -⟩ := resolve_spec hwf hnodes.root hsource pruneOrder order
  refine ⟨result, hrun, ?_, ?_⟩
  · intro list hlist
    obtain ⟨visited, rfl, hresolves⟩ := hok list hlist
    have hmemKeys : ∀ l : List ℕ, ∀ key, key ∈ l.filterMap g.keyAt ↔
        ∃ i ∈ l, g.indices key = some i := by
      intro l key
      simp only [mem_filterMap, hnodes.keyAt_iff]
    have hnodup : (visited.filterMap g.keyAt).Nodup := by
      refine hresolves.nodup.filterMap ?_
      intro i j key hi hj
      exact some.inj ((hnodes.keyAt_iff.mp hi).symm.trans (hnodes.keyAt_iff.mp hj))
    refine ⟨visited.filterMap g.keyAt, ?_, hnodup, ?_, ?_⟩
    · exact hnodes.map_dataAt visited
    · intro key
      rw [hmemKeys]
      constructor
      · rintro ⟨i, hi, hindex⟩
        exact (reachable_iff hnodes hedges hindex).mp ((hresolves.mem_iff i).mp hi)
      · intro hreach
        have hsome : (valueOf nodes key).isSome := by
          cases hreach with
          | root _ hsome => exact hsome
          | edge _ hab => exact hab.2.2
        obtain ⟨i, hindex⟩ := (hnodes.isSome_iff key).mp hsome
        exact ⟨i, (hresolves.mem_iff i).mpr ((reachable_iff hnodes hedges hindex).mpr hreach),
          hindex⟩
    · intro i j a b hi hj hab
      obtain ⟨x, hx, hxa⟩ := (hmemKeys visited a).mp (mem_of_getElem? hi)
      obtain ⟨y, hy, hyb⟩ := (hmemKeys visited b).mp (mem_of_getElem? hj)
      obtain ⟨before, after, rfl⟩ := append_of_mem hy
      have hbefore := hresolves.parents_before before y after rfl x hx
        ((edgeBetween_iff hnodes hedges hxa hyb).mpr hab)
      -- The keys before the one of `y` contain the one of `x`.
      let keys := before.filterMap g.keyAt
      have hkeys : (before ++ y :: after).filterMap g.keyAt =
          keys ++ b :: after.filterMap g.keyAt := by
        rw [filterMap_append, filterMap_cons_some (hnodes.keyAt_iff.mpr hyb)]
      obtain ⟨i', hi'⟩ := mem_iff_getElem?.mp ((hmemKeys before a).mpr ⟨x, hbefore, hxa⟩)
      have hlt : i' < keys.length := (List.getElem?_eq_some_iff.mp hi').1
      rw [hkeys] at hi hj hnodup
      have hia : i = i' := by
        refine (List.getElem?_inj (List.getElem?_eq_some_iff.mp hi).1 hnodup).mp ?_
        rw [hi, List.getElem?_append_left hlt]
        exact hi'.symm
      have hjb : j = keys.length := by
        refine (List.getElem?_inj (List.getElem?_eq_some_iff.mp hj).1 hnodup).mp ?_
        rw [hj]
        simp
      omega
  · intro hkeys
    obtain ⟨list, hlist⟩ := hacyclic hkeys
    exact ⟨list, some.inj (hrun.symm.trans hlist)⟩

end Build

end Smos.Bind.DependencyGraph
