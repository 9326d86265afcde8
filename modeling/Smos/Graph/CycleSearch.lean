import Smos.Lib.Cycles
import Smos.Graph.TopologicalSort

/-!
The enumeration of the cycles of a component.

The search follows every path without repeated nodes from the root of the component and stops where
it meets the path again.  A cycle that does not pass through the root is found by the path that
reaches it without meeting it before.
-/
namespace Smos.Graph

open Lib.Cycles Relation List

variable {T : Type} [LinearOrder T] {graph : DirectedGraph T} {l path : List T} {c : List T}
  {currentNode : T}

/-- A cycle of the graph, written from its lowest node and closed by repeating it. -/
def DirectedGraph.IsCycle (self : DirectedGraph T) (c : List T) : Prop :=
  ∃ a l, c = a :: (l ++ [a]) ∧ Elementary self.Edge (a :: l) ∧ ∀ x ∈ l, a ≤ x

omit [LinearOrder T] in
theorem mem_of_mem_close {a x : T} (hx : x ∈ a :: (l ++ [a])) : x ∈ a :: l := by
  rcases mem_cons.mp hx with rfl | hx
  · exact mem_cons_self
  · rcases mem_append.mp hx with hx | hx
    · exact mem_cons_of_mem a hx
    · rw [mem_singleton.mp hx]
      exact mem_cons_self

/-- From each node of a cycle every other one is reached. -/
theorem DirectedGraph.IsCycle.reach (h : graph.IsCycle c) {x y : T} (hx : x ∈ c) (hy : y ∈ c) :
    ReflTransGen graph.Edge x y := by
  obtain ⟨a, m, rfl, hcycle, -⟩ := h
  exact hcycle.reach (mem_of_mem_close hx) (mem_of_mem_close hy)

theorem DirectedGraph.IsCycle.transGen (h : graph.IsCycle c) {x : T} (hx : x ∈ c) :
    TransGen graph.Edge x x := by
  obtain ⟨a, m, rfl, hcycle, -⟩ := h
  obtain ⟨rest, hrotated⟩ := exists_isRotated_cons (mem_of_mem_close hx)
  exact transGen_of_isChain (elementary_cons.mp (hcycle.rotated hrotated)).2

section Rotate

theorem lowestIndex_spec {front rest : List T} {lowestIdx : ℕ} {lowestValue : T}
    (hget : (front ++ rest)[lowestIdx]? = some lowestValue)
    (hlowest : ∀ x ∈ front, lowestValue ≤ x) :
    ∃ v, (front ++ rest)[lowestIndex front.length lowestIdx lowestValue rest]? = some v ∧
      ∀ x ∈ front ++ rest, v ≤ x := by
  induction rest generalizing front lowestIdx lowestValue with
  | nil =>
    refine ⟨lowestValue, hget, ?_⟩
    rwa [append_nil]
  | cons node rest ih =>
    have hlength : front.length + 1 = (front ++ [node]).length := by simp
    rw [lowestIndex]
    split_ifs with hlt
    · rw [append_cons, hlength]
      refine ih ?_ ?_
      · simp
      · exact forall_mem_append.mpr
          ⟨fun x hx => hlt.le.trans (hlowest x hx), forall_mem_singleton.mpr le_rfl⟩
    · rw [append_cons] at hget ⊢
      rw [hlength]
      exact ih hget (forall_mem_append.mpr ⟨hlowest, forall_mem_singleton.mpr (not_lt.mp hlt)⟩)

/-- A cycle is rotated to start with its lowest node. -/
theorem rotateCycle_spec (hl : l ≠ []) :
    ∃ a m, rotateCycle l = some (a :: m) ∧ l ~r a :: m ∧ ∀ x ∈ m, a ≤ x := by
  obtain ⟨first, rest, rfl⟩ := exists_cons_of_ne_nil hl
  obtain ⟨v, hget, hlowest⟩ := @lowestIndex_spec T _ [] (first :: rest) 0 first rfl (by simp)
  simp only [nil_append, length_nil] at hget hlowest
  generalize hi : lowestIndex 0 0 first (first :: rest) = i at hget
  have hlt : i < (first :: rest).length := by
    by_contra hge
    rw [getElem?_eq_none (Nat.le_of_not_lt hge)] at hget
    cases hget
  have hhead := head?_rotate hlt
  rw [hget] at hhead
  obtain ⟨m, hm⟩ := head?_eq_some_iff.mp hhead
  refine ⟨v, m, ?_, ?_, ?_⟩
  · change some ((first :: rest).rotate (lowestIndex 0 0 first (first :: rest))) = _
    rw [hi, hm]
  · rw [← hm]
    exact List.IsRotated.forall _ i |>.symm
  · intro x hx
    have hmem : x ∈ (first :: rest).rotate i := by
      rw [hm]
      exact mem_cons_of_mem v hx
    exact hlowest x (mem_rotate.mp hmem)

/-- A graph has a cycle exactly when a node reaches itself. -/
theorem exists_isCycle_iff : (∃ c, graph.IsCycle c) ↔ ∃ n, TransGen graph.Edge n n := by
  constructor
  · rintro ⟨c, hcycle⟩
    obtain ⟨a, m, rfl, -, -⟩ := id hcycle
    exact ⟨a, hcycle.transGen mem_cons_self⟩
  · intro hloop
    obtain ⟨l, hl⟩ := exists_elementary_iff.mpr hloop
    obtain ⟨a, m, -, hrotated, hlowest⟩ := rotateCycle_spec hl.ne_nil
    exact ⟨a :: (m ++ [a]), a, m, rfl, hl.rotated hrotated, hlowest⟩

def Closes (l c : List T) : Prop :=
  ∃ a m, c = a :: (m ++ [a]) ∧ l ~r a :: m ∧ ∀ x ∈ m, a ≤ x

theorem Closes.unique {c' : List T} (hl : l.Nodup) (h : Closes l c) (h' : Closes l c') :
    c = c' := by
  obtain ⟨a, m, rfl, hrotated, hlowest⟩ := h
  obtain ⟨a', m', rfl, hrotated', hlowest'⟩ := h'
  have heq := eq_of_isRotated (hrotated.symm.trans hrotated') (hrotated.nodup_iff.mp hl) hlowest
    hlowest'
  cases heq
  rfl

end Rotate

section Search

/-- What is found from a node with a path to it: the path closes at the node, or it goes on. -/
inductive Found (E : T → T → Prop) : List T → T → List T → Prop
  | close {front rest : List T} {node : T} {c : List T} :
    Closes (node :: rest) c → Found E (front ++ node :: rest) node c
  | step {path : List T} {node target : T} {c : List T} : node ∉ path → E node target →
    Found E (path ++ [node]) target c → Found E path node c

variable {E : T → T → Prop}

/-- What is found is a cycle. -/
theorem Found.sound (h : Found E path currentNode c) (hpath : path.Nodup)
    (hchain : (path ++ [currentNode]).IsChain E) :
    ∃ a m, c = a :: (m ++ [a]) ∧ Elementary E (a :: m) ∧ ∀ x ∈ m, a ≤ x := by
  induction h with
  | @close front rest node c hcloses =>
    obtain ⟨a, m, rfl, hrotated, hlowest⟩ := hcloses
    refine ⟨a, m, rfl, ?_, hlowest⟩
    refine Elementary.rotated ?_ hrotated
    rw [append_assoc] at hchain
    exact elementary_cons.mpr ⟨(nodup_append.mp hpath).2.1, hchain.right_of_append⟩
  | @step path node target c hnot hedge _ ih =>
    refine ih ?_ ?_
    · rw [← concat_eq_append, nodup_concat]
      exact ⟨hnot, hpath⟩
    · rw [append_assoc]
      exact isChain_split.mpr ⟨hchain, isChain_cons_cons.mpr ⟨hedge, .singleton target⟩⟩

/-- A path without repeated nodes that goes on to one of its own nodes is followed. -/
theorem found_of_isChain {front rest ext : List T} {node target : T}
    (hchain : (node :: (ext ++ [target])).IsChain E) (hnodup : (path ++ node :: ext).Nodup)
    (hsplit : path ++ node :: ext = front ++ target :: rest) (hcloses : Closes (target :: rest) c) :
    Found E path node c := by
  induction ext generalizing path node with
  | nil =>
    have hnot : node ∉ path := fun hmem => disjoint_of_nodup_append hnodup hmem mem_cons_self
    refine .step hnot (isChain_cons_cons.mp hchain).1 ?_
    rw [hsplit]
    exact .close hcloses
  | cons next ext ih =>
    have hnot : node ∉ path := fun hmem => disjoint_of_nodup_append hnodup hmem mem_cons_self
    obtain ⟨hedge, hrest⟩ := isChain_cons_cons.mp hchain
    rw [append_cons] at hnodup hsplit
    exact .step hnot hedge (ih hrest hnodup hsplit)

/-- Every cycle that is reached from a node is found from it. -/
theorem found_of_elementary {root a : T} {m : List T} (hcycle : Elementary E (a :: m))
    (hlowest : ∀ x ∈ m, a ≤ x) (hreach : ReflTransGen E root a) :
    Found E [] root (a :: (m ++ [a])) := by
  obtain ⟨p, v, hhead, hchain, hnodup, hv, hout⟩ :=
    exists_simple_path (C := (· ∈ a :: m)) hreach mem_cons_self
  obtain ⟨rest, hrotated⟩ := exists_isRotated_cons hv
  obtain ⟨hnodup', hchain'⟩ := elementary_cons.mp (hcycle.rotated hrotated)
  have hcloses : Closes (v :: rest) (a :: (m ++ [a])) := ⟨a, m, rfl, hrotated.symm, hlowest⟩
  have hwhole : (p ++ v :: (rest ++ [v])).IsChain E := isChain_split.mpr ⟨hchain, hchain'⟩
  have hdistinct : (p ++ v :: rest).Nodup := by
    refine nodup_append.mpr ⟨(nodup_append.mp hnodup).1, hnodup', ?_⟩
    rintro x hx y hy rfl
    exact hout x hx (hrotated.mem_iff.mpr hy)
  cases p with
  | nil =>
    cases hhead
    have hsplit : [] ++ root :: rest = [] ++ root :: rest := rfl
    exact found_of_isChain hwhole hdistinct hsplit hcloses
  | cons first p =>
    cases hhead
    have hsplit : [] ++ root :: (p ++ v :: rest) = (root :: p) ++ v :: rest := rfl
    refine found_of_isChain ?_ hdistinct hsplit hcloses
    simpa using hwhole

end Search

section InsertCycles

variable {sccNodes : Finset T} {cycles : Finset (List T)}

def EdgeIn (graph : DirectedGraph T) (sccNodes : Finset T) (source target : T) : Prop :=
  graph.Edge source target ∧ target ∈ sccNodes

omit [LinearOrder T] in
/-- Cycles are collected from a list of targets. -/
theorem foldlM_insert {F : T → List T → Prop}
    {f : Finset (List T) → T → Option (Finset (List T))} {targets : List T}
    (hf : ∀ target ∈ targets, ∀ cycles, ∃ cycles', f cycles target = some cycles' ∧
      ∀ c, c ∈ cycles' ↔ c ∈ cycles ∨ F target c) (cycles : Finset (List T)) :
    ∃ cycles', targets.foldlM f cycles = some cycles' ∧
      ∀ c, c ∈ cycles' ↔ c ∈ cycles ∨ ∃ target ∈ targets, F target c := by
  induction targets generalizing cycles with
  | nil => exact ⟨cycles, rfl, by simp⟩
  | cons target targets ih =>
    obtain ⟨cycles₁, hrun, hmem⟩ := hf target mem_cons_self cycles
    obtain ⟨cycles₂, hrun', hmem'⟩ :=
      ih (fun t ht => hf t (mem_cons_of_mem target ht)) cycles₁
    refine ⟨cycles₂, ?_, ?_⟩
    · rw [foldlM_cons, hrun]
      exact hrun'
    · intro c
      rw [hmem', hmem]
      simp only [mem_cons, exists_eq_or_imp, or_assoc]

/-- From a node that is not on the path, what is found is found from one of its targets. -/
theorem found_iff_of_notMem {edge : T → T → Prop} (hnot : currentNode ∉ path) :
    Found edge path currentNode c ↔
      ∃ target, edge currentNode target ∧ Found edge (path ++ [currentNode]) target c := by
  constructor
  · intro hfound
    cases hfound with
    | close hcloses => exact absurd (mem_append_right _ mem_cons_self) hnot
    | @step _ _ target _ _ hedge hfound => exact ⟨target, hedge, hfound⟩
  · rintro ⟨target, hedge, hfound⟩
    exact .step hnot hedge hfound

/-- A node on the path closes the one cycle that is found there. -/
theorem insertCyclesFromScc_close (fuel : ℕ) (hpath : path.Nodup) (hmem : currentNode ∈ path)
    (cycles : Finset (List T)) :
    ∃ cycles', insertCyclesFromScc graph sccNodes (fuel + 1) currentNode path.toFinset path
        cycles = some cycles' ∧
      ∀ c, c ∈ cycles' ↔ c ∈ cycles ∨ Found (EdgeIn graph sccNodes) path currentNode c := by
  rw [insertCyclesFromScc, if_pos (mem_toFinset.mpr hmem)]
  obtain ⟨front, rest, hsplit, hfront⟩ :=
    eq_append_cons_of_mem hmem
  have hidx : path.findIdx? (· = currentNode) = some front.length := by
    rw [hsplit, findIdx?_append, findIdx?_eq_none_iff.mpr]
    · simp [findIdx?_cons]
    · intro x hx
      rw [decide_eq_false_iff_not]
      rintro rfl
      exact hfront hx
  obtain ⟨a, m, hrotate, hrotated, hlowest⟩ :=
    rotateCycle_spec (cons_ne_nil currentNode rest)
  have hdrop : path.drop front.length = currentNode :: rest := by
    rw [hsplit, drop_left]
  have hcloses : Closes (currentNode :: rest) (a :: (m ++ [a])) :=
    ⟨a, m, rfl, hrotated, hlowest⟩
  refine ⟨insert (a :: (m ++ [a])) cycles, ?_, ?_⟩
  · rw [hidx]
    change (rotateCycle (path.drop front.length) >>= fun cycle => _) = _
    rw [hdrop, hrotate]
    rfl
  · intro c
    rw [Finset.mem_insert, or_comm]
    refine or_congr_right ?_
    constructor
    · rintro rfl
      rw [hsplit]
      exact .close hcloses
    · intro hfound
      cases hfound with
      | @close front' rest' _ _ hcloses' =>
        obtain ⟨-, hdistinct, hapart⟩ := nodup_append.mp hpath
        have hnot : currentNode ∉ front' := fun hmem' =>
          hapart currentNode hmem' currentNode mem_cons_self rfl
        have hnot' := (nodup_cons.mp hdistinct).1
        obtain ⟨-, -, hrest⟩ := (append_cons_inj_of_notMem hnot hnot').mp hsplit
        rw [← hrest] at hcloses
        exact hcloses'.unique hdistinct hcloses
      | step hnot _ _ => exact absurd hmem hnot

/-- The search inserts what is found from its node. -/
theorem insertCyclesFromScc_spec (hgraph : ∀ x ∈ sccNodes, x ∈ graph) {fuel : ℕ}
    (hfuel : sccNodes.card + 1 ≤ fuel + path.length) (hpath : path.Nodup)
    (hin : ∀ x ∈ path, x ∈ sccNodes) (hcurrent : currentNode ∈ sccNodes)
    (cycles : Finset (List T)) :
    ∃ cycles', insertCyclesFromScc graph sccNodes fuel currentNode path.toFinset path cycles =
        some cycles' ∧
      ∀ c, c ∈ cycles' ↔ c ∈ cycles ∨ Found (EdgeIn graph sccNodes) path currentNode c := by
  induction fuel generalizing path currentNode cycles with
  | zero =>
    exfalso
    have hcard : path.toFinset.card ≤ sccNodes.card := by
      refine Finset.card_le_card ?_
      intro x hx
      exact hin x (mem_toFinset.mp hx)
    rw [toFinset_card_of_nodup hpath] at hcard
    omega
  | succ fuel ih =>
    by_cases hvisited : currentNode ∈ path
    · exact insertCyclesFromScc_close fuel hpath hvisited cycles
    · rw [insertCyclesFromScc, if_neg fun hmem => hvisited (mem_toFinset.mp hmem)]
      obtain ⟨targets, htargets⟩ := Option.isSome_iff_exists.mp
        (AList.lookup_isSome.mpr (hgraph currentNode hcurrent))
      have hpath' : (path ++ [currentNode]).Nodup := by
        rw [← concat_eq_append, nodup_concat]
        exact ⟨hvisited, hpath⟩
      have htarget : ∀ t, t ∈ (targets.filter (· ∈ sccNodes)).sort (· ≤ ·) ↔
          EdgeIn graph sccNodes currentNode t := by
        intro t
        rw [Finset.mem_sort, Finset.mem_filter, EdgeIn, DirectedGraph.Edge, htargets]
        rfl
      have hin' : ∀ x ∈ path ++ [currentNode], x ∈ sccNodes :=
        forall_mem_append.mpr ⟨hin, forall_mem_singleton.mpr hcurrent⟩
      have hvisited' : insert currentNode path.toFinset = (path ++ [currentNode]).toFinset := by
        ext x
        simp
      have hfuel' : sccNodes.card + 1 ≤ fuel + (path ++ [currentNode]).length := by
        rw [length_append, length_singleton]
        omega
      obtain ⟨cycles', hrun, hmem⟩ := @foldlM_insert T
        (Found (EdgeIn graph sccNodes) (path ++ [currentNode]))
        (fun cycles target => insertCyclesFromScc graph sccNodes fuel target
          (path ++ [currentNode]).toFinset (path ++ [currentNode]) cycles)
        ((targets.filter (· ∈ sccNodes)).sort (· ≤ ·)) (fun target ht =>
          ih hfuel' hpath' hin' ((htarget target).mp ht).2) cycles
      refine ⟨cycles', ?_, ?_⟩
      · rw [htargets]
        rw [hvisited']
        exact hrun
      · intro c
        rw [hmem, found_iff_of_notMem hvisited]
        exact or_congr_right (exists_congr fun target => and_congr_left' (htarget target))

/-- Searched from its root, a component gives the cycles inside it. -/
theorem insertCyclesFromScc_component (hgraph : ∀ x ∈ sccNodes, x ∈ graph) {root : T}
    (hscc : ∀ x, x ∈ sccNodes ↔
      ReflTransGen graph.Edge root x ∧ ReflTransGen graph.Edge x root)
    (cycles : Finset (List T)) :
    ∃ cycles', insertCyclesFromScc graph sccNodes (sccNodes.card + 1) root ∅ [] cycles =
        some cycles' ∧
      ∀ c, c ∈ cycles' ↔ c ∈ cycles ∨ graph.IsCycle c ∧ ∀ x ∈ c, x ∈ sccNodes := by
  have hroot : root ∈ sccNodes := (hscc root).mpr ⟨.refl, .refl⟩
  obtain ⟨cycles', hrun, hmem⟩ := @insertCyclesFromScc_spec T _ graph [] root sccNodes hgraph
    (sccNodes.card + 1) (by simp) nodup_nil (by simp) hroot cycles
  refine ⟨cycles', hrun, ?_⟩
  intro c
  rw [hmem]
  refine or_congr_right ?_
  constructor
  · intro hfound
    obtain ⟨a, m, rfl, hcycle, hlowest⟩ := hfound.sound nodup_nil (.singleton root)
    refine ⟨⟨a, m, rfl, ⟨hcycle.ne_nil, hcycle.nodup, hcycle.chain.imp fun _ _ hedge => hedge.1⟩,
      hlowest⟩, ?_⟩
    intro x hx
    -- the edge of the cycle into the node is inside the component
    obtain ⟨rest, hrotated⟩ := exists_isRotated_cons (mem_of_mem_close hx)
    obtain ⟨y, -, hedge⟩ := TransGen.tail'_iff.mp
      (transGen_of_isChain (elementary_cons.mp (hcycle.rotated hrotated)).2)
    exact hedge.2
  · rintro ⟨⟨a, m, rfl, hcycle, hlowest⟩, hin⟩
    obtain ⟨hnodup, hchain⟩ := elementary_cons.mp hcycle
    have ha := (hscc a).mp (hin a mem_cons_self)
    have hreach := reflTransGen_restrict (S := (· ∈ sccNodes))
      (fun x hx hx' => (hscc x).mpr ⟨hx, hx'⟩) ha.1 ha.2
    have hchain' := hchain.imp_of_mem_imp fun x y _ hy hedge => And.intro hedge (hin y hy)
    exact found_of_elementary (elementary_cons.mpr ⟨hnodup, hchain'⟩) hlowest hreach

end InsertCycles

end Smos.Graph
