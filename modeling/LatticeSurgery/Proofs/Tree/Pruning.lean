import LatticeSurgery.Proofs.Graph.Counting
import LatticeSurgery.Proofs.Tree.Reduction

/-!
# What a reduced tree looks like

Every round of pruning cuts off at least one node, so that as many rounds as there are nodes leave no
loose end (`looseEnds_reduce`): the ends of a reduced tree are nodes to keep. A spanning forest of a
connected graph has one edge less than nodes, and cutting off ends keeps this (`isTree_reduce`).
-/

namespace LatticeSurgery

open Ordered Relation

namespace Graph

variable {α β : Type} [Ordered α] {g : Graph α} {a : α}

theorem edgeCount_foldl_addEdge_le (s t : β → α) (w : β → Nat) (l : List β) (hg : g.WellFormed) :
    (l.foldl (fun g e => g.addEdge (s e) (t e) (w e)) g).edgeCount ≤ g.edgeCount + l.length := by
  induction l generalizing g with
  | nil => exact Nat.le_refl _
  | cons e es ih =>
    have hstep := edgeCount_addEdge_le hg (s e) (t e) (w e)
    have hrest := ih (hg.addEdge (s e) (t e) (w e))
    rw [List.foldl_cons, List.length_cons]
    omega

theorem edgeCount_foldl_addNode (f : β → α) (l : List β) (g : Graph α) :
    (l.foldl (fun g e => g.addNode (f e)) g).edgeCount = g.edgeCount := by
  induction l generalizing g with
  | nil => rfl
  | cons e es ih => rw [List.foldl_cons, ih, edgeCount_addNode]

/-- Cutting off some of the nodes leaves that many less. -/
theorem nodeCount_foldl_removeNode {l : List α} (hl : l.Nodup)
    (hnodes : ∀ a ∈ l, g.hasNode a = true) :
    (l.foldl removeNode g).nodeCount + l.length = g.nodeCount := by
  induction l generalizing g with
  | nil => rfl
  | cons a as ih =>
    obtain ⟨ha, has⟩ := List.nodup_cons.1 hl
    have hrest := ih (g := g.removeNode a) has fun b hb =>
      hasNode_removeNode.2 ⟨hnodes b (List.mem_cons_of_mem _ hb), fun h => ha (h ▸ hb)⟩
    have hstep := nodeCount_removeNode (hnodes a List.mem_cons_self)
    rw [List.foldl_cons, List.length_cons]
    omega

/-- A tree with some of its ends cut off is a tree, if a node is left. -/
theorem IsTree.foldl_removeNode {l : List α} (hg : g.IsTree) (hl : l.Nodup)
    (hends : ∀ b ∈ l, g.hasNode b = true ∧ g.degree b ≤ 1) (ha : g.hasNode a = true)
    (hleft : a ∉ l) : (l.foldl Graph.removeNode g).IsTree := by
  induction l generalizing g with
  | nil => exact hg
  | cons b bs ih =>
    obtain ⟨hb, hbs⟩ := List.nodup_cons.1 hl
    obtain ⟨hab, habs⟩ := not_or.1 (mt List.mem_cons.2 hleft)
    obtain ⟨hnode, hdegree⟩ := hends b List.mem_cons_self
    refine ih (hg.removeNode hnode hdegree ha (Ne.symm hab)) hbs (fun c hc => ?_)
      (hasNode_removeNode.2 ⟨ha, hab⟩) habs
    obtain ⟨hcnode, hcdegree⟩ := hends c (List.mem_cons_of_mem _ hc)
    exact ⟨hasNode_removeNode.2 ⟨hcnode, fun h => hb (h ▸ hc)⟩,
      (degree_removeNode_le hg.wellFormed b c).trans hcdegree⟩

end Graph

namespace Tree

open LatticeSurgery.Graph

variable {t : Tree} {n : Node} {keep : List Node}

theorem sound_of_isTree (ht : t.shape.IsTree) : t.Sound :=
  ⟨ht.wellFormed, ht.connected⟩

/-! ## Spanning forests -/

theorem nodeCount_spanning (ht : t.shape.WellFormed) :
    t.spanning.shape.nodeCount = t.shape.nodeCount := by
  rw [← length_nodes t.shape]
  refine nodeCount_eq (nodup_nodes _) fun n => ?_
  rw [Graph.mem_nodes]
  exact (contains_spanning ht).symm

theorem edgeCount_spanning_lt (ht : t.shape.WellFormed) (hn : t.contains n = true) :
    t.spanning.shape.edgeCount < t.spanning.shape.nodeCount := by
  classical
  rw [nodeCount_spanning ht, ← length_nodes, ← List.toFinset_card_of_nodup (nodup_nodes _)]
  have hends : ∀ e ∈ t.edges.map (fun e => (e.2, e.1)),
      e.2.1 ∈ t.shape.nodes.toFinset ∧ e.2.2 ∈ t.shape.nodes.toFinset := by
    intro e he
    obtain ⟨e', he', rfl⟩ := List.mem_map.1 he
    have hadj := ht.adj_of_mem_edgeList he'
    rw [List.mem_toFinset, List.mem_toFinset, Graph.mem_nodes, Graph.mem_nodes]
    exact ⟨ht.hasNode_left hadj, ht.hasNode_right hadj⟩
  have hforest : (spanningForest (fun ends : Node × Node => ends)
      (t.edges.map fun e => (e.2, e.1))).length < t.shape.nodes.toFinset.card :=
    length_spanningForest_lt ⟨n, List.mem_toFinset.2 (Graph.mem_nodes.2 hn)⟩ hends
  refine Nat.lt_of_le_of_lt ?_ hforest
  rw [shape_spanning]
  refine (edgeCount_foldl_addEdge_le _ _ _ _
    (wellFormed_empty.foldl_addNode (fun n => n) _)).trans ?_
  rw [edgeCount_foldl_addNode (fun n => n)]
  exact Nat.le_of_eq (Nat.zero_add _)

/-- A connected graph with less edges than nodes is a tree. -/
theorem Sound.isTree (ht : t.Sound) (hcount : t.shape.edgeCount < t.shape.nodeCount) :
    t.shape.IsTree :=
  ⟨ht.wellFormed, ht.connected, by have := ht.connected.nodeCount_le ht.wellFormed; omega⟩

theorem Sound.isTree_spanning (ht : t.Sound) (hn : t.contains n = true) :
    t.spanning.shape.IsTree :=
  ht.spanning.isTree (edgeCount_spanning_lt ht.wellFormed hn)

/-! ## Pruning -/

theorem nodup_looseEnds (t : Tree) (keep : List Node) : (t.looseEnds keep).Nodup :=
  (nodup_nodes t.shape).filter _

/-- As many rounds as there are nodes leave no loose end. -/
theorem looseEnds_prune (keep : List Node) {rounds : Nat} (hrounds : t.shape.nodeCount ≤ rounds) :
    (t.prune keep rounds).looseEnds keep = [] := by
  induction rounds generalizing t with
  | zero =>
    refine List.filter_eq_nil_iff.2 fun n hn => ?_
    have hnone : t.nodes = [] := by
      rw [← List.length_eq_zero_iff]
      exact (length_nodes t.shape).trans (Nat.le_zero.1 hrounds)
    rw [prune, hnone] at hn
    cases hn
  | succ rounds ih =>
    unfold Tree.prune
    split
    · assumption
    · next hends =>
      refine ih ?_
      rw [shape_foldl_removeNode]
      have hcount := nodeCount_foldl_removeNode (g := t.shape) (nodup_looseEnds t keep)
        fun n hn => (mem_looseEnds.1 hn).1
      have hsome : 0 < (t.looseEnds keep).length := List.length_pos_iff.2 hends
      omega

theorem isTree_prune (ht : t.shape.IsTree) (hn : t.contains n = true) (hkeep : n ∈ keep)
    (rounds : Nat) : (t.prune keep rounds).shape.IsTree := by
  induction rounds generalizing t with
  | zero => exact ht
  | succ rounds ih =>
    unfold Tree.prune
    split
    · exact ht
    · have hleft : n ∉ t.looseEnds keep := fun h => (mem_looseEnds.1 h).2.2 hkeep
      refine ih ?_ ?_
      · rw [shape_foldl_removeNode]
        exact ht.foldl_removeNode (nodup_looseEnds t keep)
          (fun m hm => ⟨(mem_looseEnds.1 hm).1, (mem_looseEnds.1 hm).2.1⟩) hn hleft
      · unfold contains
        rw [shape_foldl_removeNode, hasNode_foldl_removeNode]
        exact ⟨hn, hleft⟩

/-! ## Reducing -/

theorem looseEnds_reduce (t : Tree) (keep : List Node) : (t.reduce keep).looseEnds keep = [] :=
  looseEnds_prune keep (Nat.le_refl _)

/-- The ends of a reduced tree are nodes to keep. -/
theorem mem_keep_of_degree_reduce (hn : (t.reduce keep).contains n = true)
    (hdegree : (t.reduce keep).degree n ≤ 1) : n ∈ keep := by
  by_contra hkeep
  have hloose : n ∈ (t.reduce keep).looseEnds keep := mem_looseEnds.2 ⟨hn, hdegree, hkeep⟩
  rw [looseEnds_reduce] at hloose
  cases hloose

/-- Reducing a connected graph that contains a node to keep leaves a tree. -/
theorem Sound.isTree_reduce (ht : t.Sound) (hn : t.contains n = true) (hkeep : n ∈ keep) :
    (t.reduce keep).shape.IsTree := by
  unfold Tree.reduce
  dsimp only
  split
  · exact isTree_prune (ht.isTree_spanning hn) ((contains_spanning ht.wellFormed).2 hn) hkeep _
  · next hcount => exact isTree_prune (ht.isTree (by omega)) hn hkeep _

/-! ## Trim trees -/

/-- A tree whose ends are among the given nodes. -/
structure Trim (t : Tree) (ends : List Node) : Prop where
  isTree : t.shape.IsTree
  ends : ∀ n, t.contains n = true → t.degree n ≤ 1 → n ∈ ends

theorem Sound.trim_reduce (ht : t.Sound) (hn : t.contains n = true) (hkeep : n ∈ keep) :
    (t.reduce keep).Trim keep :=
  ⟨ht.isTree_reduce hn hkeep, fun _ => mem_keep_of_degree_reduce⟩

/-- From a trim tree nothing is cut off. -/
theorem Trim.reduce_eq (ht : t.Trim keep) : t.reduce keep = t := by
  have hcount : ¬ t.shape.nodeCount ≤ t.shape.edgeCount := by
    have := ht.isTree.count
    omega
  have hends : t.looseEnds keep = [] := by
    refine List.eq_nil_iff_forall_not_mem.2 fun n hn => ?_
    obtain ⟨hcontains, hdegree, hkeep⟩ := mem_looseEnds.1 hn
    exact hkeep (ht.ends n hcontains hdegree)
  have hprune : ∀ rounds, t.prune keep rounds = t := by
    intro rounds
    cases rounds with
    | zero => rfl
    | succ rounds =>
      unfold Tree.prune
      rw [hends]
  unfold Tree.reduce
  rw [if_neg hcount]
  exact hprune _

/-- The tree made of paths between all pairs of different terminals ends in terminals. -/
theorem trim_treeOfPaths {g : Graph Node} {terminals : List Node}
    {paths : List (Nat × (Nat × Nat) × List Node)} (hterminals : terminals.Nodup)
    (htwo : 2 ≤ terminals.length)
    (hpaths : ∀ p ∈ paths, g.IsPath (nodeAt terminals p.2.1.1) (nodeAt terminals p.2.1.2) p.2.2)
    (hpairs : ∀ j, 0 < j → j < terminals.length → ∃ p ∈ paths, p.2.1 = (0, j))
    (hplaces : ∀ p ∈ paths, p.2.1.1 < terminals.length ∧ p.2.1.2 < terminals.length) :
    (Board.treeOfPaths g terminals paths).Trim terminals := by
  obtain ⟨hsound, hcontains⟩ := joinedPaths_spec hterminals htwo hpaths hpairs hplaces
  obtain ⟨n, hn⟩ := List.exists_mem_of_length_pos (Nat.lt_of_lt_of_le Nat.zero_lt_two htwo)
  exact hsound.trim_reduce (hcontains n hn) hn

theorem trim_single (n : Node) : (single n).Trim [n] :=
  ⟨isTree_single n, fun _ hm _ => List.mem_singleton.2 (contains_single.1 hm)⟩

end Tree

end LatticeSurgery
