import LatticeSurgery.Proofs.Graph.Edits
import Mathlib.Combinatorics.SimpleGraph.Acyclic

/-!
# Counting nodes and edges

Nodes and edges are listed once each, so how many there are follows from which ones there are. A
connected graph has at most one node more than it has edges (`Connected.nodeCount_le`); a tree is a
connected graph with exactly one node more, and stays one when an end is cut off.
-/

namespace LatticeSurgery

open Ordered Relation

namespace Graph

variable {α : Type} [Ordered α] {g h : Graph α} {a b c : α}

theorem nodup_nodes (g : Graph α) : g.nodes.Nodup := g.adjacency.nodup

theorem length_nodes (g : Graph α) : g.nodes.length = g.nodeCount := List.length_map _

/-- The ends of the edges, each edge once. -/
def edgeKeys (g : Graph α) : List (α × α) := g.edges.keys

theorem nodup_edgeKeys (g : Graph α) : g.edgeKeys.Nodup := g.edges.nodup

theorem length_edgeKeys (g : Graph α) : g.edgeKeys.length = g.edgeCount := List.length_map _

theorem WellFormed.mem_edgeKeys (hg : g.WellFormed) {p : α × α} :
    p ∈ g.edgeKeys ↔ edgeKey p.1 p.2 = p ∧ g.Adj p.1 p.2 := by
  constructor
  · intro hp
    obtain ⟨e, he, rfl⟩ := List.mem_map.1 hp
    exact ⟨(hg.mem_edgeList.1 he).1, hg.adj_of_mem_edgeList he⟩
  · rintro ⟨hkey, hadj⟩
    obtain ⟨w, hw⟩ := adj_iff.1 hadj
    exact List.mem_map.2 ⟨(p, w), hg.mem_edgeList.2 ⟨hkey, hw⟩, rfl⟩

/-- A list without repetitions of the nodes counts them. -/
theorem nodeCount_eq {l : List α} (hl : l.Nodup) (hmem : ∀ a, a ∈ l ↔ g.hasNode a = true) :
    g.nodeCount = l.length := by
  rw [← length_nodes]
  refine ((List.perm_ext_iff_of_nodup g.nodup_nodes hl).2 fun a => ?_).length_eq
  rw [mem_nodes, hmem]

theorem length_le_nodeCount {l : List α} (hl : l.Nodup) (hmem : ∀ a ∈ l, g.hasNode a = true) :
    l.length ≤ g.nodeCount := by
  rw [← length_nodes]
  exact hl.length_le_of_subset fun a ha => mem_nodes.2 (hmem a ha)

/-- A list without repetitions of the ends of the edges counts them. -/
theorem WellFormed.edgeCount_eq (hg : g.WellFormed) {l : List (α × α)} (hl : l.Nodup)
    (hmem : ∀ p, p ∈ l ↔ edgeKey p.1 p.2 = p ∧ g.Adj p.1 p.2) : g.edgeCount = l.length := by
  rw [← length_edgeKeys]
  refine ((List.perm_ext_iff_of_nodup g.nodup_edgeKeys hl).2 fun p => ?_).length_eq
  rw [hg.mem_edgeKeys, hmem]

/-! ## Adding -/

theorem nodeCount_addNode (ha : g.hasNode a = false) :
    (g.addNode a).nodeCount = g.nodeCount + 1 := by
  rw [← length_nodes g, ← List.length_cons (a := a)]
  refine nodeCount_eq (List.nodup_cons.2 ⟨?_, g.nodup_nodes⟩) fun b => ?_
  · rw [mem_nodes, ha]
    exact Bool.false_ne_true
  · rw [List.mem_cons, mem_nodes, hasNode_addNode]

theorem edgeCount_addNode (g : Graph α) (a : α) : (g.addNode a).edgeCount = g.edgeCount := by
  unfold addNode
  split <;> rfl

theorem edgeCount_addEdge (hg : g.WellFormed) (hab : ¬ g.Adj a b) (w : Nat) :
    (g.addEdge a b w).edgeCount = g.edgeCount + 1 := by
  rw [← length_edgeKeys g, ← List.length_cons (a := edgeKey a b)]
  refine (hg.addEdge a b w).edgeCount_eq (List.nodup_cons.2 ⟨?_, g.nodup_edgeKeys⟩) fun p => ?_
  · rintro hp
    obtain ⟨-, hadj⟩ := hg.mem_edgeKeys.1 hp
    rcases edgeKey_eq_iff.1 (edgeKey_edgeKey a b) with ⟨h₁, h₂⟩ | ⟨h₁, h₂⟩ <;> rw [h₁, h₂] at hadj
    · exact hab hadj
    · exact hab hadj.symm
  · rw [List.mem_cons, hg.mem_edgeKeys, adj_addEdge]
    constructor
    · rintro (rfl | ⟨hkey, hadj⟩)
      · refine ⟨edgeKey_edgeKey a b, ?_⟩
        rcases edgeKey_eq_iff.1 (edgeKey_edgeKey a b) with hends | hends
        · exact Or.inl hends
        · exact Or.inr (Or.inl hends)
      · exact ⟨hkey, Or.inr (Or.inr hadj)⟩
    · rintro ⟨hkey, hends | hends | hadj⟩
      · exact Or.inl (hkey.symm.trans (edgeKey_eq_iff.2 (Or.inl hends)))
      · exact Or.inl (hkey.symm.trans (edgeKey_eq_iff.2 (Or.inr hends)))
      · exact Or.inr ⟨hkey, hadj⟩

theorem edgeCount_addEdge_of_adj (hg : g.WellFormed) (hab : g.Adj a b) (w : Nat) :
    (g.addEdge a b w).edgeCount = g.edgeCount := by
  rw [← length_edgeKeys g]
  refine (hg.addEdge a b w).edgeCount_eq g.nodup_edgeKeys fun p => ?_
  rw [hg.mem_edgeKeys, adj_addEdge]
  refine and_congr_right fun _ => ⟨fun hp => Or.inr (Or.inr hp), ?_⟩
  rintro (⟨h₁, h₂⟩ | ⟨h₁, h₂⟩ | hp)
  · rwa [h₁, h₂]
  · rw [h₁, h₂]
    exact hab.symm
  · exact hp

theorem edgeCount_addEdge_le (hg : g.WellFormed) (a b : α) (w : Nat) :
    (g.addEdge a b w).edgeCount ≤ g.edgeCount + 1 := by
  by_cases hab : g.Adj a b
  · rw [edgeCount_addEdge_of_adj hg hab]
    exact Nat.le_succ _
  · rw [edgeCount_addEdge hg hab]

/-! ## Removing -/

theorem nodeCount_removeNode (ha : g.hasNode a = true) :
    (g.removeNode a).nodeCount + 1 = g.nodeCount := by
  rw [← length_nodes (g.removeNode a), ← List.length_cons (a := a)]
  refine (nodeCount_eq (List.nodup_cons.2 ⟨?_, nodup_nodes _⟩) fun b => ?_).symm
  · rw [mem_nodes, hasNode_removeNode]
    exact fun hmem => hmem.2 rfl
  · rw [List.mem_cons, mem_nodes, hasNode_removeNode]
    by_cases hb : b = a
    · simp [hb, ha]
    · simp [hb]

theorem edgeCount_removeNode (hg : g.WellFormed) (a : α) :
    (g.removeNode a).edgeCount + g.degree a = g.edgeCount := by
  have hr := hg.removeNode a
  rw [← length_edgeKeys (g.removeNode a), degree, ← List.length_map (edgeKey a),
    ← List.length_append]
  refine (hg.edgeCount_eq (List.nodup_append'.2 ⟨nodup_edgeKeys _, ?_, ?_⟩) fun p => ?_).symm
  · refine (hg.nodup a).map_on fun b _ c _ hbc => ?_
    rcases edgeKey_eq_iff.1 hbc with ⟨-, h⟩ | ⟨h₁, h₂⟩
    · exact h
    · rw [h₂, h₁]
  · -- an edge that stays does not end in the node
    intro p hp hcut
    obtain ⟨b, -, rfl⟩ := List.mem_map.1 hcut
    obtain ⟨-, h₁, h₂⟩ := (adj_removeNode hg).1 (hr.mem_edgeKeys.1 hp).2
    rcases edgeKey_eq_iff.1 (edgeKey_edgeKey a b) with ⟨h, -⟩ | ⟨-, h⟩
    · exact h₁ h
    · exact h₂ h
  · rw [List.mem_append, hr.mem_edgeKeys, adj_removeNode hg, List.mem_map]
    constructor
    · rintro (⟨hkey, hadj, -⟩ | ⟨b, hb, rfl⟩)
      · exact ⟨hkey, hadj⟩
      · refine ⟨edgeKey_edgeKey a b, ?_⟩
        have hab := (hg.mem_neighbors a b).1 hb
        rcases edgeKey_eq_iff.1 (edgeKey_edgeKey a b) with ⟨h₁, h₂⟩ | ⟨h₁, h₂⟩ <;> rw [h₁, h₂]
        · exact hab
        · exact hab.symm
    · rintro ⟨hkey, hadj⟩
      by_cases h₁ : p.1 = a
      · exact Or.inr ⟨p.2, (hg.mem_neighbors a p.2).2 (h₁ ▸ hadj), h₁ ▸ hkey⟩
      · by_cases h₂ : p.2 = a
        · refine Or.inr ⟨p.1, (hg.mem_neighbors a p.1).2 (h₂ ▸ hadj.symm), ?_⟩
          rw [edgeKey_comm, ← h₂]
          exact hkey
        · exact Or.inl ⟨hkey, hadj, h₁, h₂⟩

/-! ## Degrees -/

theorem degree_le_of_adj (hg : g.WellFormed) (hh : h.WellFormed)
    (hgh : ∀ b, g.Adj a b → h.Adj a b) : g.degree a ≤ h.degree a :=
  (hg.nodup a).length_le_of_subset fun b hb =>
    (hh.mem_neighbors a b).2 (hgh b ((hg.mem_neighbors a b).1 hb))

/-- A node has one neighbour at most when any two of its neighbours are the same. -/
theorem WellFormed.degree_le_one (hg : g.WellFormed)
    (hsame : ∀ b c, g.Adj a b → g.Adj a c → b = c) : g.degree a ≤ 1 := by
  unfold degree
  cases hl : g.neighbors a with
  | nil => exact Nat.zero_le 1
  | cons b bs =>
    have hb : g.Adj a b := (hg.mem_neighbors a b).1 (hl ▸ List.mem_cons_self)
    have hone : g.neighbors a ⊆ [b] := fun c hc =>
      List.mem_singleton.2 (hsame c b ((hg.mem_neighbors a c).1 hc) hb)
    rw [← hl]
    exact (hg.nodup a).length_le_of_subset hone

/-- The neighbours of a node with one neighbour at most are the same. -/
theorem WellFormed.eq_of_degree_le_one (hg : g.WellFormed) (ha : g.degree a ≤ 1)
    (hb : g.Adj a b) (hc : g.Adj a c) : b = c := by
  by_contra hne
  have hpair : [b, c].Nodup := List.nodup_cons.2 ⟨by simpa using hne, List.nodup_singleton c⟩
  have hsub : [b, c] ⊆ g.neighbors a := by
    intro d hd
    rcases List.mem_pair.1 hd with rfl | rfl
    · exact (hg.mem_neighbors a d).2 hb
    · exact (hg.mem_neighbors a d).2 hc
  have htwo : 2 ≤ g.degree a := hpair.length_le_of_subset hsub
  omega

/-! ## Connected graphs -/

/-- The nodes and the edges between different nodes. -/
def toSimpleGraph (g : Graph α) : SimpleGraph {a : α // g.hasNode a = true} where
  Adj a b := g.Adj a b ∧ a ≠ b
  symm := ⟨fun _ _ hab => ⟨hab.1.symm, hab.2.symm⟩⟩
  loopless := ⟨fun _ ha => ha.2 rfl⟩

theorem reachable_of_linked (hg : g.WellFormed) (hab : g.Linked a b) (ha : g.hasNode a = true)
    (hb : g.hasNode b = true) : g.toSimpleGraph.Reachable ⟨a, ha⟩ ⟨b, hb⟩ := by
  induction hab with
  | refl => exact SimpleGraph.Reachable.refl _
  | @tail b c _ hbc ih =>
    have hb := hg.hasNode_left hbc
    by_cases hne : b = c
    · subst hne
      exact ih hb
    · refine (ih hb).trans (SimpleGraph.Adj.reachable ⟨hbc, ?_⟩)
      exact fun h => hne (congrArg Subtype.val h)

theorem card_hasNode (g : Graph α) : Nat.card {a : α // g.hasNode a = true} = g.nodeCount := by
  classical
  rw [← length_nodes, ← List.toFinset_card_of_nodup g.nodup_nodes, ← Nat.card_eq_finsetCard]
  refine Nat.card_congr (Equiv.subtypeEquivRight fun a => ?_)
  rw [List.mem_toFinset, mem_nodes]

/-- The edges between different nodes are the keys of two nodes. -/
theorem card_edgeSet_le (hg : g.WellFormed) :
    Nat.card g.toSimpleGraph.edgeSet ≤ (g.edgeKeys.filter fun k => !same k.1 k.2).length := by
  classical
  rw [← List.toFinset_card_of_nodup (g.nodup_edgeKeys.filter _), ← Nat.card_eq_finsetCard]
  have hkey : ∀ e : g.toSimpleGraph.edgeSet, Sym2.lift
      ⟨fun a b : {a : α // g.hasNode a = true} => edgeKey a.1 b.1, fun a b => edgeKey_comm a.1 b.1⟩
      e.1 ∈ (g.edgeKeys.filter fun k => !same k.1 k.2).toFinset := by
    rintro ⟨⟨a, b⟩, hab⟩
    have hadj : g.Adj a.1 b.1 := hab.1
    have hne : a.1 ≠ b.1 := fun h => hab.2 (Subtype.ext h)
    rw [List.mem_toFinset, List.mem_filter, hg.mem_edgeKeys]
    show (edgeKey (edgeKey a.1 b.1).1 (edgeKey a.1 b.1).2 = edgeKey a.1 b.1 ∧
      g.Adj (edgeKey a.1 b.1).1 (edgeKey a.1 b.1).2) ∧
        (!same (edgeKey a.1 b.1).1 (edgeKey a.1 b.1).2) = true
    refine ⟨⟨edgeKey_edgeKey _ _, ?_⟩, ?_⟩ <;>
      rcases edgeKey_eq_iff.1 (edgeKey_edgeKey a.1 b.1) with ⟨h₁, h₂⟩ | ⟨h₁, h₂⟩ <;> rw [h₁, h₂]
    · exact hadj
    · exact hadj.symm
    · simpa using hne
    · simpa using hne.symm
  refine Nat.card_le_card_of_injective (fun e => ⟨_, hkey e⟩) ?_
  rintro ⟨⟨a, b⟩, hab⟩ ⟨⟨c, d⟩, hcd⟩ heq
  have hends : edgeKey a.1 b.1 = edgeKey c.1 d.1 := congrArg Subtype.val heq
  rw [Subtype.mk.injEq]
  refine Sym2.eq_iff.2 ?_
  rcases edgeKey_eq_iff.1 hends with ⟨h₁, h₂⟩ | ⟨h₁, h₂⟩
  · exact Or.inl ⟨Subtype.ext h₁, Subtype.ext h₂⟩
  · exact Or.inr ⟨Subtype.ext h₁, Subtype.ext h₂⟩

theorem Connected.connected_toSimpleGraph (hconn : g.Connected) (hg : g.WellFormed)
    (hpos : 0 < g.nodeCount) : g.toSimpleGraph.Connected := by
  rw [← length_nodes] at hpos
  obtain ⟨a, ha⟩ := List.exists_mem_of_length_pos hpos
  rw [SimpleGraph.connected_iff]
  exact ⟨fun a b => reachable_of_linked hg (hconn a b a.2 b.2) a.2 b.2, ⟨⟨a, mem_nodes.1 ha⟩⟩⟩

/-- A connected graph has at most one node more than it has edges between different nodes. -/
theorem Connected.nodeCount_le_proper (hconn : g.Connected) (hg : g.WellFormed) :
    g.nodeCount ≤ (g.edgeKeys.filter fun k => !same k.1 k.2).length + 1 := by
  rcases Nat.eq_zero_or_pos g.nodeCount with hzero | hpos
  · omega
  · have hcard := (hconn.connected_toSimpleGraph hg hpos).card_vert_le_card_edgeSet_add_one
    rw [card_hasNode] at hcard
    exact hcard.trans (Nat.add_le_add_right (card_edgeSet_le hg) 1)

/-- A connected graph has at most one node more than it has edges. -/
theorem Connected.nodeCount_le (hconn : g.Connected) (hg : g.WellFormed) :
    g.nodeCount ≤ g.edgeCount + 1 := by
  have hproper := hconn.nodeCount_le_proper hg
  have hfilter := List.length_filter_le (fun k => !same k.1 k.2) g.edgeKeys
  rw [length_edgeKeys] at hfilter
  omega

/-! ## Trees -/

/-- A connected graph with one node more than edges. -/
structure IsTree (g : Graph α) : Prop where
  wellFormed : g.WellFormed
  connected : g.Connected
  count : g.edgeCount + 1 = g.nodeCount

theorem isTree_single (a : α) : ((∅ : Graph α).addNode a).IsTree := by
  refine ⟨wellFormed_empty.addNode a, connected_of_center a fun b hb => ?_, ?_⟩
  · rcases (hasNode_addNode ∅ a).1 hb with rfl | hb
    · exact ReflTransGen.refl
    · rw [not_hasNode_empty] at hb
      cases hb
  · rw [nodeCount_addNode (not_hasNode_empty a), edgeCount_addNode]
    rfl

/-- A node of a connected graph with other nodes has a neighbour. -/
theorem Connected.degree_pos (hconn : g.Connected) (hg : g.WellFormed) (ha : g.hasNode a = true)
    (hb : g.hasNode b = true) (hne : a ≠ b) : 0 < g.degree a := by
  rcases ReflTransGen.cases_head (hconn a b ha hb) with h | ⟨c, hac, -⟩
  · exact absurd h hne
  · exact List.length_pos_of_mem ((hg.mem_neighbors a c).2 hac)

/-- A tree with an end cut off is a tree, if another node is left. -/
theorem IsTree.removeNode (hg : g.IsTree) (ha : g.hasNode a = true) (hdegree : g.degree a ≤ 1)
    (hb : g.hasNode b = true) (hne : a ≠ b) : (g.removeNode a).IsTree := by
  refine ⟨hg.wellFormed.removeNode a, hg.connected.removeNode hg.wellFormed hdegree, ?_⟩
  have hpos := hg.connected.degree_pos hg.wellFormed ha hb hne
  have hnodes := nodeCount_removeNode ha
  have hedges := edgeCount_removeNode hg.wellFormed a
  have hcount := hg.count
  omega

/-- No edge of a tree joins a node to itself. -/
theorem IsTree.not_adj_self (hg : g.IsTree) (a : α) : ¬ g.Adj a a := by
  intro ha
  have hproper := hg.connected.nodeCount_le_proper hg.wellFormed
  have hcount := hg.count
  have hloop : (edgeKey a a) ∈ g.edgeKeys :=
    hg.wellFormed.mem_edgeKeys.2 ⟨edgeKey_edgeKey a a, by
      rcases edgeKey_eq_iff.1 (edgeKey_edgeKey a a) with ⟨h₁, h₂⟩ | ⟨h₁, h₂⟩ <;> rwa [h₁, h₂]⟩
  have hless : (g.edgeKeys.filter fun k => !same k.1 k.2).length < g.edgeKeys.length := by
    refine List.length_filter_lt_length_iff_exists.2 ⟨_, hloop, ?_⟩
    rcases edgeKey_eq_iff.1 (edgeKey_edgeKey a a) with ⟨h₁, h₂⟩ | ⟨h₁, h₂⟩ <;> rw [h₁, h₂] <;> simp
  rw [length_edgeKeys] at hless
  omega

/-- A tree is one as a graph with undirected edges. -/
theorem IsTree.isTree_toSimpleGraph (hg : g.IsTree) : g.toSimpleGraph.IsTree := by
  have hcount := hg.count
  have hconnected := hg.connected.connected_toSimpleGraph hg.wellFormed (by omega)
  have : Finite {a : α // g.hasNode a = true} :=
    Nat.finite_of_card_ne_zero (by rw [card_hasNode]; omega)
  rw [SimpleGraph.isTree_iff_connected_and_card]
  refine ⟨hconnected, ?_⟩
  have hle := hconnected.card_vert_le_card_edgeSet_add_one
  have hge := (card_edgeSet_le hg.wellFormed).trans (List.length_filter_le _ _)
  rw [length_edgeKeys] at hge
  rw [card_hasNode] at hle ⊢
  omega

end Graph

end LatticeSurgery
