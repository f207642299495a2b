import LatticeSurgery.Board.Routing
import LatticeSurgery.Proofs.Graph.Edits

/-!
# Assembling trees

A tree is sound when its graph is well formed and connected. This module says which nodes and edges
a tree has after paths, edges and other trees were added to it or its nodes were renamed, and that
the result is sound where the parts hang together.
-/

namespace LatticeSurgery

open Ordered Relation

/-- The nodes of a chain of joined nodes are linked. -/
theorem Graph.linked_of_mem_chain {α : Type} [Ordered α] {g : Graph α} {p : List α}
    (hp : p.IsChain g.Adj) {a b : α} (ha : a ∈ p) (hb : b ∈ p) : g.Linked a b := by
  have hfirst : ∀ {x : α} {t : List α}, (x :: t).IsChain g.Adj →
      ∀ y ∈ x :: t, g.Linked x y := by
    intro x t
    induction t generalizing x with
    | nil =>
      intro _ y hy
      rw [List.mem_singleton.1 hy]
    | cons z t ih =>
      intro hp y hy
      obtain ⟨hxz, hrest⟩ := List.isChain_cons_cons.1 hp
      rcases List.mem_cons.1 hy with rfl | hy
      · exact ReflTransGen.refl
      · exact (ih hrest y hy).head hxz
  cases p with
  | nil => cases ha
  | cons x t => exact (Graph.Linked.symm (hfirst hp a ha)).trans (hfirst hp b hb)

namespace Tree

open LatticeSurgery.Graph

/-- A connected tree whose lists of neighbours and edges agree. -/
structure Sound (t : Tree) : Prop where
  wellFormed : t.shape.WellFormed
  connected : t.shape.Connected

variable {t u : Tree} {g h : Graph Node} {a b n m : Node} {p : List Node}

theorem mem_nodes : n ∈ t.nodes ↔ t.contains n = true := Graph.mem_nodes

theorem mem_nodeSet : n ∈ t.nodeSet ↔ t.contains n = true := by
  rw [nodeSet, SortedSet.mem_ofList, mem_nodes]

theorem sound_empty : (∅ : Tree).Sound := ⟨wellFormed_empty, connected_empty⟩

theorem not_contains_empty (n : Node) : (∅ : Tree).contains n = false := rfl

/-! ## Single nodes and edges -/

theorem contains_single : (single a).contains n = true ↔ n = a := by
  refine (hasNode_addNode ∅ a).trans ?_
  rw [not_hasNode_empty]
  simp

theorem not_adj_single : ¬ (single a).shape.Adj n m := fun hnm =>
  not_adj_empty n m ((adj_addNode ∅ a).1 hnm)

theorem sound_single (a : Node) : (single a).Sound := by
  refine ⟨wellFormed_empty.addNode a, connected_of_center a fun n hn => ?_⟩
  rw [show n = a from contains_single.1 hn]

theorem wellFormed_addEdge (ht : t.shape.WellFormed) {w : Nat} :
    (t.addEdge a b w).shape.WellFormed :=
  ht.addEdge a b w

theorem contains_addEdge (ht : t.shape.WellFormed) {w : Nat} :
    (t.addEdge a b w).contains n = true ↔ n = a ∨ n = b ∨ t.contains n = true :=
  hasNode_addEdge ht

/-- An edge that starts at a node of a sound tree, or in an empty one, leaves it sound. -/
theorem Sound.addEdge (ht : t.Sound) (w : Nat)
    (ha : t.contains a = true ∨ t.contains b = true ∨ ∀ n, t.contains n = false) :
    (t.addEdge a b w).Sound := by
  refine ⟨ht.wellFormed.addEdge a b w, ?_⟩
  have hab : (t.addEdge a b w).shape.Adj a b := adj_addEdge.2 (Or.inl ⟨rfl, rfl⟩)
  have hmono : ∀ n m, t.shape.Adj n m → (t.addEdge a b w).shape.Adj n m :=
    fun n m hnm => adj_addEdge.2 (Or.inr (Or.inr hnm))
  refine connected_of_center a fun n hn => ?_
  rcases (contains_addEdge ht.wellFormed).1 hn with rfl | rfl | hn
  · exact ReflTransGen.refl
  · exact ReflTransGen.single hab
  · rcases ha with ha | hb | hempty
    · exact Linked.mono hmono (ht.connected a n ha hn)
    · exact (Linked.mono hmono (ht.connected b n hb hn)).head hab
    · rw [hempty n] at hn
      cases hn

/-! ## Paths -/

theorem addPath_cons_cons (g : Graph Node) (t : Tree) (a b : Node) (p : List Node) :
    addPath g t (a :: b :: p) =
      addPath g (t.addEdge a b ((g.weight? a b).getD busWeight)) (b :: p) := rfl

theorem wellFormed_addPath (ht : t.shape.WellFormed) : (addPath g t p).shape.WellFormed := by
  induction p generalizing t with
  | nil => exact ht
  | cons a p ih =>
    cases p with
    | nil => exact ht
    | cons b p => exact ih (ht.addEdge a b _)

theorem contains_addPath (ht : t.shape.WellFormed) :
    (addPath g t (a :: b :: p)).contains n = true ↔ t.contains n = true ∨ n ∈ a :: b :: p := by
  induction p generalizing t a b with
  | nil =>
    rw [addPath_cons_cons]
    refine (contains_addEdge ht).trans ?_
    simp only [List.mem_cons, List.not_mem_nil, or_false]
    tauto
  | cons c p ih =>
    rw [addPath_cons_cons, ih (wellFormed_addEdge ht), contains_addEdge ht]
    simp only [List.mem_cons]
    tauto

/-- A node of a tree to which a path was added is a node of the tree or of the path. -/
theorem contains_or_mem_of_addPath (ht : t.shape.WellFormed)
    (hn : (addPath g t p).contains n = true) : t.contains n = true ∨ n ∈ p := by
  match p with
  | [] => exact Or.inl hn
  | [_] => exact Or.inl hn
  | _ :: _ :: _ => exact (contains_addPath ht).1 hn

theorem contains_addPath_of_contains (ht : t.shape.WellFormed) (hn : t.contains n = true) :
    (addPath g t p).contains n = true := by
  match p with
  | [] => exact hn
  | [_] => exact hn
  | _ :: _ :: _ => exact (contains_addPath ht).2 (Or.inl hn)

/-- A path that is added keeps the edges that are there. -/
theorem adj_addPath_of_adj (hnm : t.shape.Adj n m) : (addPath g t p).shape.Adj n m := by
  induction p generalizing t with
  | nil => exact hnm
  | cons a p ih =>
    cases p with
    | nil => exact hnm
    | cons b p => exact ih (adj_addEdge.2 (Or.inr (Or.inr hnm)))

/-- The steps of a path that is added are edges. -/
theorem isChain_addPath : p.IsChain (addPath g t p).shape.Adj := by
  induction p generalizing t with
  | nil => exact List.isChain_nil
  | cons a p ih =>
    cases p with
    | nil => exact List.isChain_singleton a
    | cons b p =>
      rw [addPath_cons_cons, List.isChain_cons_cons]
      exact ⟨adj_addPath_of_adj (adj_addEdge.2 (Or.inl ⟨rfl, rfl⟩)), ih⟩

theorem addPath_within (ht : t.shape.WellFormed) (hh : h.WellFormed) (hth : t.shape.Within h)
    (hp : p.IsChain h.Adj) : (addPath g t p).shape.Within h := by
  induction p generalizing t with
  | nil => exact hth
  | cons a p ih =>
    cases p with
    | nil => exact hth
    | cons b p =>
      obtain ⟨hab, hrest⟩ := List.isChain_cons_cons.1 hp
      exact ih (ht.addEdge a b _) (hth.addEdge ht hh hab _) hrest

/-- A path that is added to nothing is a sound tree. -/
theorem sound_addPath_empty : (addPath g ∅ p).Sound := by
  refine ⟨wellFormed_addPath wellFormed_empty, ?_⟩
  match p with
  | [] => exact connected_empty
  | [_] => exact connected_empty
  | a :: b :: p =>
    intro n m hn hm
    rcases (contains_addPath sound_empty.wellFormed).1 hn with hn | hn
    · rw [not_contains_empty] at hn
      cases hn
    · rcases (contains_addPath sound_empty.wellFormed).1 hm with hm | hm
      · rw [not_contains_empty] at hm
        cases hm
      · exact linked_of_mem_chain isChain_addPath hn hm

/-! ## Other trees -/

theorem shape_foldl_addNode {β : Type} (f : β → Node) (l : List β) :
    (l.foldl (fun t e => t.addNode (f e)) t).shape =
      l.foldl (fun g e => g.addNode (f e)) t.shape := by
  induction l generalizing t with
  | nil => rfl
  | cons e es ih => exact ih

theorem shape_foldl_addEdge {β : Type} (s r : β → Node) (w : β → Nat) (l : List β) :
    (l.foldl (fun t e => t.addEdge (s e) (r e) (w e)) t).shape =
      l.foldl (fun g e => g.addEdge (s e) (r e) (w e)) t.shape := by
  induction l generalizing t with
  | nil => rfl
  | cons e es ih => exact ih

theorem shape_foldl_removeNode (l : List Node) :
    (l.foldl removeNode t).shape = l.foldl Graph.removeNode t.shape := by
  induction l generalizing t with
  | nil => rfl
  | cons e es ih => exact ih

theorem shape_merge (t u : Tree) : (t.merge u).shape =
    u.edges.foldl (fun g e => g.addEdge e.1.1 e.1.2 e.2)
      (u.nodes.foldl (fun g n => g.addNode n) t.shape) := by
  rw [merge, shape_foldl_addEdge (fun e : (Node × Node) × Nat => e.1.1) (fun e => e.1.2)]
  exact congrArg (List.foldl _ · _) (shape_foldl_addNode (fun n => n) u.nodes)

theorem wellFormed_merge (ht : t.shape.WellFormed) : (t.merge u).shape.WellFormed := by
  rw [shape_merge]
  exact (ht.foldl_addNode (fun n => n) _).foldl_addEdge _ _ _ _

theorem contains_merge (ht : t.shape.WellFormed) (hu : u.shape.WellFormed) :
    (t.merge u).contains n = true ↔ t.contains n = true ∨ u.contains n = true := by
  unfold contains
  rw [shape_merge, hasNode_foldl_addEdge _ _ _ _ (ht.foldl_addNode (fun n => n) _),
    hasNode_foldl_addNode]
  constructor
  · rintro ((hn | ⟨m, hm, rfl⟩) | ⟨e, he, rfl | rfl⟩)
    · exact Or.inl hn
    · exact Or.inr (mem_nodes.1 hm)
    · exact Or.inr (hu.hasNode_left (hu.adj_of_mem_edgeList he))
    · exact Or.inr (hu.hasNode_right (hu.adj_of_mem_edgeList he))
  · rintro (hn | hn)
    · exact Or.inl (Or.inl hn)
    · exact Or.inl (Or.inr ⟨n, mem_nodes.2 hn, rfl⟩)

/-- Adding the edges of a well-formed graph adds what is joined in it. -/
theorem exists_edge_iff (hu : u.shape.WellFormed) :
    (∃ e ∈ u.edges, (a = e.1.1 ∧ b = e.1.2) ∨ (a = e.1.2 ∧ b = e.1.1)) ↔ u.shape.Adj a b := by
  constructor
  · rintro ⟨e, he, ⟨rfl, rfl⟩ | ⟨rfl, rfl⟩⟩
    · exact hu.adj_of_mem_edgeList he
    · exact (hu.adj_of_mem_edgeList he).symm
  · intro hab
    obtain ⟨e, he, ⟨rfl, rfl⟩ | ⟨rfl, rfl⟩⟩ := hu.exists_mem_edgeList hab
    · exact ⟨e, he, Or.inl ⟨rfl, rfl⟩⟩
    · exact ⟨e, he, Or.inr ⟨rfl, rfl⟩⟩

theorem adj_merge (hu : u.shape.WellFormed) :
    (t.merge u).shape.Adj a b ↔ t.shape.Adj a b ∨ u.shape.Adj a b := by
  rw [shape_merge, adj_foldl_addEdge, adj_foldl_addNode t.shape (fun n => n)]
  exact or_congr_right (exists_edge_iff hu)

/-! ## Renaming -/

section Relabel

variable {rename : SortedMap Node Node}

theorem shape_relabel (t : Tree) (rename : SortedMap Node Node) : (t.relabel rename).shape =
    t.edges.foldl (fun g e => g.addEdge (rename.getD e.1.1 e.1.1) (rename.getD e.1.2 e.1.2) e.2)
      (t.nodes.foldl (fun g n => g.addNode (rename.getD n n)) ∅) := by
  have hnodes := shape_foldl_addNode (t := ∅) (fun n => rename.getD n n) t.nodes
  refine (shape_foldl_addEdge (fun e : (Node × Node) × Nat => rename.getD e.1.1 e.1.1)
    (fun e => rename.getD e.1.2 e.1.2) (fun e => e.2) t.edges).trans ?_
  exact congrArg (List.foldl _ · _) hnodes

theorem wellFormed_relabel : (t.relabel rename).shape.WellFormed := by
  rw [shape_relabel]
  exact (wellFormed_empty.foldl_addNode (fun n => rename.getD n n) _).foldl_addEdge _ _ _ _

/-- The nodes of a renamed tree are the new names. -/
theorem contains_relabel (ht : t.shape.WellFormed) : (t.relabel rename).contains n = true ↔
    ∃ m, t.contains m = true ∧ n = rename.getD m m := by
  unfold contains
  rw [shape_relabel, hasNode_foldl_addEdge _ _ _ _
    (wellFormed_empty.foldl_addNode (fun n => rename.getD n n) _),
    hasNode_foldl_addNode _ fun n => rename.getD n n, not_hasNode_empty]
  constructor
  · rintro ((hn | ⟨m, hm, rfl⟩) | ⟨e, he, rfl | rfl⟩)
    · cases hn
    · exact ⟨m, mem_nodes.1 hm, rfl⟩
    · exact ⟨_, ht.hasNode_left (ht.adj_of_mem_edgeList he), rfl⟩
    · exact ⟨_, ht.hasNode_right (ht.adj_of_mem_edgeList he), rfl⟩
  · rintro ⟨m, hm, rfl⟩
    exact Or.inl (Or.inr ⟨m, mem_nodes.2 hm, rfl⟩)

theorem adj_relabel (ht : t.shape.WellFormed) (hab : t.shape.Adj a b) :
    (t.relabel rename).shape.Adj (rename.getD a a) (rename.getD b b) := by
  rw [shape_relabel, adj_foldl_addEdge]
  obtain ⟨e, he, ⟨rfl, rfl⟩ | ⟨rfl, rfl⟩⟩ := ht.exists_mem_edgeList hab
  · exact Or.inr ⟨e, he, Or.inl ⟨rfl, rfl⟩⟩
  · exact Or.inr ⟨e, he, Or.inr ⟨rfl, rfl⟩⟩

theorem Sound.relabel (ht : t.Sound) : (t.relabel rename).Sound := by
  refine ⟨wellFormed_relabel, fun n m hn hm => ?_⟩
  obtain ⟨n', hn', rfl⟩ := (contains_relabel ht.wellFormed).1 hn
  obtain ⟨m', hm', rfl⟩ := (contains_relabel ht.wellFormed).1 hm
  have hlink := ht.connected n' m' hn' hm'
  clear hn hm hm'
  induction hlink with
  | refl => exact ReflTransGen.refl
  | tail _ hstep ih => exact ih.tail (adj_relabel ht.wellFormed hstep)

end Relabel

end Tree

end LatticeSurgery
