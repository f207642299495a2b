import LatticeSurgery.Proofs.Graph.SpanningForest
import LatticeSurgery.Proofs.Tree.Assembly

/-!
# Reducing trees

A spanning forest links what the tree links, and cutting off ends keeps a tree connected, so
`Tree.reduce` returns a sound tree with the nodes to keep and without new nodes or edges. From this
follows what `Board.treeOfPaths` delivers: a sound tree with all terminals, made of the steps of the
paths.
-/

namespace LatticeSurgery

open Ordered Relation

namespace Tree

open LatticeSurgery.Graph

variable {t : Tree} {g : Graph Node} {a b n : Node} {keep : List Node}

/-! ## Spanning forests -/

theorem shape_spanning (t : Tree) : t.spanning.shape =
    (spanningForest (fun ends : Node × Node => ends) (t.edges.map fun e => (e.2, e.1))).foldl
      (fun g e => g.addEdge e.2.1 e.2.2 e.1) (t.nodes.foldl (fun g n => g.addNode n) ∅) := by
  refine (shape_foldl_addEdge (fun e : Nat × (Node × Node) => e.2.1) (fun e => e.2.2)
    (fun e => e.1) _).trans ?_
  exact congrArg (List.foldl _ · _) (shape_foldl_addNode (t := ∅) (fun n => n) t.nodes)

theorem wellFormed_spanning : t.spanning.shape.WellFormed := by
  rw [shape_spanning]
  exact (wellFormed_empty.foldl_addNode (fun n => n) _).foldl_addEdge _ _ _ _

theorem adj_spanning (ht : t.shape.WellFormed) (hab : t.spanning.shape.Adj a b) :
    t.shape.Adj a b := by
  rw [shape_spanning, adj_foldl_addEdge, adj_foldl_addNode ∅ (fun n => n)] at hab
  rcases hab with hab | ⟨e, he, hab⟩
  · exact absurd hab (not_adj_empty a b)
  · have hmem := mem_of_mem_spanningForest he
    obtain ⟨e', he', rfl⟩ := List.mem_map.1 hmem
    exact (exists_edge_iff ht).1 ⟨e', he', hab⟩

theorem contains_spanning (ht : t.shape.WellFormed) :
    t.spanning.contains n = true ↔ t.contains n = true := by
  constructor
  · intro hn
    unfold contains at hn
    rw [shape_spanning, hasNode_foldl_addEdge _ _ _ _ (wellFormed_empty.foldl_addNode (fun n => n) _),
      hasNode_foldl_addNode _ fun n => n, not_hasNode_empty] at hn
    rcases hn with (hn | ⟨m, hm, rfl⟩) | ⟨e, he, hn⟩
    · cases hn
    · exact mem_nodes.1 hm
    · obtain ⟨e', he', rfl⟩ := List.mem_map.1 (mem_of_mem_spanningForest he)
      have hadj := ht.adj_of_mem_edgeList he'
      rcases hn with rfl | rfl
      · exact ht.hasNode_left hadj
      · exact ht.hasNode_right hadj
  · intro hn
    unfold contains
    rw [shape_spanning, hasNode_foldl_addEdge _ _ _ _
      (wellFormed_empty.foldl_addNode (fun n => n) _), hasNode_foldl_addNode _ fun n => n]
    exact Or.inl (Or.inr ⟨n, mem_nodes.2 hn, rfl⟩)

theorem spanning_within (ht : t.shape.WellFormed) : t.spanning.shape.Within t.shape :=
  ⟨fun _ hn => (contains_spanning ht).1 hn, fun _ _ hab => adj_spanning ht hab⟩

/-- A spanning forest of a connected graph is connected. -/
theorem Sound.spanning (ht : t.Sound) : t.spanning.Sound := by
  refine ⟨wellFormed_spanning, fun n m hn hm => ?_⟩
  have hchosen : ∀ e ∈ spanningForest (fun ends : Node × Node => ends)
      (t.edges.map fun e => (e.2, e.1)), t.spanning.shape.Linked e.2.1 e.2.2 := by
    intro e he
    refine ReflTransGen.single ?_
    rw [shape_spanning, adj_foldl_addEdge]
    exact Or.inr ⟨e, he, Or.inl ⟨rfl, rfl⟩⟩
  have hedges := ends_of_spanningForest _ (equivalence_linked t.spanning.shape) hchosen
  have hstep : ∀ a b, t.shape.Adj a b → t.spanning.shape.Linked a b := by
    intro a b hab
    obtain ⟨e, he, hends⟩ := ht.wellFormed.exists_mem_edgeList hab
    have hlink : t.spanning.shape.Linked e.1.1 e.1.2 :=
      hedges (e.2, e.1) (List.mem_map.2 ⟨e, he, rfl⟩)
    rcases hends with ⟨rfl, rfl⟩ | ⟨rfl, rfl⟩
    · exact hlink
    · exact Linked.symm hlink
  have hlink := ht.connected n m ((contains_spanning ht.wellFormed).1 hn)
    ((contains_spanning ht.wellFormed).1 hm)
  clear hn hm
  induction hlink with
  | refl => exact ReflTransGen.refl
  | tail _ hnext ih => exact ih.trans (hstep _ _ hnext)

/-! ## Cutting off ends -/

theorem mem_looseEnds : n ∈ t.looseEnds keep ↔ t.contains n = true ∧ t.degree n ≤ 1 ∧ n ∉ keep := by
  rw [looseEnds, List.mem_filter, mem_nodes]
  simp

/-- Cutting off ends leaves a part of the tree. -/
theorem cutEnds_within (ht : t.shape.WellFormed) (keep : List Node) :
    ((t.looseEnds keep).foldl removeNode t).shape.Within t.shape := by
  rw [shape_foldl_removeNode]
  exact ⟨fun a ha => ((hasNode_foldl_removeNode _).1 ha).1,
    fun a b hab => ((adj_foldl_removeNode _ ht).1 hab).1⟩

theorem prune_within (ht : t.shape.WellFormed) (keep : List Node) (rounds : Nat) :
    (t.prune keep rounds).shape.Within t.shape := by
  induction rounds generalizing t with
  | zero => exact Within.refl _
  | succ rounds ih =>
    unfold Tree.prune
    split
    · exact Within.refl _
    · refine (ih ?_).trans (cutEnds_within ht keep)
      rw [shape_foldl_removeNode]
      exact ht.foldl_removeNode _

/-- What cutting off ends leaves: a sound part of the tree with all nodes to keep. -/
structure Keeps (t u : Tree) (keep : List Node) : Prop where
  sound : u.Sound
  within : u.shape.Within t.shape
  kept : ∀ n ∈ keep, t.contains n = true → u.contains n = true

theorem Sound.prune (ht : t.Sound) (keep : List Node) (rounds : Nat) :
    t.Keeps (t.prune keep rounds) keep := by
  induction rounds generalizing t with
  | zero => exact ⟨ht, Within.refl _, fun _ _ hn => hn⟩
  | succ rounds ih =>
    unfold Tree.prune
    split
    · exact ⟨ht, Within.refl _, fun _ _ hn => hn⟩
    · have hcut : (t.looseEnds keep |>.foldl removeNode t).Sound := by
        refine ⟨?_, ?_⟩
        · rw [shape_foldl_removeNode]
          exact ht.wellFormed.foldl_removeNode _
        · rw [shape_foldl_removeNode]
          exact ht.connected.foldl_removeNode ht.wellFormed
            fun n hn => (mem_looseEnds.1 hn).2.1
      obtain ⟨hsound, hwithin, hkept⟩ := ih hcut
      refine ⟨hsound, hwithin.trans (cutEnds_within ht.wellFormed keep),
        fun n hn hcontains => hkept n hn ?_⟩
      unfold contains
      rw [shape_foldl_removeNode, hasNode_foldl_removeNode]
      exact ⟨hcontains, fun hloose => (mem_looseEnds.1 hloose).2.2 hn⟩

theorem reduce_within (ht : t.shape.WellFormed) (keep : List Node) :
    (t.reduce keep).shape.Within t.shape := by
  unfold Tree.reduce
  dsimp only
  split
  · exact (prune_within wellFormed_spanning keep _).trans (spanning_within ht)
  · exact prune_within ht keep _

theorem Sound.reduce (ht : t.Sound) (keep : List Node) : t.Keeps (t.reduce keep) keep := by
  unfold Tree.reduce
  dsimp only
  split
  · obtain ⟨hsound, hwithin, hkept⟩ := ht.spanning.prune keep t.spanning.shape.nodeCount
    exact ⟨hsound, hwithin.trans (spanning_within ht.wellFormed),
      fun n hn hcontains => hkept n hn ((contains_spanning ht.wellFormed).2 hcontains)⟩
  · exact ht.prune keep _

/-! ## Trees made of paths -/

section FoldPaths

variable {β : Type} {path : β → List Node} {l : List β}

/-- The tree with the steps of several paths added. -/
theorem wellFormed_foldl_addPath (ht : t.shape.WellFormed) :
    (l.foldl (fun t e => addPath g t (path e)) t).shape.WellFormed := by
  induction l generalizing t with
  | nil => exact ht
  | cons e es ih => exact ih (wellFormed_addPath ht)

theorem adj_foldl_addPath_of_adj (hab : t.shape.Adj a b) :
    (l.foldl (fun t e => addPath g t (path e)) t).shape.Adj a b := by
  induction l generalizing t with
  | nil => exact hab
  | cons e es ih => exact ih (adj_addPath_of_adj hab)

theorem isChain_foldl_addPath (path : β → List Node) {e : β} (he : e ∈ l) :
    (path e).IsChain (l.foldl (fun t e => addPath g t (path e)) t).shape.Adj := by
  induction l generalizing t with
  | nil => cases he
  | cons e' es ih =>
    rw [List.foldl_cons]
    rcases List.mem_cons.1 he with rfl | he
    · exact isChain_addPath.imp fun _ _ hab => adj_foldl_addPath_of_adj hab
    · exact ih he

theorem foldl_addPath_within {h : Graph Node} (ht : t.shape.WellFormed) (hh : h.WellFormed)
    (hth : t.shape.Within h) (hl : ∀ e ∈ l, (path e).IsChain h.Adj) :
    (l.foldl (fun t e => addPath g t (path e)) t).shape.Within h := by
  induction l generalizing t with
  | nil => exact hth
  | cons e es ih =>
    exact ih (wellFormed_addPath ht)
      (addPath_within ht hh hth (hl e List.mem_cons_self))
      fun e' he' => hl e' (List.mem_cons_of_mem _ he')

/-- The nodes that paths add lie on one of them. -/
theorem exists_of_contains_foldl_addPath (ht : t.shape.WellFormed)
    (hn : (l.foldl (fun t e => addPath g t (path e)) t).contains n = true) :
    t.contains n = true ∨ ∃ e ∈ l, n ∈ path e := by
  induction l generalizing t with
  | nil => exact Or.inl hn
  | cons e es ih =>
    rcases ih (wellFormed_addPath ht) hn with hn | ⟨e', he', hn⟩
    · match hp : path e with
      | [] => rw [hp] at hn; exact Or.inl hn
      | [_] => rw [hp] at hn; exact Or.inl hn
      | _ :: _ :: _ =>
        rw [hp] at hn
        rcases (contains_addPath ht).1 hn with hn | hn
        · exact Or.inl hn
        · exact Or.inr ⟨e, List.mem_cons_self, hp ▸ hn⟩
    · exact Or.inr ⟨e', List.mem_cons_of_mem _ he', hn⟩

end FoldPaths

/-- The place of a terminal in a list, as a node. -/
def nodeAt (terminals : List Node) (i : Nat) : Node := terminals.getD i default

theorem nodeAt_of_lt {terminals : List Node} {i : Nat} (hi : i < terminals.length) :
    nodeAt terminals i = terminals[i] := by
  rw [nodeAt, List.getD_eq_getElem?_getD, List.getElem?_eq_getElem hi, Option.getD_some]

theorem nodeAt_mem {terminals : List Node} {i : Nat} (hi : i < terminals.length) :
    nodeAt terminals i ∈ terminals :=
  nodeAt_of_lt hi ▸ List.getElem_mem hi

/-- The chosen ones of some paths, one added after the other. -/
def joinedPaths (g : Graph Node) (paths : List (Nat × (Nat × Nat) × List Node)) : Tree :=
  (spanningForest (fun p : (Nat × Nat) × List Node => p.1) paths).foldl
    (fun t p => addPath g t p.2.2) ∅

/-- A tree made of paths lies in every graph in which these run. -/
theorem treeOfPaths_within {h : Graph Node} {terminals : List Node}
    {paths : List (Nat × (Nat × Nat) × List Node)} (hh : h.WellFormed)
    (hpaths : ∀ p ∈ paths, p.2.2.IsChain h.Adj) :
    (Board.treeOfPaths g terminals paths).shape.Within h := by
  refine (reduce_within (wellFormed_foldl_addPath sound_empty.wellFormed) terminals).trans ?_
  exact foldl_addPath_within sound_empty.wellFormed hh (within_empty h)
    fun p hp => hpaths p (mem_of_mem_spanningForest hp)

section TreeOfPaths

variable {terminals : List Node} {paths : List (Nat × (Nat × Nat) × List Node)}
  (hg : g.WellFormed) (hterminals : terminals.Nodup) (htwo : 2 ≤ terminals.length)
  (hpaths : ∀ p ∈ paths, g.IsPath (nodeAt terminals p.2.1.1) (nodeAt terminals p.2.1.2) p.2.2)
  (hpairs : ∀ j, 0 < j → j < terminals.length → ∃ p ∈ paths, p.2.1 = (0, j))
  (hplaces : ∀ p ∈ paths, p.2.1.1 < terminals.length ∧ p.2.1.2 < terminals.length)

include hterminals htwo hpaths hpairs hplaces

/-- Chosen paths between all pairs of different terminals hang together and meet every terminal. -/
theorem joinedPaths_spec : (joinedPaths g paths).Sound ∧
    ∀ n ∈ terminals, (joinedPaths g paths).contains n = true := by
  unfold joinedPaths
  set chosen := spanningForest (fun p : (Nat × Nat) × List Node => p.1) paths with hchosen
  set u : Tree := chosen.foldl (fun t p => addPath g t p.2.2) ∅ with hu
  have hmem : ∀ p ∈ chosen, p ∈ paths := fun p hp => mem_of_mem_spanningForest hp
  have hwell : u.shape.WellFormed := wellFormed_foldl_addPath sound_empty.wellFormed
  have hlinks : ∀ p ∈ chosen, ∀ n ∈ p.2.2, ∀ m ∈ p.2.2, u.shape.Linked n m := by
    intro p hp n hn m hm
    exact linked_of_mem_chain
      (isChain_foldl_addPath (fun p : Nat × (Nat × Nat) × List Node => p.2.2) hp) hn hm
  have hends : ∀ p ∈ paths, nodeAt terminals p.2.1.1 ∈ p.2.2 ∧ nodeAt terminals p.2.1.2 ∈ p.2.2 :=
    fun p hp => ⟨List.mem_of_mem_head? (hpaths p hp).head,
      List.mem_of_mem_getLast? (hpaths p hp).last⟩
  -- the chosen paths link all terminals, because the forest spans the places
  have hE : Equivalence fun i j => u.shape.Linked (nodeAt terminals i) (nodeAt terminals j) :=
    (equivalence_linked u.shape).comap (nodeAt terminals)
  have hspan := ends_of_spanningForest (fun p : (Nat × Nat) × List Node => p.1) hE
    fun p hp => hlinks p hp _ (hends p (hmem p hp)).1 _ (hends p (hmem p hp)).2
  have hfirst : ∀ j, j < terminals.length →
      u.shape.Linked (nodeAt terminals 0) (nodeAt terminals j) := by
    intro j hj
    rcases Nat.eq_zero_or_pos j with rfl | hpos
    · exact ReflTransGen.refl
    · obtain ⟨p, hp, hpj⟩ := hpairs j hpos hj
      have := hspan p hp
      rwa [hpj] at this
  have hconnected : u.Sound := by
    refine ⟨hwell, connected_of_center (nodeAt terminals 0) fun n hn => ?_⟩
    rcases exists_of_contains_foldl_addPath sound_empty.wellFormed hn with hn | ⟨p, hp, hn⟩
    · rw [not_contains_empty] at hn
      cases hn
    · have hplace := hplaces p (hmem p hp)
      exact (hfirst _ hplace.1).trans (hlinks p hp _ (hends p (hmem p hp)).1 n hn)
  have hcontains : ∀ n ∈ terminals, u.contains n = true := by
    have hother : ∀ i j, i < terminals.length → j < terminals.length → i ≠ j →
        u.shape.Linked (nodeAt terminals i) (nodeAt terminals j) →
          u.contains (nodeAt terminals i) = true := by
      intro i j hi hj hij hlink
      rcases ReflTransGen.cases_head hlink with heq | ⟨m, hm, -⟩
      · rw [nodeAt_of_lt hi, nodeAt_of_lt hj, hterminals.getElem_inj_iff] at heq
        exact absurd heq hij
      · exact hwell.hasNode_left hm
    intro n hn
    obtain ⟨i, hi, rfl⟩ := List.getElem_of_mem hn
    rw [← nodeAt_of_lt hi]
    rcases Nat.eq_zero_or_pos i with rfl | hpos
    · exact hother 0 1 hi (by omega) (by omega) (hfirst 1 (by omega))
    · exact hother i 0 hi (by omega) (by omega) (Linked.symm (hfirst i hi))
  exact ⟨hconnected, hcontains⟩

include hg in
/-- A tree made of paths between all pairs of different terminals is sound, contains the terminals,
and takes its edges from the graph. -/
theorem treeOfPaths_spec : (Board.treeOfPaths g terminals paths).Sound ∧
    (Board.treeOfPaths g terminals paths).shape.Within g ∧
      ∀ n ∈ terminals, (Board.treeOfPaths g terminals paths).contains n = true := by
  obtain ⟨hconnected, hcontains⟩ := joinedPaths_spec hterminals htwo hpaths hpairs hplaces
  obtain ⟨hsound, -, hkept⟩ := hconnected.reduce terminals
  exact ⟨hsound, treeOfPaths_within hg fun p hp => (hpaths p hp).chain,
    fun n hn => hkept n hn (hcontains n hn)⟩

end TreeOfPaths

end Tree

end LatticeSurgery
