import LatticeSurgery.Proofs.Board.TwoTerminals
import LatticeSurgery.Proofs.Packing.Routing
import LatticeSurgery.Proofs.Tree.Weight

/-!
# Trees of least weight

Connecting two terminals finds a tree of the weight of a cheapest path between them
(`connect_pair`). With more terminals the result is found step by step, and in general nothing says
that it is cheapest; but a tree between whose terminals every detour is heavier is found again, since
each search for a path returns the path of the tree, and what is taken away after it is no edge of the
tree (`connect_of_onlyCheapest`).
-/

namespace LatticeSurgery

open Ordered LatticeSurgery.Graph

namespace Tree

variable {t f : Tree} {g : Graph Node} {a b n m : Node} {keep terminals : List Node}

/-- Between any two of the terminals, every simple path other than that of the tree is heavier. -/
def OnlyCheapest (t : Tree) (g : Graph Node) (terminals : List Node) : Prop :=
  ∀ a ∈ terminals, ∀ b ∈ terminals, a ≠ b → ∀ p, t.shape.IsPath a b p → p.Nodup →
    ∀ q, g.IsPath a b q → q.Nodup → q ≠ p → g.pathWeight p < g.pathWeight q

/-- No path between two of the terminals is lighter than the tree. -/
def Cheapest (t : Tree) (g : Graph Node) (terminals : List Node) : Prop :=
  ∀ a ∈ terminals, ∀ b ∈ terminals, a ≠ b →
    ∀ p, g.IsPath a b p → t.totalWeight ≤ g.pathWeight p

end Tree

namespace Board

variable {b : Board} {t : Tree} {g : Graph Node} {terminals : List Node} {n m next : Node}

/-! ## Several terminals -/

/-- Taking away the edges of a terminal other than the one that the tree uses keeps the tree. -/
theorem within_trim (ht : t.shape.Within b.graph)
    (hone : ∀ k, t.shape.Adj n k → k = next) :
    t.shape.Within (b.trim n next).2.graph := by
  unfold trim
  split
  · exact ht
  · refine ⟨fun k hk => ?_, fun k k' hkk' => ?_⟩
    · dsimp only
      rw [hasNode_foldl_removeEdge]
      exact ht.node k hk
    · dsimp only
      rw [adj_foldl_removeEdge]
      refine ⟨ht.edge k k' hkk', fun e he => ?_⟩
      have hne : e.1 ≠ next := of_decide_eq_true (List.mem_filter.1 he).2
      constructor
      · rintro ⟨rfl, rfl⟩
        exact hne (hone _ hkk')
      · rintro ⟨rfl, rfl⟩
        exact hne (hone _ hkk'.symm)

/-- The search for the paths between terminals has kept to a tree: the tree is still there, and the
paths that were found run in it. -/
structure Pairing.Follows (g : Graph Node) (t : Tree) (s : Pairing) : Prop where
  wellFormed : s.board.graph.WellFormed
  graded : s.board.graph.Graded
  within : s.board.graph.Within g
  tree : t.shape.Within s.board.graph
  cache : s.cache = none
  paths : ∀ p ∈ s.paths, p.2.2.IsChain t.shape.Adj

/-- The terminals are ends of the tree, so what is taken away at one of them after a step of the tree is
no edge of the tree. -/
theorem Pairing.Follows.trim {s : Pairing} (hs : s.Follows g t) (ht : Packer.Joins t terminals)
    (hn : n ∈ terminals) (hstep : t.shape.Adj n next) :
    ({ s with board := (s.board.trim n next).2 } : Pairing).Follows g t := by
  have htrim := trim_spec hs.wellFormed n next
  refine ⟨htrim.wellFormed, graded_trim hs.wellFormed hs.graded n next,
    htrim.within.trans hs.within, within_trim hs.tree fun k hk => ?_, hs.cache, hs.paths⟩
  exact ht.sound.wellFormed.eq_of_degree_le_one (ht.ends n hn) hk hstep

section Follow

variable (hg : g.Graded) (ht : Packer.Joins t terminals) (honly : t.OnlyCheapest g terminals)

include hg ht honly

/-- The path that is found between two terminals is that of the tree. -/
theorem Pairing.Follows.path {s : Pairing} (hs : s.Follows g t) (hn : n ∈ terminals)
    (hm : m ∈ terminals) (hne : n ≠ m) :
    ∃ d p, s.board.path? n m = some (d, p) ∧ t.shape.IsPath n m p := by
  have hnode : ∀ k ∈ terminals, s.board.graph.hasNode k = true := fun k hk =>
    hs.tree.node k (ht.contains k hk)
  obtain ⟨p, hp, hnodup⟩ := ht.sound.exists_simple_path (ht.contains n hn) (ht.contains m hm)
  have hpBoard := hp.mono hs.tree.edge
  obtain ⟨d, q, hq⟩ := exists_shortestPath? hs.wellFormed (hnode n hn) (hnode m hm) hpBoard.linked
  have hqPath := (shortestPath?_spec hq).1
  obtain ⟨hweight, hleast⟩ := shortestPath?_weight hs.wellFormed hq
  have hqp : q = p := by
    by_contra hne'
    have hless := honly n hn m hm hne p hp hnodup q (hqPath.mono hs.within.edge)
      (shortestPath?_nodup hq) hne'
    have hle := hleast p hpBoard
    have hqSame := hs.graded.pathWeight_congr hg hqPath.chain (hqPath.mono hs.within.edge).chain
    have hpSame := hs.graded.pathWeight_congr hg hpBoard.chain (hpBoard.mono hs.within.edge).chain
    omega
  exact ⟨d, q, hq, hqp ▸ hp⟩

/-- Every pair of terminals is connected by a path of the tree. -/
theorem Pairing.Follows.joinPairs {trimming : Bool}
    {pairs : List ((Node × Nat) × (Node × Nat))} {s : Pairing} (hs : s.Follows g t)
    (hpairs : ∀ q ∈ pairs, IsPair terminals q) :
    ∃ s', Board.joinPairs trimming pairs s = .ok (s', true) ∧ s'.Follows g t := by
  induction pairs generalizing s with
  | nil => exact ⟨s, rfl, hs⟩
  | cons q rest ih =>
    obtain ⟨⟨source, i⟩, ⟨target, j⟩⟩ := q
    obtain ⟨hsource, htarget, ⟨hi, hj⟩, hne⟩ := hpairs _ List.mem_cons_self
    have hrest : ∀ q ∈ rest, IsPair terminals q := fun q hq => hpairs q (List.mem_cons_of_mem _ hq)
    have hsourceMem : source ∈ terminals := by
      rw [show source = Tree.nodeAt terminals i from hsource]
      exact Tree.nodeAt_mem hi
    have htargetMem : target ∈ terminals := by
      rw [show target = Tree.nodeAt terminals j from htarget]
      exact Tree.nodeAt_mem hj
    obtain ⟨d, p, hpath, hp⟩ := hs.path hg ht honly hsourceMem htargetMem hne
    have hroute : s.board.routeBetween s.cache source target = (some (d, p), none) := by
      rw [hs.cache]
      exact congrArg (·, none) hpath
    have hpaths : ∀ e ∈ s.paths ++ [(d, (i, j), p)], e.2.2.IsChain t.shape.Adj :=
      List.forall_mem_append.2 ⟨hs.paths, List.forall_mem_singleton.2 hp.chain⟩
    unfold Board.joinPairs
    rw [hroute]
    dsimp only
    split
    · obtain ⟨⟨next, u, hnext⟩, ⟨last, v, hlast⟩⟩ := hp.exists_inner hne
      have hends : innerEnds p = .ok (next, last) := by
        unfold innerEnds
        rw [hlast, hnext]
      rw [hends]
      have hfirst : t.shape.Adj source next := by
        have hchain := hp.chain
        rw [hnext] at hchain
        exact (List.isChain_cons_cons.1 hchain).1
      have hfinal : t.shape.Adj target last := by
        have hchain := hp.reverse.chain
        rw [hlast] at hchain
        exact (List.isChain_cons_cons.1 hchain).1
      have hkept := (hs.trim ht hsourceMem hfirst).trim ht htargetMem hfinal
      exact ih ⟨hkept.wellFormed, hkept.graded, hkept.within, hkept.tree, rfl, hpaths⟩ hrest
    · exact ih ⟨hs.wellFormed, hs.graded, hs.within, hs.tree, rfl, hpaths⟩ hrest

end Follow

/-- A tree between whose terminals every detour is heavier is found by connecting these. -/
theorem connect_of_onlyCheapest (hb : b.graph.WellFormed) (hg : b.graph.Graded)
    (ht : Packer.Joins t terminals) (htGraded : t.shape.Graded) (hwithin : t.shape.Within b.graph)
    (hterminals : terminals.Nodup) (htwo : 2 ≤ terminals.length)
    (honly : t.OnlyCheapest b.graph terminals) {c : Connection}
    (h : b.connect terminals none = .ok c) :
    ∃ f, c.tree = some f ∧ f.nodeSet = t.nodeSet ∧ f.totalWeight = t.totalWeight := by
  have hne : terminals.length ≠ 1 := by omega
  have hempty : ∀ p : PathCache, none = some p → p.Sound := fun p hp => by cases hp
  obtain ⟨s, connected, hjoin, rfl⟩ := exists_of_connect hne h
  have hstart : Pairing.Follows b.graph t ⟨b, none, [], []⟩ :=
    ⟨hb, hg, Within.refl _, hwithin, rfl, by simp⟩
  obtain ⟨s', hjoin', hfollows⟩ : ∃ s', joinPairs (decide (2 < terminals.length))
      (placePairs terminals.zipIdx) ⟨b, none, [], []⟩ = .ok (s', true) ∧ s'.Follows b.graph t :=
    hstart.joinPairs hg ht honly fun q hq => isPair_of_mem_placePairs hterminals hq
  rw [hjoin, Except.ok.injEq, Prod.mk.injEq] at hjoin'
  obtain ⟨rfl, rfl⟩ := hjoin'
  have hconnects := (connect_ends none hb hterminals (by rintro rfl; simp at htwo) hempty).of_ok h
  obtain ⟨hsound, -, hcontains⟩ := hconnects.tree _ rfl
  obtain ⟨k, hk⟩ := List.exists_mem_of_length_pos (Nat.lt_of_lt_of_le Nat.zero_lt_two htwo)
  refine ⟨_, rfl, ht.trim.eq_of_within hsound ?_ hcontains (hcontains k hk) htGraded
    (graded_of_connect hb hg hterminals hne hempty h rfl)⟩
  exact Tree.treeOfPaths_within ht.sound.wellFormed hfollows.paths

/-! ## Two terminals -/

/-- Two linked nodes are connected by a tree of the weight of a cheapest path. -/
theorem connect_pair (hb : b.graph.WellFormed) (hne : n ≠ m) (hn : b.graph.hasNode n = true)
    (hm : b.graph.hasNode m = true) (hlinked : b.graph.Linked n m) {c : Connection}
    (h : b.connect [n, m] none = .ok c) :
    ∃ f, c.tree = some f ∧ (∃ p, b.graph.IsPath n m p ∧ b.graph.pathWeight p = f.totalWeight) ∧
      ∀ p, b.graph.IsPath n m p → f.totalWeight ≤ b.graph.pathWeight p := by
  obtain ⟨d, q, hq⟩ := exists_shortestPath? hb hn hm hlinked
  have hqPath := (shortestPath?_spec hq).1
  have hpath : b.path? n m = some (d, q) := hq
  obtain ⟨hweight, hleast⟩ := shortestPath?_weight hb hq
  have htotal := Tree.totalWeight_addPath_empty hqPath.chain (shortestPath?_nodup hq)
  rw [connect_two hne, hpath] at h
  cases h
  refine ⟨_, rfl, ⟨q, hqPath, htotal.symm⟩, fun p hp => ?_⟩
  rw [htotal, hweight]
  exact hleast p hp

end Board

end LatticeSurgery
