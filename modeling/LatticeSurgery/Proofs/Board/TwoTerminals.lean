import LatticeSurgery.Proofs.Board.Weighing

/-!
# Connecting two terminals

A path that meets no node twice is a trim tree between its ends (`Tree.trim_addPath`), from which
nothing is cut off. So two terminals are connected by the path that the search between them finds, and
are not connected if it finds none (`connect_two`).
-/

namespace LatticeSurgery

open Ordered LatticeSurgery.Graph

namespace Tree

variable {g : Graph Node} {a n m : Node} {p : List Node}

/-- The edges of a path are those of the tree that it makes up. -/
theorem edgeKeys_addPath_empty (hnodup : p.Nodup) :
    (addPath g ∅ p).shape.edgeKeys.Perm (pathKeys p) := by
  have hwell : (addPath g ∅ p).shape.WellFormed := wellFormed_addPath wellFormed_empty
  refine (List.perm_ext_iff_of_nodup (nodup_edgeKeys _) (nodup_pathKeys hnodup)).2 fun k => ?_
  have hempty : ¬ (∅ : Tree).shape.Adj k.1 k.2 := not_adj_empty _ _
  rw [hwell.mem_edgeKeys, adj_addPath_iff, or_iff_right hempty, Steps]
  constructor
  · rintro ⟨hkey, hk⟩
    rwa [hkey] at hk
  · intro hk
    have hkey : edgeKey k.1 k.2 = k :=
      (hwell.mem_edgeKeys.1 (hwell.pathKeys_subset isChain_addPath hk)).1
    exact ⟨hkey, hkey.symm ▸ hk⟩

/-- A path that meets no node twice makes up a tree of its weight. -/
theorem totalWeight_addPath_empty (hp : p.IsChain g.Adj) (hnodup : p.Nodup) :
    (addPath g ∅ p).totalWeight = g.pathWeight p := by
  have hweights := weighedBy_refl g
  have htree : (addPath g ∅ p).shape.WeighedBy g.weight? :=
    weighedBy_addPath g.weight?_comm (weighedBy_empty _) hweights hp
  rw [totalWeight_eq_keysWeight (wellFormed_addPath sound_empty.wellFormed) htree,
    hweights.pathWeight_eq g.weight?_comm hp]
  exact ((edgeKeys_addPath_empty hnodup).map _).sum_eq

section SinglePath

variable (hp : g.IsPath n m p) (hne : n ≠ m)

include hp hne

/-- The nodes of a path that is added to nothing. -/
theorem contains_addPath_empty : (addPath g ∅ p).contains a = true ↔ a ∈ p := by
  obtain ⟨⟨k, r, rfl⟩, -⟩ := hp.exists_inner hne
  refine (contains_addPath sound_empty.wellFormed).trans ?_
  rw [not_contains_empty]
  simp

variable (hnodup : p.Nodup)

include hnodup

/-- A path that meets no node twice is a tree that ends in the ends of the path. -/
theorem trim_addPath : (addPath g ∅ p).Trim [n, m] := by
  have hsound : (addPath g ∅ p).Sound := sound_addPath_empty
  have hnodes : (addPath g ∅ p).shape.nodeCount = p.length :=
    nodeCount_eq hnodup fun a => (contains_addPath_empty hp hne).symm
  have hedges : (addPath g ∅ p).shape.edgeCount = (pathKeys p).length := by
    rw [← length_edgeKeys, (edgeKeys_addPath_empty hnodup).length_eq]
  obtain ⟨k, r, rfl⟩ := List.exists_cons_of_ne_nil hp.ne_nil
  refine ⟨hsound.isTree ?_, fun a ha hdegree => ?_⟩
  · rw [hnodes, hedges, length_pathKeys]
    exact Nat.lt_succ_self _
  · by_contra hinner
    simp only [List.mem_cons, List.not_mem_nil, or_false, not_or] at hinner
    have hpath : (addPath g ∅ (k :: r)).shape.IsPath n m (k :: r) := ⟨hp.head, hp.last, isChain_addPath⟩
    have htwo := hpath.two_le_degree hsound.wellFormed hnodup
      ((contains_addPath_empty hp hne).1 ha) hinner.1 hinner.2
    exact absurd (htwo.trans hdegree) (by decide)

/-- The tree made of a single path is the path. -/
theorem treeOfPaths_single (d : Nat) :
    Board.treeOfPaths g [n, m] [(d, (0, 1), p)] = addPath g ∅ p := by
  unfold Board.treeOfPaths
  rw [spanningForest_singleton _ Nat.zero_ne_one]
  exact (trim_addPath hp hne hnodup).reduce_eq

end SinglePath

end Tree

namespace Board

variable {b : Board} {n m : Node}

/-- Two terminals are connected by a cheapest path, if there is one. -/
theorem connect_two (hne : n ≠ m) : b.connect [n, m] none =
    .ok ⟨(b.path? n m).map fun r => Tree.addPath b.graph ∅ r.2, b, none⟩ := by
  have hpairs : placePairs [n, m].zipIdx = [((n, 0), (m, 1))] := rfl
  unfold connect
  rw [hpairs]
  unfold joinPairs routeBetween
  cases hpath : b.path? n m with
  | none => rfl
  | some r =>
    obtain ⟨d, p⟩ := r
    have htree : treeOfPaths b.graph [n, m] [(d, (0, 1), p)] = Tree.addPath b.graph ∅ p :=
      Tree.treeOfPaths_single (shortestPath?_spec hpath).1 hne (shortestPath?_nodup hpath) d
    exact congrArg (fun t => Except.ok (Connection.mk (some t) b none)) htree

end Board

end LatticeSurgery
