import LatticeSurgery.Proofs.Board.Weights
import LatticeSurgery.Proofs.Tree.Subtrees

/-!
# The weight of a tree

On graded graphs the weight of a path and the total weight of a tree are sums over the edges taken
(`Graded.pathWeight_eq`, `totalWeight_eq`). So a simple path in a tree weighs no more than the tree.
-/

namespace LatticeSurgery

open Ordered LatticeSurgery.Graph Board

namespace Graph

variable {g h : Graph Node} {p : List Node}

/-- The sum of the weights of the steps along some edges. -/
def keyWeight (keys : List (Node × Node)) : Nat := (keys.map fun k => stepWeight k.1 k.2).sum

theorem keyWeight_eq (keys : List (Node × Node)) : keyWeight keys = keysWeight stepTable keys := rfl

/-- The weight of a path in a graded graph. -/
theorem Graded.pathWeight_eq (hg : g.Graded) (hp : p.IsChain g.Adj) :
    g.pathWeight p = keyWeight (pathKeys p) :=
  (graded_iff.1 hg).pathWeight_eq stepTable_comm hp

/-- A path has the same weight in all graded graphs in which it runs. -/
theorem Graded.pathWeight_congr (hg : g.Graded) (hh : h.Graded) (hgp : p.IsChain g.Adj)
    (hhp : p.IsChain h.Adj) : g.pathWeight p = h.pathWeight p :=
  (hg.pathWeight_eq hgp).trans (hh.pathWeight_eq hhp).symm

end Graph

namespace Tree

variable {t f : Tree} {n m : Node} {p : List Node}

/-- The total weight of a graded tree. -/
theorem totalWeight_eq (hwell : t.shape.WellFormed) (ht : t.shape.Graded) :
    t.totalWeight = keyWeight t.shape.edgeKeys :=
  totalWeight_eq_keysWeight hwell (graded_iff.1 ht)

/-- A simple path in a tree weighs no more than the tree. -/
theorem keyWeight_le_totalWeight (hwell : t.shape.WellFormed) (ht : t.shape.Graded)
    (hp : p.IsChain t.shape.Adj) (hnodup : p.Nodup) : keyWeight (pathKeys p) ≤ t.totalWeight := by
  rw [totalWeight_eq hwell ht, keyWeight_eq, keyWeight_eq]
  exact keysWeight_le _ (nodup_pathKeys hnodup) (hwell.pathKeys_subset hp)

/-- A sound part of a trim tree that contains its ends has the same nodes and the same weight. -/
theorem Trim.eq_of_within {terminals : List Node} (ht : t.Trim terminals) (hf : f.Sound)
    (hft : f.shape.Within t.shape) (hends : ∀ n ∈ terminals, f.contains n = true)
    (hm : f.contains m = true) (htGraded : t.shape.Graded) (hfGraded : f.shape.Graded) :
    f.nodeSet = t.nodeSet ∧ f.totalWeight = t.totalWeight := by
  refine ⟨SortedSet.ext_mem fun n => ?_, ?_⟩
  · rw [mem_nodeSet, mem_nodeSet]
    exact ⟨hft.node n, ht.contains_of_within hf hft hends hm⟩
  · rw [totalWeight_eq hf.wellFormed hfGraded, totalWeight_eq ht.isTree.wellFormed htGraded]
    exact ((ht.edgeKeys_perm hf hft hends hm).map _).sum_eq

/-- Two nodes of a sound tree are the ends of a path in it that meets no node twice. -/
theorem Sound.exists_simple_path (ht : t.Sound) (hn : t.contains n = true)
    (hm : t.contains m = true) : ∃ p, t.shape.IsPath n m p ∧ p.Nodup := by
  obtain ⟨d, p, hp⟩ := exists_shortestPath? ht.wellFormed hn hm (ht.connected n m hn hm)
  exact ⟨p, (shortestPath?_spec hp).1, shortestPath?_nodup hp⟩

end Tree

end LatticeSurgery
