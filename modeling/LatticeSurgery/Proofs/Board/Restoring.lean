import LatticeSurgery.Proofs.Board.Indexed
import LatticeSurgery.Proofs.Board.Weighing
import LatticeSurgery.Proofs.Cache.Filled
import LatticeSurgery.Proofs.Graph.Counting

/-!
# Searches restore the board

The search for a tree takes edges away while it runs, from one terminal after the other, and it may
stop at any pair of terminals. Afterwards the board has the same nodes, the same edges with their
weights and the same countdowns as before, listed in another order at most (`Board.Reordered`). So it is
whether a tree was found or not, and after the search for the closest zero state
(`Board.reordered_of_search`).
-/

namespace LatticeSurgery

open Ordered LatticeSurgery.Graph

namespace Board

/-- The same board, but for the order in which nodes, edges and neighbours are listed. -/
structure Reordered (b b' : Board) : Prop where
  nodes : b'.graph.nodes.Perm b.graph.nodes
  /-- The edges with their weights. -/
  edges : b'.graph.edgeList.Perm b.graph.edgeList
  neighbors : ∀ n, (b'.graph.neighbors n).Perm (b.graph.neighbors n)
  /-- The countdowns, the nodes under each status and the closed nodes. -/
  countdowns : b'.countdowns = b.countdowns
  tiles : b'.tiles = b.tiles
  anchor : b'.anchor = b.anchor

variable {b b' : Board} {terminals : List Node} {cache : Option PathCache} {c : Connection}
  {target : Node}

namespace Reordered

theorem refl (b : Board) : b.Reordered b := ⟨.rfl, .rfl, fun _ => .rfl, rfl, rfl, rfl⟩

theorem trans {b'' : Board} (h : b.Reordered b') (h' : b'.Reordered b'') : b.Reordered b'' where
  nodes := h'.nodes.trans h.nodes
  edges := h'.edges.trans h.edges
  neighbors n := (h'.neighbors n).trans (h.neighbors n)
  countdowns := h'.countdowns.trans h.countdowns
  tiles := h'.tiles.trans h.tiles
  anchor := h'.anchor.trans h.anchor

end Reordered

/-- Graphs with the same nodes and the same weights list the same edges. -/
theorem perm_edgeList {g g' : Graph Node} (hg : g.WellFormed) (hg' : g'.WellFormed)
    (hweight : ∀ n m, g'.weight? n m = g.weight? n m) : g'.edgeList.Perm g.edgeList := by
  have hnodup : ∀ g : Graph Node, g.edgeList.Nodup := fun g => List.Nodup.of_map _ g.edges.nodup
  refine (List.perm_ext_iff_of_nodup (hnodup g') (hnodup g)).2 fun e => ?_
  rw [hg'.mem_edgeList, hg.mem_edgeList, hweight]

/-- Boards with the same nodes, weights and countdowns. -/
theorem reordered_of_weight (hb : b.graph.WellFormed) (hb' : b'.graph.WellFormed)
    (hnode : ∀ n, b'.graph.hasNode n = b.graph.hasNode n)
    (hweight : ∀ n m, b'.graph.weight? n m = b.graph.weight? n m)
    (hcountdowns : b'.countdowns = b.countdowns) (htiles : b'.tiles = b.tiles)
    (hanchor : b'.anchor = b.anchor) : b.Reordered b' := by
  refine ⟨?_, perm_edgeList hb hb' hweight, fun n => ?_, hcountdowns, htiles, hanchor⟩
  · refine (List.perm_ext_iff_of_nodup (nodup_nodes _) (nodup_nodes _)).2 fun n => ?_
    rw [mem_nodes, mem_nodes, hnode]
  · refine (List.perm_ext_iff_of_nodup (hb'.nodup n) (hb.nodup n)).2 fun m => ?_
    rw [hb'.mem_neighbors, hb.mem_neighbors, adj_iff, adj_iff, hweight]

/-- What a search leaves behind once it has come to an end: the edges were weighed by the graph before
the search when they were taken away, and so they are when they are put back. -/
theorem reordered_of_connect (hb : b.graph.WellFormed) (h : b.connect terminals cache = .ok c) :
    c.board.graph.WellFormed ∧ b.Reordered c.board := by
  obtain ⟨hwell, hsame, g, hboard⟩ := same_of_connect hb h
  have hweighed := weighedBy_of_connect b.graph.weight?_comm hb (weighedBy_refl b.graph) h
  have hweight : ∀ n m, c.board.graph.weight? n m = b.graph.weight? n m := by
    intro n m
    by_cases hadj : b.graph.Adj n m
    · exact hweighed.weight? ((hsame.edge n m).1 hadj)
    · have hnone : ∀ {g : Graph Node}, ¬ g.Adj n m → g.weight? n m = none := fun h =>
        Option.not_isSome_iff_eq_none.1 h
      rw [hnone hadj, hnone fun h => hadj ((hsame.edge n m).2 h)]
  refine ⟨hwell, reordered_of_weight hb hwell (fun n => ?_) hweight ?_ ?_ ?_⟩
  · exact (hsame.node n).symm
  all_goals rw [hboard]

/-- Connecting different terminals comes to an end, also when there are none. -/
theorem exists_connect (cache : Option PathCache) (hb : b.graph.WellFormed)
    (hterminals : terminals.Nodup) (hcache : ∀ p, cache = some p → p.Sound) :
    ∃ c, b.connect terminals cache = .ok c := by
  by_cases hne : terminals = []
  · subst hne
    exact ⟨_, rfl⟩
  · obtain ⟨c, hc, -⟩ := (connect_ends cache hb hterminals hne hcache).exists_ok
    exact ⟨c, hc⟩

/-- The search for the closest zero state connects the nodes of one candidate after the other, each time
on the board that the search before left behind. -/
theorem reordered_closestZeroStateFrom (hb : b.graph.WellFormed)
    (htarget : target.kind ≠ .patch .zero) (candidates : List Nat) (best : Option (Nat × Tree)) :
    ∃ r, closestZeroStateFrom target candidates best b = .ok r ∧ b.Reordered r.2 := by
  induction candidates generalizing b best with
  | nil => exact ⟨(best, b), rfl, .refl b⟩
  | cons id ids ih =>
    obtain ⟨c, hc⟩ := exists_connect none hb (nodup_zeroTerminals htarget id) (by simp)
    obtain ⟨hwell, hreordered⟩ := reordered_of_connect hb hc
    unfold closestZeroStateFrom
    rw [zeroTerminals] at hc
    rw [hc]
    obtain ⟨r, hr, hlater⟩ := ih hwell _
    exact ⟨r, hr, hreordered.trans hlater⟩

/-- Searches leave the board as it was. Connecting different terminals, whether they are nodes or not
and whatever a filled cache knows, comes to an end and restores the board, with a tree or without one.
So does the search for the closest zero state among any candidates. -/
theorem reordered_of_search (hb : b.graph.WellFormed) :
    (∀ (terminals : List Node) (cache : Option PathCache), terminals.Nodup →
      (∀ p, cache = some p → p.Filled) →
        ∃ c, b.connect terminals cache = .ok c ∧ b.Reordered c.board) ∧
    ∀ (candidates : List Nat) (target : Node), target.kind ≠ .patch .zero →
      ∃ r, b.closestZeroState candidates target = .ok r ∧ b.Reordered r.2 := by
  refine ⟨fun terminals cache hterminals hcache => ?_, fun candidates target htarget => ?_⟩
  · obtain ⟨c, hc⟩ := exists_connect cache hb hterminals fun p hp => (hcache p hp).sound
    exact ⟨c, hc, (reordered_of_connect hb hc).2⟩
  · exact reordered_closestZeroStateFrom hb htarget candidates none

/-- Two rows of bus tiles, joined through a zero state, and a data patch at the left of each row. -/
def crossingLayout : Layout where
  bus := SortedSet.ofList [⟨1, 0⟩, ⟨2, 0⟩, ⟨1, 2⟩, ⟨2, 2⟩]
  data := SortedSet.ofList [⟨0, 0⟩, ⟨0, 2⟩]
  magic := ∅
  zero := SortedSet.ofList [⟨1, 1⟩, ⟨2, 1⟩]
  storage := ∅

/-- With the paths of an earlier search at hand, a search takes edges of the zero state away and then
stops at a terminal that is no node. It puts them back in another order. Then the zero state is found
from the patch below. -/
theorem crossingLayout_reordered : ∃ b c₁ p c r, ofLayout crossingLayout = .ok b ∧
    b.connect [.zero 0 .X, .qubit 0 .Z] (some ∅) = .ok c₁ ∧ c₁.cache = some p ∧
    b.connect [.zero 0 .Z, .qubit 1 .Z, .qubit 9 .Z] (some p) = .ok c ∧ c.tree = none ∧
    c.board ≠ b ∧ b.Reordered c.board ∧
    b.closestZeroState [3, 0] (.qubit 0 .Z) = .ok r ∧ r.1.isSome = true ∧ b.Reordered r.2 := by
  have hrun : (ofLayout crossingLayout).toOption.any (fun b =>
      (b.connect [.zero 0 .X, .qubit 0 .Z] (some ∅)).toOption.any (fun c₁ => c₁.cache.any fun p =>
        (b.connect [.zero 0 .Z, .qubit 1 .Z, .qubit 9 .Z] (some p)).toOption.any fun c =>
          c.tree.isNone && decide (c.board ≠ b)) &&
      (b.closestZeroState [3, 0] (.qubit 0 .Z)).toOption.any fun r => r.1.isSome) = true := by
    decide +kernel
  obtain ⟨b, hb, hrun⟩ := exists_of_any_toOption hrun
  obtain ⟨hfirst, hclosest⟩ := (Bool.and_eq_true _ _).mp hrun
  obtain ⟨c₁, hc₁, hfirst⟩ := exists_of_any_toOption hfirst
  obtain ⟨p, hp, hsecond⟩ := (Option.any_eq_true _ _).1 hfirst
  obtain ⟨c, hc, hsecond⟩ := exists_of_any_toOption hsecond
  obtain ⟨hnone, hother⟩ := (Bool.and_eq_true _ _).mp hsecond
  obtain ⟨r, hr, hfound⟩ := exists_of_any_toOption hclosest
  have hwell : b.graph.WellFormed := (ofLayout_spec hb).1.graph
  have hfilled : p.Filled := .connect .empty hc₁ hp
  obtain ⟨hconnect, hclosest⟩ := reordered_of_search hwell
  obtain ⟨c', hc', hboard⟩ := hconnect [.zero 0 .Z, .qubit 1 .Z, .qubit 9 .Z] (some p) (by decide)
    fun p' hp' => Option.some.inj hp' ▸ hfilled
  obtain ⟨r', hr', hboard'⟩ := hclosest [3, 0] (.qubit 0 .Z) (by decide)
  cases hc.symm.trans hc'
  cases hr.symm.trans hr'
  exact ⟨b, c₁, p, c, r, hb, hc₁, hp, hc, Option.isNone_iff_eq_none.1 hnone,
    of_decide_eq_true hother, hboard, hr, hfound, hboard'⟩

end Board

end LatticeSurgery
