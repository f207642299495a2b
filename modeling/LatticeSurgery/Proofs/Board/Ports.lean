import LatticeSurgery.Proofs.Board.Facing
import LatticeSurgery.Proofs.Board.LayoutGraph

/-!
# Ports

A patch joins the graph of a layout through the boundaries that its kind exposes, and every edge at
such a boundary comes of a side of the patch that touches a bus tile. Magic states and storages touch
a single bus tile, so they are dead ends: no path runs through them. This holds of the graph of a
layout (`ported_ofLayout`) and is kept when nodes are removed, patches turn and time passes.
-/

namespace LatticeSurgery

open Ordered LatticeSurgery.Graph

/-! ## Boundaries of patches in the graph -/

/-- Which boundaries a graph has, and that magic states and storages are dead ends. -/
structure Graph.Ported (g : Graph Node) : Prop where
  /-- Every edge ends on the bus. -/
  onBus : g.OnBus
  /-- A patch has the boundaries that its kind exposes. -/
  exposed : ∀ k id basis, g.hasNode (.boundary k id basis) = true → basis ∈ k.exposed
  /-- A magic state or a storage has one neighbour at most. -/
  deadEnd : ∀ n m m', n.kind = .patch .magic ∨ n.kind = .patch .storage →
    g.Adj n m → g.Adj n m' → m = m'

namespace Board

variable {b : Board} {l : Layout}

theorem ported_ofLayout (h : ofLayout l = .ok b) : b.graph.Ported := by
  have hlaid := laid_ofLayout h
  unfold ofLayout at h
  obtain ⟨patches, hpatches, h⟩ := exists_of_bind_eq_ok h
  cases h
  refine ⟨hlaid.onBus, fun k id basis hn => ?_, fun n m m' hk hm hm' => ?_⟩
  · rcases hasNode_graphOf.1 hn with ⟨e, -, heq⟩ | ⟨p, -, basis', hexposed, heq⟩
    · cases heq
    · cases heq
      exact hexposed
  · cases n with
    | bus i => rcases hk with hk | hk <;> cases hk
    | boundary k id basis =>
      have hkind : k = .magic ∨ k = .storage := by
        rcases hk with hk | hk <;> cases hk
        · exact Or.inl rfl
        · exact Or.inr rfl
      exact (existsUnique_adj_graphOf hpatches hkind
        ((wellFormed_graphOf l patches).hasNode_left hm)).unique hm hm'

/-! ## What keeps the ports -/

theorem ported_removeNodes (hb : b.graph.WellFormed) (h : b.graph.Ported) (ns : List Node) :
    (b.removeNodes ns).graph.Ported := by
  have hadj : ∀ n m, (b.removeNodes ns).graph.Adj n m → b.graph.Adj n m := fun n m hnm =>
    ((adj_removeNodes hb).1 hnm).1
  exact ⟨fun n m hnm => h.onBus n m (hadj n m hnm),
    fun k id basis hn => h.exposed k id basis (hasNode_removeNodes.1 hn).1,
    fun n m m' hk hm hm' => h.deadEnd n m m' hk (hadj n m hm) (hadj n m' hm')⟩

theorem ported_turn (hb : b.graph.WellFormed) (h : b.graph.Ported) (id : Nat) :
    (b.turn id).graph.Ported := by
  by_cases hturn : b.CanTurn id
  · refine ⟨onBus_turn hb h.onBus id, fun k id' basis hn => ?_, fun n m m' hk hm hm' => ?_⟩
    · rw [hasNode_turn hb hturn] at hn
      exact h.exposed k id' basis hn
    · -- a neighbour of a magic state or a storage is a bus tile, which does not turn
      have hself : ∀ n : Node, n.kind ≠ .patch .qubit → turned id n = n := by
        intro n hn
        refine turned_of_ne ?_ ?_ <;> rintro rfl <;> exact hn rfl
      have hn : turned id n = n := hself n (by rcases hk with hk | hk <;> simp [hk])
      have hother : ∀ m, (b.turn id).graph.Adj n m → b.graph.Adj n m := by
        intro m hm
        rw [adj_turn hb h.onBus hturn, hn] at hm
        have hbus : (turned id m).isBus = true := by
          rcases h.onBus _ _ hm with hbus | hbus
          · rcases hk with hk | hk <;> simp [Node.isBus_iff.1 hbus] at hk
          · exact hbus
        rw [isBus_turned] at hbus
        rwa [hself m (by simp [Node.isBus_iff.1 hbus])] at hm
      exact h.deadEnd n m m' hk (hother m hm) (hother m' hm')
  · rwa [turn_of_not_canTurn hturn]

theorem ported_elapse (hb : b.Sound) (h : b.graph.Ported) (ticks : Nat) :
    (b.elapse ticks).graph.Ported :=
  graph_elapse_of_turn hb ticks h fun _ id hb h => ported_turn hb.graph h id

end Board

end LatticeSurgery
