import LatticeSurgery.Proofs.Board.OfLayout
import LatticeSurgery.Proofs.Board.Weighing
import LatticeSurgery.Proofs.Cache.Hits

/-!
# The weights of steps

On a board of a layout, the weight of an edge follows from its ends: a step between bus tiles is
light, and a step into a patch is heavy (`Board.stepWeight`). A graph with these weights is graded;
every operation on boards keeps it so (`Board.Stage.graded`), and so are the trees that connect
terminals (`Board.graded_of_connect`). On graded graphs, paths and trees have weights that do not
depend on the graph.
-/

namespace LatticeSurgery

open Ordered LatticeSurgery.Graph

namespace Board

/-- The weight of a step between two nodes. -/
def stepWeight (n m : Node) : Nat := if n.isBus && m.isBus then busWeight else patchWeight

theorem stepWeight_comm (n m : Node) : stepWeight n m = stepWeight m n := by
  unfold stepWeight
  rw [Bool.and_comm]

theorem stepWeight_boundary (kind : PatchKind) (id : Nat) (basis : Basis) (m : Node) :
    stepWeight (.boundary kind id basis) m = patchWeight := rfl

theorem stepWeight_bus (i j : Nat) : stepWeight (.bus i) (.bus j) = busWeight := rfl

end Board

open Board

namespace Graph

variable {g : Graph Node} {n m : Node}

/-- Every edge has the weight of its step. -/
def Graded (g : Graph Node) : Prop := ∀ n m w, g.weight? n m = some w → w = stepWeight n m

/-- The weights of the steps between any two nodes. -/
def stepTable (n m : Node) : Option Nat := some (stepWeight n m)

theorem stepTable_comm (n m : Node) : stepTable n m = stepTable m n :=
  congrArg some (stepWeight_comm n m)

theorem graded_iff : g.Graded ↔ g.WeighedBy stepTable :=
  forall_congr' fun _ => forall_congr' fun _ => forall_congr' fun _ => forall_congr' fun _ =>
    eq_comm.trans Option.some_inj.symm

theorem Graded.weight? (hg : g.Graded) (hnm : g.Adj n m) : g.weight? n m = some (stepWeight n m) :=
  (graded_iff.1 hg).weight? hnm

end Graph

/-! ## Boards of a layout -/

namespace Board

variable {b b' : Board} {l : Layout} {numbers : SortedMap Tile Nat} {g : Graph Node}

theorem weighedBy_addBusTile (hg : g.WeighedBy stepTable) (t : Tile) (i : Nat) :
    (addBusTile numbers g t i).WeighedBy stepTable := by
  refine List.foldlRecOn (motive := fun g : Graph Node => g.WeighedBy stepTable) _ _ (hg.addNode _)
    fun g hg u _ => ?_
  split
  · exact hg.addEdge stepTable_comm (congrArg some (stepWeight_bus _ _))
  · exact hg

theorem weighedBy_addPatch (hg : g.WeighedBy stepTable) (p : Patch) :
    (addPatch numbers g p).WeighedBy stepTable := by
  refine List.foldlRecOn (motive := fun g : Graph Node => g.WeighedBy stepTable) _ _
    (hg.foldl_addNode _ _) fun g hg s _ => ?_
  split
  · split
    · exact hg.addEdge stepTable_comm (congrArg some (stepWeight_boundary _ _ _ _))
    · exact hg
  · exact hg

theorem graded_ofLayout (h : ofLayout l = .ok b) : b.graph.Graded := by
  unfold ofLayout at h
  obtain ⟨patches, -, h⟩ := exists_of_bind_eq_ok h
  cases h
  rw [graded_iff]
  refine List.foldlRecOn (motive := fun g : Graph Node => g.WeighedBy stepTable) _ _ ?_
    fun g hg p _ => weighedBy_addPatch hg p
  exact List.foldlRecOn (motive := fun g : Graph Node => g.WeighedBy stepTable) _ _
    (weighedBy_empty _) fun g hg e _ => weighedBy_addBusTile hg e.1 e.2

theorem graded_removeNodes (hb : b.graph.WellFormed) (hg : b.graph.Graded) (ns : List Node) :
    (b.removeNodes ns).graph.Graded := by
  rw [graph_removeNodes, graded_iff]
  exact (graded_iff.1 hg).foldl_removeNode hb ns

/-- A patch that turns hands its edges from one boundary to the other, which is as heavy. -/
theorem graded_turn (hb : b.graph.WellFormed) (hg : b.graph.Graded) (id : Nat) :
    (b.turn id).graph.Graded := by
  rw [graded_iff] at hg ⊢
  by_cases h : b.CanTurn id
  · have hwell : ((b.detach (.qubit id .X)).2).graph.WellFormed := wellFormed_detach hb
    have hdetached : ((b.detach (.qubit id .X)).2).graph.WeighedBy stepTable :=
      hg.foldl_removeEdge (.qubit id .X) Prod.fst _
    -- both boundaries of a patch are as heavy
    have hflip : ∀ {basis basis' : Basis} {e : Node × Nat},
        stepTable (.qubit id basis) e.1 = some e.2 → stepTable (.qubit id basis') e.1 = some e.2 := by
      intro basis basis' e he
      rw [stepTable, stepWeight_boundary] at he ⊢
      exact he
    rw [graph_turn h]
    refine ((hdetached.foldl_removeEdge (.qubit id .Z) Prod.fst _).foldl_addEdge stepTable_comm
      fun e he => ?_).foldl_addEdge stepTable_comm fun e he => ?_
    · exact hflip (hdetached.of_mem_incident hwell he)
    · exact hflip (hg.of_mem_incident hb he)
  · rwa [turn_of_not_canTurn h]

theorem graded_elapse (hb : b.Sound) (hg : b.graph.Graded) (ticks : Nat) :
    (b.elapse ticks).graph.Graded :=
  graph_elapse_of_turn hb ticks hg fun _ id hb hg => graded_turn hb.graph hg id

/-- Every board of a layout is graded. -/
theorem Stage.graded (h : Stage l b) : b.graph.Graded := by
  induction h with
  | ofLayout h => exact graded_ofLayout h
  | removeNodes ns h ih => exact graded_removeNodes h.sound.graph ih ns
  | setTicks h hset ih =>
    rw [((setTicks_ends h.sound _ _).of_ok hset).graph]
    exact ih
  | elapse ticks h ih => exact graded_elapse h.sound ih ticks
  | turn id h ih => exact graded_turn h.sound.graph ih id
  | storeMagicStates h ih =>
    rw [(storeMagicStates_spec h.sound).1.graph]
    exact ih
  | resetStorages h hreset ih =>
    rw [((resetStorages_ends h.sound).of_ok hreset).1.graph]
    exact ih

/-! ## Connecting terminals -/

variable {terminals : List Node} {cache : Option PathCache} {c : Connection}

theorem graded_trim (hb : b.graph.WellFormed) (hg : b.graph.Graded) (terminal next : Node) :
    (b.trim terminal next).2.graph.Graded :=
  graded_iff.2 (weighedBy_trim hb (graded_iff.1 hg) terminal next).1

/-- On a graded board, terminals are connected by a graded tree. -/
theorem graded_of_connect (hb : b.graph.WellFormed) (hg : b.graph.Graded)
    (hterminals : terminals.Nodup) (hne : terminals.length ≠ 1)
    (hc : ∀ c, cache = some c → c.Sound) (h : b.connect terminals cache = .ok c) {t : Tree}
    (ht : c.tree = some t) : t.shape.Graded :=
  graded_iff.2 <|
    weighedBy_tree_of_connect stepTable_comm hb (graded_iff.1 hg) hterminals hne hc h ht

end Board

end LatticeSurgery
