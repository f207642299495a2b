import LatticeSurgery.Proofs.Board.Routing
import LatticeSurgery.Proofs.Graph.Weights

/-!
# Weights of connections

Connecting terminals takes edges away with their weights and puts them back, and a tree takes the
weights of its edges from the graph. So if the graph of a board has the weights of a table, so has the
graph that is left behind (`weighedBy_of_connect`), and so has the tree (`weighedBy_tree_of_connect`).
-/

namespace LatticeSurgery

open Ordered LatticeSurgery.Graph

variable {f : Node → Node → Option Nat}

/-! ## Trees made of paths -/

namespace Tree

variable {t : Tree} {g : Graph Node} {n m : Node} {p : List Node}

/-- The edges of a tree to which a path was added. -/
theorem adj_addPath_iff : (addPath g t p).shape.Adj n m ↔ t.shape.Adj n m ∨ Steps p n m := by
  unfold Steps
  induction p generalizing t with
  | nil => simp [addPath, pathKeys]
  | cons a p ih =>
    cases p with
    | nil => simp [addPath, pathKeys]
    | cons b p =>
      rw [addPath_cons_cons, ih, pathKeys, List.mem_cons, edgeKey_eq_iff, ← or_assoc]
      refine or_congr_left ?_
      refine adj_addEdge.trans ?_
      rw [← or_assoc, or_comm]

theorem adj_foldl_addPath {β : Type} {path : β → List Node} {l : List β} :
    (l.foldl (fun t e => addPath g t (path e)) t).shape.Adj n m ↔
      t.shape.Adj n m ∨ ∃ e ∈ l, Steps (path e) n m := by
  induction l generalizing t with
  | nil => simp
  | cons e es ih =>
    rw [List.foldl_cons, ih, adj_addPath_iff, or_assoc]
    simp

theorem weighedBy_spanning (hf : ∀ n m, f n m = f m n) (hwell : t.shape.WellFormed)
    (ht : t.shape.WeighedBy f) : t.spanning.shape.WeighedBy f := by
  rw [shape_spanning]
  refine ((weighedBy_empty f).foldl_addNode (fun n => n) _).foldl_addEdge hf fun e he => ?_
  obtain ⟨e', he', rfl⟩ := List.mem_map.1 (mem_of_mem_spanningForest he)
  exact ht _ _ _ (hwell.mem_edgeList.1 he').2

theorem weighedBy_prune (hwell : t.shape.WellFormed) (ht : t.shape.WeighedBy f) (keep : List Node)
    (rounds : Nat) : (t.prune keep rounds).shape.WeighedBy f := by
  induction rounds generalizing t with
  | zero => exact ht
  | succ rounds ih =>
    unfold Tree.prune
    split
    · exact ht
    · refine ih ?_ ?_ <;> rw [shape_foldl_removeNode]
      · exact hwell.foldl_removeNode _
      · exact ht.foldl_removeNode hwell _

theorem weighedBy_reduce (hf : ∀ n m, f n m = f m n) (hwell : t.shape.WellFormed)
    (ht : t.shape.WeighedBy f) (keep : List Node) : (t.reduce keep).shape.WeighedBy f := by
  unfold Tree.reduce
  dsimp only
  split
  · exact weighedBy_prune wellFormed_spanning (weighedBy_spanning hf hwell ht) keep _
  · exact weighedBy_prune hwell ht keep _

theorem weighedBy_addPath (hf : ∀ n m, f n m = f m n) (ht : t.shape.WeighedBy f)
    (hg : g.WeighedBy f) (hp : p.IsChain g.Adj) : (addPath g t p).shape.WeighedBy f := by
  induction p generalizing t with
  | nil => exact ht
  | cons a p ih =>
    cases p with
    | nil => exact ht
    | cons b p =>
      obtain ⟨hab, hrest⟩ := List.isChain_cons_cons.1 hp
      obtain ⟨w, hw⟩ := adj_iff.1 hab
      refine ih (ht.addEdge hf ?_) hrest
      rw [hw, Option.getD_some]
      exact hg a b w hw

theorem weighedBy_treeOfPaths (hf : ∀ n m, f n m = f m n) (hg : g.WeighedBy f)
    {terminals : List Node} {paths : List (Nat × (Nat × Nat) × List Node)}
    (hpaths : ∀ p ∈ paths, p.2.2.IsChain g.Adj) :
    (Board.treeOfPaths g terminals paths).shape.WeighedBy f := by
  refine weighedBy_reduce hf (wellFormed_foldl_addPath sound_empty.wellFormed) ?_ terminals
  refine List.foldlRecOn (motive := fun t : Tree => t.shape.WeighedBy f) _ _ (weighedBy_empty f)
    fun t ht p hp => ?_
  exact weighedBy_addPath hf ht hg (hpaths p (mem_of_mem_spanningForest hp))

/-- The total weight of a tree is the sum of the weights of its edges. -/
theorem totalWeight_eq_keysWeight (hwell : t.shape.WellFormed) (ht : t.shape.WeighedBy f) :
    t.totalWeight = keysWeight f t.shape.edgeKeys := by
  have hweights : t.edges.map Prod.snd = t.shape.edgeKeys.map fun k => (f k.1 k.2).getD 0 := by
    refine Eq.trans ?_ (List.map_map ..).symm
    refine List.map_congr_left fun e he => ?_
    dsimp only [Function.comp_apply]
    rw [ht _ _ _ (hwell.mem_edgeList.1 he).2, Option.getD_some]
  unfold totalWeight keysWeight
  rw [hweights]
  exact List.sum_eq_foldr.symm

end Tree

/-! ## Connecting terminals -/

namespace Board

variable {b : Board} {terminals : List Node} {cache : Option PathCache} {c : Connection}

/-- The edges that are left and those that were taken away have the weights of a table. -/
structure Pairing.WeighedBy (f : Node → Node → Option Nat) (s : Pairing) : Prop where
  wellFormed : s.board.graph.WellFormed
  board : s.board.graph.WeighedBy f
  removed : ∀ e ∈ s.removed, f e.1 e.2.1 = some e.2.2

theorem weighedBy_trim (hb : b.graph.WellFormed) (hg : b.graph.WeighedBy f)
    (terminal next : Node) : (b.trim terminal next).2.graph.WeighedBy f ∧
      ∀ e ∈ (b.trim terminal next).1, f e.1 e.2.1 = some e.2.2 := by
  unfold trim
  split
  · exact ⟨hg, by simp⟩
  · refine ⟨hg.foldl_removeEdge terminal Prod.fst _, fun e he => ?_⟩
    obtain ⟨e', he', rfl⟩ := List.mem_map.1 he
    exact hg.of_mem_incident hb (List.mem_of_mem_filter he')

theorem Pairing.lasting_weighedBy (f : Node → Node → Option Nat) :
    Pairing.Lasting (Pairing.WeighedBy f) where
  route _ _ _ hs := ⟨hs.wellFormed, hs.board, hs.removed⟩
  list _ _ hs := ⟨hs.wellFormed, hs.board, hs.removed⟩
  trim s terminal next hs := by
    obtain ⟨hboard, hremoved⟩ := weighedBy_trim hs.wellFormed hs.board terminal next
    exact ⟨(trim_spec hs.wellFormed terminal next).wellFormed, hboard,
      List.forall_mem_append.2 ⟨hs.removed, hremoved⟩⟩

/-- Connecting several terminals in two stages: the search for paths, and the tree made of them. -/
theorem exists_of_connect (hne : terminals.length ≠ 1) (h : b.connect terminals cache = .ok c) :
    ∃ s connected, joinPairs (decide (2 < terminals.length)) (placePairs terminals.zipIdx)
      ⟨b, cache, [], []⟩ = .ok (s, connected) ∧
      c = ⟨if connected = true then
          some (treeOfPaths (s.board.restore s.removed).graph terminals s.paths) else none,
        s.board.restore s.removed, s.cache⟩ := by
  unfold connect at h
  split at h
  · exact absurd rfl hne
  · obtain ⟨⟨s, connected⟩, hjoin, h⟩ := exists_of_bind_eq_ok h
    cases h
    exact ⟨s, connected, hjoin, rfl⟩

theorem weighedBy_restore (hf : ∀ n m, f n m = f m n) {removed : List RemovedEdge}
    (hg : b.graph.WeighedBy f) (hremoved : ∀ e ∈ removed, f e.1 e.2.1 = some e.2.2) :
    (b.restore removed).graph.WeighedBy f :=
  hg.foldl_addEdge hf hremoved

/-- The graph that is left behind has the weights that the graph had. -/
theorem weighedBy_of_connect (hf : ∀ n m, f n m = f m n) (hb : b.graph.WellFormed)
    (hg : b.graph.WeighedBy f) (h : b.connect terminals cache = .ok c) :
    c.board.graph.WeighedBy f := by
  by_cases hone : terminals.length = 1
  · obtain ⟨n, rfl⟩ := List.length_eq_one_iff.1 hone
    cases h
    exact hg
  · obtain ⟨s, connected, hjoin, rfl⟩ := exists_of_connect hone h
    have hs := (Pairing.lasting_weighedBy f).joinPairs ⟨hb, hg, by simp⟩ hjoin
    exact weighedBy_restore hf hs.board hs.removed

/-- The tree has the weights that the graph had. -/
theorem weighedBy_tree_of_connect (hf : ∀ n m, f n m = f m n) (hb : b.graph.WellFormed)
    (hg : b.graph.WeighedBy f) (hterminals : terminals.Nodup) (hne : terminals.length ≠ 1)
    (hc : ∀ c, cache = some c → c.Sound) (h : b.connect terminals cache = .ok c) {t : Tree}
    (ht : c.tree = some t) : t.shape.WeighedBy f := by
  have hboard := weighedBy_of_connect hf hb hg h
  obtain ⟨s, connected, hjoin, rfl⟩ := exists_of_connect hne h
  have hstart : Pairing.Sound b.graph terminals ⟨b, cache, [], []⟩ :=
    ⟨⟨hb, fun _ => rfl, fun n m => by simp⟩, hc, fun p hp => by cases hp⟩
  have hs := ((joinPairs_ends _ (fun q => isPair_of_mem_placePairs hterminals) hstart).of_ok
    hjoin).sound
  obtain ⟨-, hsame⟩ := restore_spec hb hs.trimmed
  dsimp only at ht
  split at ht
  · cases ht
    refine Tree.weighedBy_treeOfPaths hf hboard fun p hp => ?_
    exact ((hs.paths p hp).1.mono hsame.within.edge).chain
  · cases ht

end Board

end LatticeSurgery
