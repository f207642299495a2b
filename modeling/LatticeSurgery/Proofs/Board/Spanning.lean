import LatticeSurgery.Proofs.Board.Reached
import LatticeSurgery.Proofs.Board.TwoTerminals
import LatticeSurgery.Proofs.Cache.Filled

/-!
# Connected terminals are spanned

Whatever tree connects terminals on a board that is reached from a layout, it contains the terminals,
has no cycle, takes its edges with their weights from the board and ends in terminals only
(`Board.Spans`). Two terminals are connected exactly when they are linked, and without a cache by a
cheapest path (`Board.CheapestPath`).
-/

namespace LatticeSurgery

open Ordered LatticeSurgery.Graph

namespace Board

variable {b : Board} {l : Layout} {terminals : List Node} {cache : Option PathCache} {n m : Node}

/-- A tree that spans some nodes of a graph. -/
structure Spans (g : Graph Node) (terminals : List Node) (t : Tree) : Prop where
  wellFormed : t.shape.WellFormed
  contains : ∀ n ∈ terminals, t.contains n = true
  /-- It is connected and acyclic. -/
  isTree : t.shape.toSimpleGraph.IsTree
  loopless : ∀ n, ¬ t.shape.Adj n n
  /-- Its edges are edges of the graph, with the same weight. -/
  edges : ∀ n m w, t.shape.weight? n m = some w → g.weight? n m = some w
  leaves : ∀ n, t.contains n = true → t.degree n ≤ 1 → n ∈ terminals

/-- A tree that is a path of least weight between two nodes. -/
structure CheapestPath (g : Graph Node) (n m : Node) (t : Tree) (p : List Node) : Prop where
  path : g.IsPath n m p
  simple : p.Nodup
  nodes : ∀ k, t.contains k = true ↔ k ∈ p
  edges : ∀ k k', t.shape.Adj k k' ↔ Steps p k k'
  weight : t.totalWeight = g.pathWeight p
  least : ∀ q, g.IsPath n m q → g.pathWeight p ≤ g.pathWeight q

theorem spans_of_connect (hb : b.graph.WellFormed) (hterminals : terminals.Nodup)
    (htwo : 2 ≤ terminals.length) (hcache : ∀ p, cache = some p → p.Sound) {c : Connection}
    (h : b.connect terminals cache = .ok c) {t : Tree} (ht : c.tree = some t) :
    Spans b.graph terminals t := by
  have hne : terminals ≠ [] := by
    rintro rfl
    simp at htwo
  have hconnects := (connect_ends cache hb hterminals hne hcache).of_ok h
  obtain ⟨hsound, -, hcontains⟩ := hconnects.tree t ht
  have htrim := hconnects.trim t ht
  refine ⟨hsound.wellFormed, hcontains, htrim.isTree.isTree_toSimpleGraph,
    htrim.isTree.not_adj_self, ?_, htrim.ends⟩
  exact weighedBy_tree_of_connect b.graph.weight?_comm hb (weighedBy_refl _) hterminals (by omega)
    hcache h ht

/-- A route is known or found between any two nodes that are linked. -/
theorem exists_routeBetween (hb : b.graph.WellFormed) (hne : n ≠ m) (hlinked : b.graph.Linked n m)
    (cache : Option PathCache) : ∃ r, (b.routeBetween cache n m).1 = some r := by
  obtain ⟨hn, hm⟩ : b.graph.hasNode n = true ∧ b.graph.hasNode m = true := by
    constructor
    · rcases Relation.ReflTransGen.cases_head hlinked with h | ⟨k, hnk, -⟩
      · exact absurd h hne
      · exact hb.hasNode_left hnk
    · rcases Relation.ReflTransGen.cases_tail hlinked with h | ⟨k, -, hkm⟩
      · exact absurd h.symm hne
      · exact hb.hasNode_right hkm
  obtain ⟨d, p, hpath⟩ := exists_shortestPath? hb hn hm hlinked
  have hpath' : b.path? n m = some (d, p) := hpath
  unfold routeBetween
  cases cache with
  | none => exact ⟨(d, p), hpath'⟩
  | some c =>
    dsimp only
    split
    · next hit _ => exact ⟨hit, rfl⟩
    · rw [hpath']
      exact ⟨(d, p), rfl⟩

/-- Two terminals are connected exactly when they are linked. -/
theorem connect_eq_none_iff (hb : b.graph.WellFormed) (hne : n ≠ m)
    (hcache : ∀ p, cache = some p → p.Sound) {c : Connection}
    (h : b.connect [n, m] cache = .ok c) : c.tree = none ↔ ¬ b.graph.Linked n m := by
  have hterminals : [n, m].Nodup := by simpa using hne
  constructor
  · intro hnone hlinked
    obtain ⟨⟨d, p⟩, hroute⟩ := exists_routeBetween hb hne hlinked cache
    obtain ⟨s, connected, hjoin, rfl⟩ := exists_of_connect (by simp) h
    have hpairs : placePairs [n, m].zipIdx = [((n, 0), (m, 1))] := rfl
    rw [hpairs] at hjoin
    unfold joinPairs at hjoin
    split at hjoin
    · next heq =>
      rw [heq] at hroute
      cases hroute
    · cases hjoin
      cases hnone
  · intro hlinked
    cases ht : c.tree with
    | none => rfl
    | some t =>
      have hconnects := (connect_ends cache hb hterminals (by simp) hcache).of_ok h
      obtain ⟨hsound, hwithin, hcontains⟩ := hconnects.tree t ht
      have hends := hsound.connected n m (hcontains n (by simp)) (hcontains m (by simp))
      exact absurd (Linked.mono hwithin.edge hends) hlinked

/-- The path that connects two terminals is cheapest. -/
theorem cheapestPath_of_connect (hb : b.graph.WellFormed) (hne : n ≠ m) {c : Connection}
    (h : b.connect [n, m] none = .ok c) {t : Tree} (ht : c.tree = some t) :
    ∃ p, CheapestPath b.graph n m t p := by
  rw [connect_two hne] at h
  cases h
  obtain ⟨⟨d, p⟩, hpath, rfl⟩ := Option.map_eq_some_iff.1 ht
  have hisPath := (shortestPath?_spec hpath).1
  have hnodup := shortestPath?_nodup hpath
  obtain ⟨hweight, hleast⟩ := shortestPath?_weight hb hpath
  refine ⟨p, hisPath, hnodup, fun k => Tree.contains_addPath_empty hisPath hne, fun k k' => ?_,
    Tree.totalWeight_addPath_empty hisPath.chain hnodup, fun q hq => hweight ▸ hleast q hq⟩
  exact Tree.adj_addPath_iff.trans (or_iff_right (not_adj_empty k k'))

/-- Connecting several terminals of a board reached from a layout, contracted or not, gives no tree or
one that spans them, without a cache or with a filled one. Two terminals get a tree exactly when they
are linked; without a cache, it is a path of least weight. -/
theorem connect_spans (hb : Reached l b) (hterminals : terminals.Nodup)
    (htwo : 2 ≤ terminals.length) (hcache : ∀ p, cache = some p → p.Filled) :
    ∃ c, b.connect terminals cache = .ok c ∧
      (∀ t, c.tree = some t → Spans b.graph terminals t) ∧
      ∀ n m, terminals = [n, m] → (c.tree = none ↔ ¬ b.graph.Linked n m) ∧
        (cache = none → ∀ t, c.tree = some t → ∃ p, CheapestPath b.graph n m t p) := by
  have hwell := hb.wellFormed
  have hsound : ∀ p, cache = some p → p.Sound := fun p hp => (hcache p hp).sound
  have hnonempty : terminals ≠ [] := by
    rintro rfl
    simp at htwo
  obtain ⟨c, hc, -⟩ := (connect_ends cache hwell hterminals hnonempty hsound).exists_ok
  refine ⟨c, hc, fun t ht => spans_of_connect hwell hterminals htwo hsound hc ht, ?_⟩
  rintro n m rfl
  have hne : n ≠ m := by simpa using hterminals
  refine ⟨connect_eq_none_iff hwell hne hsound hc, ?_⟩
  rintro rfl t ht
  exact cheapestPath_of_connect hwell hne hc ht

/-- Three data patches above a row of bus tiles and a magic state below it. -/
def triadLayout : Layout where
  bus := SortedSet.ofList [⟨0, 0⟩, ⟨1, 0⟩, ⟨2, 0⟩]
  data := SortedSet.ofList [⟨0, 1⟩, ⟨1, 1⟩, ⟨2, 1⟩]
  magic := SortedSet.ofList [⟨1, -1⟩]
  zero := ∅
  storage := ∅

/-- The first two patches are connected, and the tree is contracted to the first one. The contracted
board has a tree that spans this anchor, the third patch and the magic state. -/
theorem triadLayout_spans : ∃ b c t p b', ofLayout triadLayout = .ok b ∧
    b.connect [.qubit 0 .X, .qubit 1 .X] (some ∅) = .ok c ∧ c.tree = some t ∧ c.cache = some p ∧
      c.board.contract t (.qubit 0 .X) = .ok b' ∧
    ∃ c' t', b'.connect [.qubit 0 .X, .qubit 2 .X, .boundary .magic 0 .Z] (some p) = .ok c' ∧
      c'.tree = some t' ∧ Spans b'.graph [.qubit 0 .X, .qubit 2 .X, .boundary .magic 0 .Z] t' := by
  have hrun : (ofLayout triadLayout).toOption.any (fun b =>
      (b.connect [.qubit 0 .X, .qubit 1 .X] (some ∅)).toOption.any fun c =>
        c.tree.any fun t => c.cache.any fun p =>
          (c.board.contract t (.qubit 0 .X)).toOption.any fun b' =>
            (b'.connect [.qubit 0 .X, .qubit 2 .X, .boundary .magic 0 .Z] (some p)).toOption.any
              fun c' => c'.tree.isSome) = true := by
    decide +kernel
  obtain ⟨b, hb, hrun⟩ := exists_of_any_toOption hrun
  obtain ⟨c, hc, hrun⟩ := exists_of_any_toOption hrun
  obtain ⟨t, ht, hrun⟩ := (Option.any_eq_true _ _).1 hrun
  obtain ⟨p, hp, hrun⟩ := (Option.any_eq_true _ _).1 hrun
  obtain ⟨b', hb', hrun⟩ := exists_of_any_toOption hrun
  obtain ⟨c', hc', hrun⟩ := exists_of_any_toOption hrun
  obtain ⟨t', ht'⟩ := Option.isSome_iff_exists.1 hrun
  have hstart := Reached.ofLayout hb
  have hfilled : p.Filled := .connect .empty hc hp
  have hreached : Reached triadLayout b' :=
    (hstart.step (.inl (.connect (by decide) hc))).step (.inr ⟨t, _, hb'⟩)
  have hcache : ∀ p', some p = some p' → p'.Filled := by
    rintro p' ⟨⟩
    exact hfilled
  have hterminals : [Node.qubit 0 .X, .qubit 2 .X, .boundary .magic 0 .Z].Nodup := by decide
  obtain ⟨c'', hc'', hspans, -⟩ := connect_spans hreached hterminals (by decide) hcache
  cases hc'.symm.trans hc''
  exact ⟨b, c, t, p, b', hb, hc, ht, hp, hb', c', t', hc', ht', hspans t' ht'⟩

end Board

end LatticeSurgery
