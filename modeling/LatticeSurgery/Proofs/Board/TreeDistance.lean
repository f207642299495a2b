import LatticeSurgery.Proofs.Board.Contract
import LatticeSurgery.Proofs.Board.OfLayout
import LatticeSurgery.Proofs.Graph.Distance

/-!
# Contracting a tree keeps the distances to it

On a contracted board the anchor stands for the whole tree: a node outside is joined to it by the lightest
of its edges to the tree (`Board.Contracted`). So a path to the anchor comes of a path to the tree that is
as heavy at most (`Contracted.exists_lift`), and a path to the tree, cut off where it first meets the
tree, becomes one to the anchor (`Contracted.exists_cut`). Hence the way from a node to a tree can be looked
for on the contracted board (`contract_keeps_distance`).
-/

namespace LatticeSurgery

open Ordered LatticeSurgery.Graph

namespace Graph

variable {α : Type} [Ordered α] {g h : Graph α} {a b : α} {d : Nat}

/-- The least weight of a path from a node to any of some goals. -/
def IsDistance (g : Graph α) (a : α) (goals : α → Prop) (d : Nat) : Prop :=
  IsLeast {w | ∃ b p, goals b ∧ g.IsPath a b p ∧ g.pathWeight p = w} d

/-- A search finds the distance between two nodes. -/
theorem exists_shortestPath?_iff (hg : g.WellFormed) (hab : a ≠ b) :
    (∃ p, g.shortestPath? a b = some (d, p)) ↔ g.IsDistance a (· = b) d := by
  constructor
  · rintro ⟨p, hp⟩
    obtain ⟨hweight, hleast⟩ := shortestPath?_weight hg hp
    refine ⟨⟨b, p, rfl, (shortestPath?_spec hp).1, hweight⟩, ?_⟩
    rintro w ⟨_, q, rfl, hq, rfl⟩
    exact hleast q hq
  · rintro ⟨⟨_, p, rfl, hp, rfl⟩, hleast⟩
    obtain ⟨n, t, rfl⟩ := (hp.exists_inner hab).1
    have hnode : ∀ x ∈ a :: n :: t, g.hasNode x = true := fun x =>
      hasNode_of_mem_chain hg hp.chain
    obtain ⟨d, q, hq⟩ := exists_shortestPath? hg (hnode a List.mem_cons_self)
      (hnode _ (List.mem_of_getLast? hp.last)) hp.linked
    obtain ⟨hweight, hbest⟩ := shortestPath?_weight hg hq
    have hd := le_antisymm (hbest _ hp)
      (hleast ⟨_, q, rfl, (shortestPath?_spec hq).1, hweight⟩)
    exact ⟨q, hd ▸ hq⟩

end Graph

namespace Board

variable {b b' : Board} {g h : Graph Node} {t : Tree} {anchor n m s : Node} {w : Nat} {p : List Node}

/-- The graph `h` is `g` with the nodes of a tree replaced by one of them. -/
structure Contracted (g : Graph Node) (t : Tree) (anchor : Node) (h : Graph Node) : Prop where
  /-- The other nodes of the tree are gone. -/
  node : ∀ n, h.hasNode n = true ↔ g.hasNode n = true ∧ (t.contains n = true → n = anchor)
  /-- Edges between nodes outside the tree are unchanged. -/
  outside : ∀ n m, t.contains n = false → t.contains m = false → h.weight? n m = g.weight? n m
  /-- A node outside is joined to the anchor when it was joined to the tree, -/
  joined : ∀ n, t.contains n = false →
    (h.Adj n anchor ↔ ∃ m, t.contains m = true ∧ g.Adj n m)
  /-- with the least weight of the edges to the tree. -/
  least : ∀ n w, h.weight? n anchor = some w →
    IsLeast {w | ∃ m, t.contains m = true ∧ g.weight? n m = some w} w
  /-- The anchor is not joined to itself. -/
  noLoop : ¬ h.Adj anchor anchor

/-- Edges that are attached to a node without edges are there with their weights. -/
theorem weight?_attach {edges : List (Node × Nat)} (hkeys : (edges.map Prod.fst).Nodup)
    (hfree : ∀ m, b.graph.weight? n m = none) :
    (b.attach n edges).graph.weight? n m = some w ↔ (m, w) ∈ edges := by
  refine (weight?_foldl_addEdge_self hkeys).trans (or_iff_left ?_)
  rw [hfree]
  rintro ⟨-, h⟩
  cases h

/-- Contracting a tree of the board to one of its nodes. -/
theorem exists_contract (hb : b.graph.WellFormed) (hanchor : t.contains anchor = true)
    (hnode : b.graph.hasNode anchor = true) :
    ∃ b', b.contract t anchor = .ok b' ∧ b'.graph.WellFormed ∧
      Contracted b.graph t anchor b'.graph := by
  have hwell : (b.stripTree t anchor).graph.WellFormed := wellFormed_stripTree hb
  refine ⟨_, contract_eq hanchor, wellFormed_attach hwell _, ?_⟩
  have hfree : ∀ m, (b.stripTree t anchor).graph.weight? anchor m = none := fun m =>
    Option.eq_none_iff_forall_ne_some.2 fun w hw => by
      have hout := ((weight?_stripTree hb hanchor).1 hw).2.1
      rw [hanchor] at hout
      cases hout
  set outside := b.outsideOf t.nodeSet with houtside
  have hkeys : (outside.entries.map Prod.fst).Nodup := outside.keySet.nodup
  -- the edges of the anchor are those that were collected
  have hedge : ∀ n w, ((b.stripTree t anchor).attach anchor outside.entries).graph.weight? n anchor =
      some w ↔ IsLeast {w | t.contains n = false ∧
        ∃ m, t.contains m = true ∧ b.graph.weight? n m = some w} w := by
    intro n w
    rw [Graph.weight?_comm, weight?_attach hkeys hfree, SortedMap.mem_entries_iff, houtside,
      get?_outsideOf]
    simp only [Tree.mem_nodeSet, hb.mem_incident, Bool.not_eq_true, b.graph.weight?_comm n]
  constructor
  case node =>
    intro n
    refine (hasNode_attach hwell).trans ?_
    rw [hasNode_stripTree]
    refine ⟨?_, Or.inl⟩
    rintro (hn | ⟨e, he, rfl | rfl⟩)
    · exact hn
    · exact ⟨hnode, fun _ => rfl⟩
    · obtain ⟨hn, m, -, hadj⟩ := mem_outsideOf he
      rw [Tree.mem_nodeSet] at hn
      exact ⟨hb.hasNode_right hadj, fun hin => absurd hin hn⟩
  case outside =>
    intro n m hn hm
    have hne : ∀ {n}, t.contains n = false → n ≠ anchor := by
      rintro n hn rfl
      rw [hanchor] at hn
      cases hn
    refine (weight?_foldl_addEdge_of_ne (hne hn) (hne hm)).trans (Option.ext fun w => ?_)
    rw [weight?_stripTree hb hanchor]
    exact and_iff_left ⟨hn, hm⟩
  case joined =>
    intro n hn
    constructor
    · intro hadj
      obtain ⟨w, hw⟩ := adj_iff.1 hadj
      obtain ⟨⟨-, m, hm, hnm⟩, -⟩ := (hedge n w).1 hw
      exact ⟨m, hm, adj_iff.2 ⟨w, hnm⟩⟩
    · rintro ⟨m, hm, hadj⟩
      obtain ⟨w, hw⟩ := adj_iff.1 hadj
      have hsome : {w | t.contains n = false ∧
          ∃ m, t.contains m = true ∧ b.graph.weight? n m = some w}.Nonempty := ⟨w, hn, m, hm, hw⟩
      exact adj_iff.2 ⟨_, (hedge n _).2 ⟨Nat.sInf_mem hsome, fun _ => Nat.sInf_le⟩⟩
  case least =>
    intro n w hw
    obtain ⟨⟨hn, hmem⟩, hleast⟩ := (hedge n w).1 hw
    exact ⟨hmem, fun v hv => hleast ⟨hn, hv⟩⟩
  case noLoop =>
    intro hadj
    obtain ⟨w, hw⟩ := adj_iff.1 hadj
    obtain ⟨⟨hout, -⟩, -⟩ := (hedge anchor w).1 hw
    rw [hanchor] at hout
    cases hout

section Paths

variable (hg : Contracted g t anchor h)

include hg

/-- A path to the anchor comes of a path to the tree that is as heavy at most. -/
theorem Contracted.exists_lift (hanchor : t.contains anchor = true) (hh : h.WellFormed)
    (hp : h.IsPath s anchor p) (hs : t.contains s = false) :
    ∃ m q, t.contains m = true ∧ g.IsPath s m q ∧ g.pathWeight q ≤ h.pathWeight p := by
  refine hp.induct (motive := fun s p => t.contains s = false →
    ∃ m q, t.contains m = true ∧ g.IsPath s m q ∧ g.pathWeight q ≤ h.pathWeight p) ?_ ?_ hs
  · intro hs
    rw [hanchor] at hs
    cases hs
  · intro s y p hsy hrest ih hs
    obtain ⟨w, hw⟩ := adj_iff.1 hsy
    rw [hrest.pathWeight_cons hw]
    by_cases hy : t.contains y = true
    · -- only the anchor is left of the tree
      obtain rfl := ((hg.node y).1 (hh.hasNode_right hsy)).2 hy
      obtain ⟨⟨m, hm, hsm⟩, -⟩ := hg.least s w hw
      refine ⟨m, [s, m], hm, (isPath_singleton g m).cons (adj_iff.2 ⟨w, hsm⟩), ?_⟩
      rw [(isPath_singleton g m).pathWeight_cons hsm]
      exact Nat.add_le_add_left (Nat.zero_le _) w
    · have hy : t.contains y = false := by simpa using hy
      have hsy : g.weight? s y = some w := (hg.outside s y hs hy).symm.trans hw
      obtain ⟨m, q, hm, hq, hle⟩ := ih hy
      refine ⟨m, s :: q, hm, hq.cons (adj_iff.2 ⟨w, hsy⟩), ?_⟩
      rw [hq.pathWeight_cons hsy]
      exact Nat.add_le_add_left hle w

/-- A path to the tree, cut off where it meets the tree, becomes a path to the anchor. -/
theorem Contracted.exists_cut (hm : t.contains m = true) (hp : g.IsPath s m p)
    (hs : t.contains s = false) :
    ∃ q, h.IsPath s anchor q ∧ h.pathWeight q ≤ g.pathWeight p := by
  refine hp.induct (motive := fun s p => t.contains s = false →
    ∃ q, h.IsPath s anchor q ∧ h.pathWeight q ≤ g.pathWeight p) ?_ ?_ hs
  · intro hs
    rw [hm] at hs
    cases hs
  · intro s y p hsy hrest ih hs
    obtain ⟨w, hw⟩ := adj_iff.1 hsy
    rw [hrest.pathWeight_cons hw]
    by_cases hy : t.contains y = true
    · obtain ⟨v, hv⟩ := adj_iff.1 ((hg.joined s hs).2 ⟨y, hy, hsy⟩)
      have hle : v ≤ w := (hg.least s v hv).2 ⟨y, hy, hw⟩
      refine ⟨[s, anchor], (isPath_singleton h anchor).cons (adj_iff.2 ⟨v, hv⟩), ?_⟩
      rw [(isPath_singleton h anchor).pathWeight_cons hv]
      exact Nat.add_le_add hle (Nat.zero_le _)
    · have hy : t.contains y = false := by simpa using hy
      have hsy : h.weight? s y = some w := (hg.outside s y hs hy).trans hw
      obtain ⟨q, hq, hle⟩ := ih hy
      refine ⟨s :: q, hq.cons (adj_iff.2 ⟨w, hsy⟩), ?_⟩
      rw [hq.pathWeight_cons hsy]
      exact Nat.add_le_add_left hle w

/-- A node is linked to the anchor when it was linked to the tree. -/
theorem Contracted.linked_iff (hanchor : t.contains anchor = true) (hh : h.WellFormed)
    (hs : t.contains s = false) :
    h.Linked s anchor ↔ ∃ m, t.contains m = true ∧ g.Linked s m := by
  constructor
  · intro hlinked
    obtain ⟨p, hp⟩ := exists_isPath_of_linked hlinked
    obtain ⟨m, q, hm, hq, -⟩ := hg.exists_lift hanchor hh hp hs
    exact ⟨m, hm, hq.linked⟩
  · rintro ⟨m, hm, hlinked⟩
    obtain ⟨p, hp⟩ := exists_isPath_of_linked hlinked
    obtain ⟨q, hq, -⟩ := hg.exists_cut hm hp hs
    exact hq.linked

/-- A node is as far from the anchor as it was from the tree. -/
theorem Contracted.isDistance_iff (hanchor : t.contains anchor = true) (hh : h.WellFormed)
    (hs : t.contains s = false) {d : Nat} :
    h.IsDistance s (· = anchor) d ↔ g.IsDistance s (fun m => t.contains m = true) d := by
  constructor
  · rintro ⟨⟨_, p, rfl, hp, rfl⟩, hleast⟩
    obtain ⟨m, q, hm, hq, hle⟩ := hg.exists_lift hanchor hh hp hs
    have hlower : ∀ m q, t.contains m = true → g.IsPath s m q → h.pathWeight p ≤ g.pathWeight q := by
      intro m q hm hq
      obtain ⟨p', hp', hle'⟩ := hg.exists_cut hm hq hs
      exact (hleast ⟨_, p', rfl, hp', rfl⟩).trans hle'
    refine ⟨⟨m, q, hm, hq, le_antisymm hle (hlower m q hm hq)⟩, ?_⟩
    rintro _ ⟨m', q', hm', hq', rfl⟩
    exact hlower m' q' hm' hq'
  · rintro ⟨⟨m, q, hm, hq, rfl⟩, hleast⟩
    obtain ⟨p, hp, hle⟩ := hg.exists_cut hm hq hs
    have hlower : ∀ p, h.IsPath s anchor p → g.pathWeight q ≤ h.pathWeight p := by
      intro p hp
      obtain ⟨m', q', hm', hq', hle'⟩ := hg.exists_lift hanchor hh hp hs
      exact (hleast ⟨m', q', hm', hq', rfl⟩).trans hle'
    refine ⟨⟨anchor, p, rfl, hp, le_antisymm hle (hlower p hp)⟩, ?_⟩
    rintro _ ⟨_, p', rfl, hp', rfl⟩
    exact hlower p' hp'

end Paths

/-- Contracting a tree to one of its nodes keeps what is outside the tree, joins it to the anchor where it
was joined to the tree, as lightly as it was, and keeps which nodes are linked to the tree and how far they
are from it. -/
theorem contract_keeps_distance (hb : b.graph.WellFormed) (hanchor : t.contains anchor = true)
    (hnode : b.graph.hasNode anchor = true) :
    ∃ b', b.contract t anchor = .ok b' ∧ Contracted b.graph t anchor b'.graph ∧
      ∀ s, t.contains s = false →
        (b'.graph.Linked s anchor ↔ ∃ m, t.contains m = true ∧ b.graph.Linked s m) ∧
        ∀ d, (b'.graph.IsDistance s (· = anchor) d ↔
            b.graph.IsDistance s (fun m => t.contains m = true) d) ∧
          ((∃ p, b'.path? s anchor = some (d, p)) ↔ b'.graph.IsDistance s (· = anchor) d) := by
  obtain ⟨b', hb', hwell, hcontracted⟩ := exists_contract hb hanchor hnode
  refine ⟨b', hb', hcontracted, fun s hs => ⟨hcontracted.linked_iff hanchor hwell hs, fun d =>
    ⟨hcontracted.isDistance_iff hanchor hwell hs, exists_shortestPath?_iff hwell ?_⟩⟩⟩
  rintro rfl
  rw [hanchor] at hs
  cases hs

/-- A ring of bus tiles that is open at the left, with a data patch in the middle that touches both of its ends
with its X boundary, and another data patch at one of the ends. -/
def ringedLayout : Layout where
  bus := SortedSet.ofList [⟨0, 1⟩, ⟨1, 1⟩, ⟨1, 0⟩, ⟨1, -1⟩, ⟨0, -1⟩]
  data := SortedSet.ofList [⟨0, 0⟩, ⟨-1, -1⟩]
  magic := ∅
  zero := ∅
  storage := ∅

/-- The patch in the middle with all of the bus but one end, and a bus tile that the layout does not have. -/
def ringedTree : Tree :=
  [(.qubit 1 .X, .bus 1, patchWeight), (.bus 1, .bus 4, busWeight), (.bus 4, .bus 3, busWeight),
    (.bus 3, .bus 2, busWeight), (.bus 2, .bus 9, busWeight)].foldl
    (fun t (e : Node × Node × Nat) => t.addEdge e.1 e.2.1 e.2.2) ∅

/-- The end of the bus that is left touches the tree twice. Only the lighter edge counts, also for the way from
the patch behind it. -/
theorem ringedLayout_keeps_distance : ∃ b b', ofLayout ringedLayout = .ok b ∧
    b.contract ringedTree (.qubit 1 .X) = .ok b' ∧
    b.graph.weight? (.bus 0) (.qubit 1 .X) = some patchWeight ∧
    b'.graph.weight? (.bus 0) (.qubit 1 .X) = some busWeight ∧
    b.graph.IsDistance (.qubit 0 .Z) (fun m => ringedTree.contains m = true)
      (patchWeight + busWeight) := by
  have hrun : (ofLayout ringedLayout).toOption.any (fun b =>
      (b.contract ringedTree (.qubit 1 .X)).toOption.any fun b' =>
        (b'.path? (.qubit 0 .Z) (.qubit 1 .X)).any fun r =>
          decide (b.graph.hasNode (.qubit 1 .X) = true ∧
            b.graph.weight? (.bus 0) (.qubit 1 .X) = some patchWeight ∧
            b'.graph.weight? (.bus 0) (.qubit 1 .X) = some busWeight ∧
            r.1 = patchWeight + busWeight)) = true := by
    decide +kernel
  obtain ⟨b, hb, hrun⟩ := exists_of_any_toOption hrun
  obtain ⟨b', hb', hrun⟩ := exists_of_any_toOption hrun
  obtain ⟨⟨d, p⟩, hpath, hrun⟩ := (Option.any_eq_true _ _).1 hrun
  obtain ⟨hnode, hheavy, hlight, rfl⟩ := of_decide_eq_true hrun
  have hanchor : ringedTree.contains (.qubit 1 .X) = true := by decide
  obtain ⟨b'', hb'', -, hways⟩ := contract_keeps_distance (ofLayout_spec hb).1.graph hanchor hnode
  cases hb'.symm.trans hb''
  obtain ⟨-, hdistance⟩ := hways (.qubit 0 .Z) (by decide)
  obtain ⟨hsame, hfound⟩ := hdistance _
  exact ⟨b, b', hb, hb', hheavy, hlight, hsame.1 (hfound.1 ⟨p, hpath⟩)⟩

end Board

end LatticeSurgery
