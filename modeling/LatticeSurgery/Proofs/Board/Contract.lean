import LatticeSurgery.Board.Contract
import LatticeSurgery.Proofs.Board.Clock
import LatticeSurgery.Proofs.Tree.Assembly
import Mathlib.Order.Bounds.Basic

/-!
# Working copies of a board

A restricted board is part of the board. On a contracted one, a step between two nodes other than
the anchor is a step of the board outside the tree, and a step to the anchor stands for a step into
the tree (`Contracts`).
-/

namespace LatticeSurgery

open Ordered LatticeSurgery.Graph

/-- Of two numbers in a set, the larger one does not matter for the least one. -/
theorem isLeast_or_min {p : Nat → Prop} {v v' w : Nat} :
    IsLeast {x | x = min v v' ∨ p x} w ↔ IsLeast {x | x = v ∨ x = v' ∨ p x} w := by
  constructor
  · rintro ⟨hw, hleast⟩
    refine ⟨?_, ?_⟩
    · rcases hw with rfl | hw
      · rcases le_total v v' with h | h
        · exact Or.inl (min_eq_left h)
        · exact Or.inr (Or.inl (min_eq_right h))
      · exact Or.inr (Or.inr hw)
    · have hmin := hleast (Or.inl rfl)
      rintro x (rfl | rfl | hx)
      · exact hmin.trans (min_le_left _ _)
      · exact hmin.trans (min_le_right _ _)
      · exact hleast (Or.inr hx)
  · rintro ⟨hw, hleast⟩
    have hv := hleast (Or.inl rfl)
    have hv' := hleast (Or.inr (Or.inl rfl))
    refine ⟨?_, ?_⟩
    · rcases hw with rfl | rfl | hw
      · exact Or.inl (min_eq_left hv').symm
      · exact Or.inl (min_eq_right hv).symm
      · exact Or.inr hw
    · rintro x (rfl | hx)
      · exact le_min hv hv'
      · exact hleast (Or.inr (Or.inr hx))

namespace Board

variable {b b' : Board} {t : Tree} {anchor n m : Node} {w : Nat}

theorem restrictTo_within (hb : b.graph.WellFormed) (terminals : List Node) (kind : RotationKind) :
    (b.restrictTo terminals kind).graph.Within b.graph :=
  removeNodes_within hb _

theorem wellFormed_restrictTo (hb : b.graph.WellFormed) (terminals : List Node)
    (kind : RotationKind) : (b.restrictTo terminals kind).graph.WellFormed := by
  unfold restrictTo
  rw [graph_removeNodes]
  exact hb.foldl_removeNode _

/-- A node outside keeps the least weight with which it is listed. -/
theorem get?_foldl_upsert_min (members : SortedSet Node) (l : List (Node × Nat))
    (s : SortedMap Node Nat) : (l.foldl (fun m e =>
      if members.contains e.1 then m
      else m.upsert e.1 fun known => min (known.getD e.2) e.2) s).get? n = some w ↔
        IsLeast {w | s.get? n = some w ∨ n ∉ members ∧ (n, w) ∈ l} w := by
  induction l generalizing s with
  | nil =>
    simp only [List.foldl_nil, List.not_mem_nil, and_false, or_false]
    refine ⟨fun h => ⟨h, fun x hx => ?_⟩, And.left⟩
    exact (Option.some.inj (h.symm.trans hx)).le
  | cons e es ih =>
    rw [List.foldl_cons, ih]
    by_cases he : e.1 = n ∧ n ∉ members
    · obtain ⟨rfl, hn⟩ := he
      have hnot : ¬ members.contains e.1 = true := by simpa using hn
      have hnew : ∀ x, (e.1, x) ∈ e :: es ↔ x = e.2 ∨ (e.1, x) ∈ es := by
        intro x
        rw [List.mem_cons, Prod.ext_iff]
        simp
      simp only [if_neg hnot, SortedMap.upsert, SortedMap.get?_insert_self, hnew, Option.some_inj, hn,
        not_false_iff, true_and]
      cases s.get? e.1 with
      | none => simp [eq_comm]
      | some v =>
        simp only [Option.getD_some, Option.some_inj, eq_comm (a := v)]
        rw [← isLeast_or_min]
        simp only [eq_comm]
    · have hsame : (if members.contains e.1 then s
          else s.upsert e.1 fun known => min (known.getD e.2) e.2).get? n = s.get? n := by
        split
        · rfl
        · next hout =>
          refine SortedMap.get?_insert_ne _ ?_ _
          rintro rfl
          exact he ⟨rfl, by simpa using hout⟩
      have hold : ∀ x, n ∉ members ∧ (n, x) ∈ e :: es ↔ n ∉ members ∧ (n, x) ∈ es := by
        refine fun x => and_congr_right fun hn => List.mem_cons.trans (or_iff_right ?_)
        rintro rfl
        exact he ⟨rfl, hn⟩
      simp only [hsame, hold]

/-- The neighbours of some nodes that are collected are those outside, each with the least weight. -/
theorem get?_outsideOf {members : SortedSet Node} : (b.outsideOf members).get? n = some w ↔
    IsLeast {w | n ∉ members ∧ ∃ m ∈ members, (n, w) ∈ b.graph.incident m} w := by
  unfold outsideOf
  rw [get?_foldl_upsert_min]
  simp only [SortedMap.get?_empty, reduceCtorEq, false_or, List.mem_flatMap, SortedSet.mem_toList]

/-- A neighbour of some nodes that is collected is joined to one of them and is none of them. -/
theorem mem_outsideOf {members : SortedSet Node} (h : (n, w) ∈ (b.outsideOf members).entries) :
    n ∉ members ∧ ∃ m ∈ members, b.graph.Adj m n := by
  obtain ⟨⟨hn, m, hm, he⟩, -⟩ := get?_outsideOf.1 (SortedMap.mem_entries_iff.1 h)
  exact ⟨hn, m, hm, adj_of_mem_incident he⟩

/-! ## Contracting a tree -/

/-- The board without the nodes of a tree other than the anchor, and without the edges of the anchor. -/
def stripTree (b : Board) (t : Tree) (anchor : Node) : Board :=
  ((b.removeNodes (t.nodeSet.erase anchor).toList).detach anchor).2

theorem contract_eq (hanchor : t.contains anchor = true) : b.contract t anchor = .ok
    { (b.stripTree t anchor).attach anchor (b.outsideOf t.nodeSet).entries with
      anchor := some anchor } :=
  if_pos hanchor

theorem wellFormed_stripTree (hb : b.graph.WellFormed) : (b.stripTree t anchor).graph.WellFormed := by
  refine wellFormed_detach ?_
  rw [graph_removeNodes]
  exact hb.foldl_removeNode _

theorem not_mem_erase_nodeSet : n ∉ (t.nodeSet.erase anchor).toList ↔
    (t.contains n = true → n = anchor) := by
  rw [SortedSet.mem_toList, SortedSet.mem_erase, Tree.mem_nodeSet, not_and, ne_eq, not_not,
    eq_comm (a := anchor)]

theorem hasNode_stripTree : (b.stripTree t anchor).graph.hasNode n = true ↔
    b.graph.hasNode n = true ∧ (t.contains n = true → n = anchor) := by
  rw [stripTree, hasNode_detach, hasNode_removeNodes, not_mem_erase_nodeSet]

/-- The edges that are left have both ends outside the tree. -/
theorem weight?_stripTree (hb : b.graph.WellFormed) (hanchor : t.contains anchor = true) :
    (b.stripTree t anchor).graph.weight? n m = some w ↔
      b.graph.weight? n m = some w ∧ t.contains n = false ∧ t.contains m = false := by
  have hwell : (b.removeNodes (t.nodeSet.erase anchor).toList).graph.WellFormed := by
    rw [graph_removeNodes]
    exact hb.foldl_removeNode _
  have hout : ∀ k, (t.contains k = true → k = anchor) ∧ k ≠ anchor ↔ t.contains k = false := by
    intro k
    rw [← Bool.not_eq_true]
    refine ⟨fun h hk => h.2 (h.1 hk), fun h => ⟨fun hk => absurd hk h, ?_⟩⟩
    rintro rfl
    exact h hanchor
  rw [stripTree, weight?_detach hwell, graph_removeNodes, weight?_foldl_removeNode _ hb,
    not_mem_erase_nodeSet, not_mem_erase_nodeSet, ← hout, ← hout]
  tauto

/-- What contracting a tree to one of its nodes leaves of a graph. -/
structure Contracts (g : Graph Node) (t : Tree) (anchor : Node) (h : Graph Node) : Prop where
  wellFormed : h.WellFormed
  node : ∀ n, h.hasNode n = true → n ≠ anchor → g.hasNode n = true ∧ t.contains n = false
  edge : ∀ n m, h.Adj n m → n ≠ anchor → m ≠ anchor → g.Adj n m
  enter : ∀ n, h.Adj n anchor → t.contains n = false ∧ ∃ m, t.contains m = true ∧ g.Adj n m

theorem contract_ends (hb : b.graph.WellFormed) (hanchor : t.contains anchor = true) :
    Ends (b.contract t anchor) (fun _ => False) fun b' => Contracts b.graph t anchor b'.graph := by
  have hwell : (b.stripTree t anchor).graph.WellFormed := wellFormed_stripTree hb
  have hadj : ∀ n m, (b.stripTree t anchor).graph.Adj n m → b.graph.Adj n m ∧
      t.contains n = false ∧ t.contains m = false := by
    intro n m h
    obtain ⟨w, hw⟩ := adj_iff.1 h
    obtain ⟨hw, hout⟩ := (weight?_stripTree hb hanchor).1 hw
    exact ⟨adj_iff.2 ⟨w, hw⟩, hout⟩
  have houtside : ∀ e ∈ (b.outsideOf t.nodeSet).entries,
      t.contains e.1 = false ∧ ∃ m, t.contains m = true ∧ b.graph.Adj m e.1 := by
    intro e he
    obtain ⟨hn, m, hm, hadj⟩ := mem_outsideOf he
    rw [Tree.mem_nodeSet] at hn hm
    exact ⟨by simpa using hn, m, hm, hadj⟩
  rw [contract_eq hanchor]
  refine ⟨wellFormed_attach hwell _, fun n hn hne => ?_, fun n m h hn hm => ?_, fun n h => ?_⟩
  · rcases (hasNode_attach hwell).1 hn with hn | ⟨e, he, rfl | rfl⟩
    · obtain ⟨hnode, hcontains⟩ := hasNode_stripTree.1 hn
      exact ⟨hnode, by simpa using fun h => hne (hcontains h)⟩
    · exact absurd rfl hne
    · obtain ⟨hout, m, -, hadj⟩ := houtside e he
      exact ⟨hb.hasNode_right hadj, hout⟩
  · rcases adj_attach.1 h with h | ⟨e, -, ⟨rfl, -⟩ | ⟨-, rfl⟩⟩
    · exact (hadj n m h).1
    · exact absurd rfl hn
    · exact absurd rfl hm
  · rcases adj_attach.1 h with h | ⟨e, he, ⟨rfl, heq⟩ | ⟨rfl, -⟩⟩
    · exact absurd hanchor (by simp [(hadj n anchor h).2.2])
    · -- a neighbour outside the tree is not the anchor
      have hout := (houtside e he).1
      rw [← heq, hanchor] at hout
      cases hout
    · obtain ⟨hout, m, hm, hadj⟩ := houtside e he
      exact ⟨hout, m, hm, hadj.symm⟩

end Board

end LatticeSurgery
