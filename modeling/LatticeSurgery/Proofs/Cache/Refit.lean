import LatticeSurgery.Cache.Packings
import LatticeSurgery.Proofs.Board.Sound
import LatticeSurgery.Proofs.Collections
import LatticeSurgery.Proofs.Packing.Serving

/-!
# Fitting a cached packing

A cached packing is fitted to a rotation by renaming boundaries of data patches. Renaming keeps the
patch, so bus tiles and resource states keep their names, and a tree stays connected. What is
accepted is a tree of open nodes and edges of the board at hand with a resource that is ready
(`Packed.Refits`).
-/

namespace LatticeSurgery

open Ordered

namespace Rotation

variable {r s : Rotation} {n : Node}

/-- The required nodes are boundaries of data patches on which the rotation acts. -/
theorem exists_of_mem_requiredNodes (h : n ∈ r.requiredNodes) :
    ∃ q basis, n = .qubit q basis ∧ q ∈ r.activeQubits := by
  unfold requiredNodes at h
  split at h
  · rw [SortedSet.mem_map] at h
    obtain ⟨m, hm, rfl⟩ := h
    obtain ⟨q, basis, rfl, hq⟩ := exists_of_mem_activeNodes hm
    exact ⟨q, basis.flipped, rfl, hq⟩
  · exact exists_of_mem_activeNodes h

/-- Two rotations with the same key agree in kind and qubits. -/
theorem key_eq_iff : r.key = s.key ↔ r.kind = s.kind ∧ r.activeQubits = s.activeQubits := by
  unfold key
  rw [Prod.mk.injEq]
  refine and_congr_right fun _ => ⟨fun h => SortedSet.ext_mem fun q => ?_, fun h => by rw [h]⟩
  rw [SortedSet.mem_def, SortedSet.mem_def, h]

end Rotation

namespace Packed

variable {p q : Packed} {r : Rotation} {b : Board} {t : Tree} {required : SortedSet Node}
  {n m : Node}

/-! ## Renaming -/

/-- The new name of a node when boundaries that are missing take the places of their opposites. -/
def swapped (t : Tree) (required : SortedSet Node) (n : Node) : Node :=
  (boundarySwaps t required).getD n n

theorem get?_boundarySwaps : (boundarySwaps t required).get? m = some n ↔
    n ∈ required ∧ t.contains n = false ∧ m = n.opposite := by
  have hnodup : (((required.toList.filter fun n => !t.contains n).map
      fun n => (n.opposite, n)).map Prod.fst).Nodup := by
    rw [List.map_map]
    refine (required.nodup.filter _).map fun a b h => ?_
    rw [← Node.opposite_opposite a, ← Node.opposite_opposite b]
    exact congrArg Node.opposite h
  unfold boundarySwaps
  rw [SortedMap.get?_ofList_iff hnodup, List.mem_map]
  constructor
  · rintro ⟨a, ha, heq⟩
    obtain ⟨rfl, rfl⟩ := Prod.mk.inj heq
    obtain ⟨ha, hnot⟩ := List.mem_filter.1 ha
    exact ⟨ha, by simpa using hnot, rfl⟩
  · rintro ⟨hn, hnot, rfl⟩
    exact ⟨n, List.mem_filter.2 ⟨hn, by simp [hnot]⟩, rfl⟩

/-- A node keeps its name or takes that of its opposite, which is required and missing. -/
theorem swapped_cases (t : Tree) (required : SortedSet Node) (n : Node) :
    (swapped t required n = n ∧ (n.opposite ∈ required → t.contains n.opposite = true)) ∨
      (swapped t required n = n.opposite ∧ n.opposite ∈ required ∧
        t.contains n.opposite = false) := by
  unfold swapped
  rw [SortedMap.getD]
  cases h : (boundarySwaps t required).get? n with
  | none =>
    refine Or.inl ⟨rfl, fun hmem => ?_⟩
    by_contra hnot
    have hsome : (boundarySwaps t required).get? n = some n.opposite :=
      get?_boundarySwaps.2 ⟨hmem, by simpa using hnot, (Node.opposite_opposite n).symm⟩
    rw [h] at hsome
    cases hsome
  | some m =>
    obtain ⟨hm, hnot, rfl⟩ := get?_boundarySwaps.1 h
    rw [Node.opposite_opposite]
    exact Or.inr ⟨rfl, hm, hnot⟩

/-- Only boundaries of data patches are renamed, within their patch. -/
theorem swapped_eq_or (hrequired : ∀ n ∈ required, n.kind = .patch .qubit) (n : Node) :
    swapped t required n = n ∨
      (n.kind = .patch .qubit ∧ swapped t required n = n.opposite) := by
  rcases swapped_cases t required n with ⟨hsame, -⟩ | ⟨hswap, hmem, -⟩
  · exact Or.inl hsame
  · refine Or.inr ⟨?_, hswap⟩
    have hk := hrequired _ hmem
    cases n with
    | bus i => cases hk
    | boundary k i c => exact hk

/-- A required node is in the renamed tree when its opposite was in the tree, or when it was there
itself and its opposite is not required. -/
theorem exists_swapped_iff (hn : n ∈ required) (hk : n.kind = .patch .qubit) :
    (∃ m, t.contains m = true ∧ n = swapped t required m) ↔
      t.contains n.opposite = true ∨ (t.contains n = true ∧ n.opposite ∉ required) := by
  have hne : n ≠ n.opposite := by
    cases n with
    | bus i => cases hk
    | boundary k i c => cases c <;> simp [Node.opposite, Basis.flipped]
  constructor
  · rintro ⟨m, hm, hname⟩
    rcases swapped_cases t required m with ⟨hsame, hkept⟩ | ⟨hswap, hmem, hnot⟩
    · rw [hsame] at hname
      subst hname
      by_cases hopposite : n.opposite ∈ required
      · exact Or.inl (hkept hopposite)
      · exact Or.inr ⟨hm, hopposite⟩
    · rw [hswap] at hname
      subst hname
      rw [Node.opposite_opposite]
      exact Or.inl hm
  · rintro (hopposite | ⟨hself, hnot⟩)
    · by_cases hself : t.contains n = true
      · -- both boundaries are there, and neither is renamed
        refine ⟨n, hself, ?_⟩
        rcases swapped_cases t required n with ⟨hsame, -⟩ | ⟨-, -, hmissing⟩
        · exact hsame.symm
        · rw [hopposite] at hmissing
          cases hmissing
      · refine ⟨n.opposite, hopposite, ?_⟩
        rcases swapped_cases t required n.opposite with ⟨-, hkept⟩ | ⟨hswap, -, -⟩
        · rw [Node.opposite_opposite] at hkept
          exact absurd (hkept hn) hself
        · rw [hswap, Node.opposite_opposite]
    · refine ⟨n, hself, ?_⟩
      rcases swapped_cases t required n with ⟨hsame, -⟩ | ⟨-, hmem, -⟩
      · exact hsame.symm
      · exact absurd hmem hnot

/-! ## Fitting -/

/-- A cached packing `q` that was fitted to a rotation on a board. -/
structure Refits (b : Board) (q : Packed) (r : Rotation) (p : Packed) : Prop where
  /-- The rotation is the one at hand. -/
  rotation : p.rotation = r
  /-- The resource is the cached one. -/
  resource : p.resource = q.resource
  /-- The tree is sound. -/
  tree : p.tree.Sound
  /-- The nodes are the cached ones under their new names. -/
  nodes : ∀ n, p.tree.contains n = true ↔
    ∃ m, q.tree.contains m = true ∧ n = swapped q.tree r.requiredNodes m
  /-- The nodes belong to the board and are open. -/
  opened : ∀ n, p.tree.contains n = true → b.graph.hasNode n = true ∧ n ∉ b.unavailable
  /-- The edges are edges of the board. -/
  edge : ∀ n m, p.tree.shape.Adj n m → b.graph.Adj n m
  /-- The resource is ready. -/
  ready : resourceReady b q.resource = true
  /-- The data patches of the tree are not busy. -/
  free : ∀ id basis, q.tree.contains (.qubit id basis) = true →
    ∀ basis', Node.qubit id basis' ∉ b.unavailable

theorem refits_of_refit? (hq : q.tree.Sound) (h : q.refit? r b = some p) : Refits b q r p := by
  unfold refit? at h
  split at h
  · cases h
  · next hbusy =>
    obtain ⟨hfits, heq⟩ := Option.ite_none_right_eq_some.1 h
    cases heq
    rw [Bool.and_eq_true] at hfits
    obtain ⟨hfits, hready⟩ := hfits
    have hrename : ∀ n, (if (boundarySwaps q.tree r.requiredNodes).isEmpty then q.tree
        else q.tree.relabel (boundarySwaps q.tree r.requiredNodes)).contains n = true ↔
          ∃ m, q.tree.contains m = true ∧ n = swapped q.tree r.requiredNodes m := by
      intro n
      split
      · next hempty =>
        rw [SortedMap.isEmpty_iff] at hempty
        have hsame : ∀ m, swapped q.tree r.requiredNodes m = m := fun m => by
          rw [swapped, SortedMap.getD, hempty]
          rfl
        constructor
        · exact fun hn => ⟨n, hn, (hsame n).symm⟩
        · rintro ⟨m, hm, rfl⟩
          rw [hsame]
          exact hm
      · exact Tree.contains_relabel hq.wellFormed
    have hsound : (if (boundarySwaps q.tree r.requiredNodes).isEmpty then q.tree
        else q.tree.relabel (boundarySwaps q.tree r.requiredNodes)).Sound := by
      split
      · exact hq
      · exact hq.relabel
    unfold treeFits at hfits
    rw [Bool.and_eq_true, List.all_eq_true, List.all_eq_true] at hfits
    refine ⟨rfl, rfl, hsound, hrename, fun n hn => ?_, fun n m hnm => ?_, hready, ?_⟩
    · exact Board.isAvailable_iff.1 (hfits.1 n (Tree.mem_nodes.2 hn))
    · obtain ⟨e, he, ⟨rfl, rfl⟩ | ⟨rfl, rfl⟩⟩ := hsound.wellFormed.exists_mem_edgeList hnm
      · exact hfits.2 e he
      · exact Graph.Adj.symm (hfits.2 e he)
    · intro id basis hn basis' hclosed
      refine hbusy (List.any_eq_true.2 ⟨.qubit id basis, Tree.mem_nodes.2 hn, ?_⟩)
      rw [Bool.and_eq_true, SortedSet.contains_iff]
      exact ⟨by simp [Node.kind], Board.mem_busyQubits.2 ⟨basis', hclosed⟩⟩


namespace Refits

theorem swapped_eq_or (r : Rotation) (t : Tree) (n : Node) : swapped t r.requiredNodes n = n ∨
    (n.kind = .patch .qubit ∧ swapped t r.requiredNodes n = n.opposite) := by
  refine Packed.swapped_eq_or (fun n hn => ?_) n
  obtain ⟨id, basis, rfl, -⟩ := Rotation.exists_of_mem_requiredNodes hn
  rfl

/-- Other nodes than boundaries of data patches are in the tree when they were in the cached one. -/
theorem contains_of_contains (h : Refits b q r p) (hk : n.kind ≠ .patch .qubit)
    (hn : q.tree.contains n = true) : p.tree.contains n = true := by
  refine (h.nodes n).2 ⟨n, hn, ?_⟩
  rcases swapped_eq_or r q.tree n with hsame | ⟨hk', -⟩
  · exact hsame.symm
  · exact absurd hk' hk

/-- The required nodes that the tree contains. -/
theorem contains_required_iff (h : Refits b q r p) (hn : n ∈ r.requiredNodes) :
    p.tree.contains n = true ↔ q.tree.contains n.opposite = true ∨
      (q.tree.contains n = true ∧ n.opposite ∉ r.requiredNodes) := by
  rw [h.nodes]
  obtain ⟨id, basis, rfl, -⟩ := Rotation.exists_of_mem_requiredNodes hn
  exact exists_swapped_iff hn rfl

/-- The nodes of the resource stay in the tree. -/
theorem holds (h : Refits b q r p) (hq : q.Serves) : p.Holds := by
  have hholds := hq.holds
  unfold Holds at hholds ⊢
  rw [h.resource]
  split
  · next n hresource =>
    rw [hresource] at hholds
    exact h.contains_of_contains (by simp [hq.kind_of_magicState hresource]) hholds
  · next n hresource =>
    rw [hresource] at hholds
    exact h.contains_of_contains (by simp [hq.kind_of_storage hresource]) hholds
  · next id hresource =>
    rw [hresource] at hholds
    exact ⟨h.contains_of_contains (by simp [Node.kind]) hholds.1,
      h.contains_of_contains (by simp [Node.kind]) hholds.2⟩
  · trivial
  · trivial

end Refits

end Packed

end LatticeSurgery
