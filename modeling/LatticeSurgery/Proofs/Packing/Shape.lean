import LatticeSurgery.Proofs.Packing.Serving

/-!
# The shape of a packed tree

A packed tree contains the boundaries that its rotation needs and the nodes of its resource, and has
no other ends (`Packed.Shaped`). Whether each of these nodes is an end is another matter: only the tree
of the boundaries is made so, and a way to a resource may be joined to it at a boundary.
-/

namespace LatticeSurgery

open LatticeSurgery.Graph

/-- The nodes of a resource. -/
def Resource.nodes : Resource → List Node
  | .magicState n | .storage n | .bus n => [n]
  | .zeroState id => [.zero id .X, .zero id .Z]

theorem Resource.nodes_magicResource (n : Node) : (Packer.magicResource n).nodes = [n] := by
  unfold Packer.magicResource
  split <;> rfl

namespace Packed

variable {p : Packed} {n : Node}

/-- The boundaries that a packed rotation needs and the nodes of its resource. -/
def ends (p : Packed) : List Node :=
  p.rotation.activeNodes.toList ++ (p.resource.map Resource.nodes).getD []

/-- What the trees of all packed rotations but turns have in common. -/
structure Shaped (p : Packed) : Prop where
  /-- The tree contains what it is to join. -/
  contains : ∀ n ∈ p.ends, p.tree.contains n = true
  /-- It has no other ends. -/
  ends : ∀ n, p.tree.contains n = true → p.tree.degree n ≤ 1 → n ∈ p.ends
  /-- It is a tree, unless it runs through a boundary of its zero state. -/
  isTree : (∀ n ∈ p.ends, n.kind = .patch .zero → p.tree.degree n ≤ 1) → p.tree.shape.IsTree
  /-- Without a resource, or with a single boundary at the other end of the way to a magic state, all
  of these nodes are ends. -/
  closed : p.rotation.kind = .measurement ∨
    (p.rotation.kind = .pi8 ∧ p.rotation.activeNodes.toList.length = 1) →
      ∀ n ∈ p.ends, p.tree.degree n ≤ 1

theorem ends_none (r : Rotation) (t : Tree) : ends ⟨r, t, none⟩ = r.activeNodes.toList :=
  List.append_nil _

theorem ends_magicResource (r : Rotation) (t : Tree) (n : Node) :
    ends ⟨r, t, some (Packer.magicResource n)⟩ = r.activeNodes.toList ++ [n] := by
  unfold ends
  rw [Option.map_some, Resource.nodes_magicResource]
  rfl

theorem ends_zeroState (r : Rotation) (t : Tree) (id : Nat) :
    ends ⟨r, t, some (.zeroState id)⟩ = r.activeNodes.toList ++ [.zero id .X, .zero id .Z] := rfl

theorem shaped_of_trim (hcontains : ∀ n ∈ p.ends, p.tree.contains n = true)
    (htrim : p.tree.Trim p.ends) (hclosed : p.rotation.kind = .measurement ∨
      (p.rotation.kind = .pi8 ∧ p.rotation.activeNodes.toList.length = 1) →
        ∀ n ∈ p.ends, p.tree.degree n ≤ 1) : p.Shaped :=
  ⟨hcontains, htrim.ends, fun _ => htrim.isTree, hclosed⟩

/-- A measurement needs nothing but the tree of its boundaries. -/
theorem shaped_measurement {r : Rotation} {t : Tree}
    (hcontains : ∀ n ∈ r.activeNodes.toList, t.contains n = true)
    (htrim : t.Trim r.activeNodes.toList) (hends : ∀ n ∈ r.activeNodes.toList, t.degree n ≤ 1) :
    Shaped ⟨r, t, none⟩ :=
  have hnodes := ends_none r t
  shaped_of_trim (hnodes ▸ hcontains) (hnodes ▸ htrim) fun _ => hnodes ▸ hends

/-- A way to a magic state is joined to a tree without other ends. -/
theorem shaped_magicResource {r : Rotation} {t : Tree} (hk : r.kind = .pi8)
    (hcontains : ∀ m ∈ r.activeNodes.toList ++ [n], t.contains m = true)
    (htrim : t.Trim (r.activeNodes.toList ++ [n]))
    (halone : r.activeNodes.toList.length = 1 →
      ∀ m ∈ r.activeNodes.toList ++ [n], t.degree m ≤ 1) :
    Shaped ⟨r, t, some (Packer.magicResource n)⟩ := by
  have hnodes := ends_magicResource r t n
  refine shaped_of_trim (hnodes ▸ hcontains) (hnodes ▸ htrim) ?_
  rintro (hmeasured | ⟨-, hlength⟩)
  · cases hk.symm.trans hmeasured
  · exact hnodes ▸ halone hlength

/-- A zero state that is joined may lie on the tree of the boundaries, which is then no tree. -/
theorem shaped_zeroState {r : Rotation} {t : Tree} {id : Nat} (hk : r.kind = .pi4)
    (hcontains : ∀ m ∈ r.activeNodes.toList, t.contains m = true)
    (hzero : ∀ basis, t.contains (.zero id basis) = true)
    (hends : ∀ m, t.contains m = true → t.degree m ≤ 1 →
      m ∈ r.activeNodes.toList ++ [.zero id .X, .zero id .Z])
    (hisTree : (∀ basis, t.degree (.zero id basis) ≤ 1) → t.shape.IsTree) :
    Shaped ⟨r, t, some (.zeroState id)⟩ := by
  have hnodes := ends_zeroState r t id
  refine ⟨fun m hm => ?_, hnodes ▸ hends, fun hdegree => hisTree fun basis => ?_, ?_⟩
  · rcases List.mem_append.1 (hnodes ▸ hm) with hm | hm
    · exact hcontains m hm
    · rcases List.mem_pair.1 hm with rfl | rfl <;> exact hzero _
  · refine hdegree _ (hnodes ▸ List.mem_append_right _ ?_) rfl
    cases basis <;> simp
  · rintro (hmeasured | ⟨heighth, -⟩)
    · cases hk.symm.trans hmeasured
    · cases hk.symm.trans heighth

theorem shaped_single {r : Rotation} (h : r.activeNodes.toList = [n]) :
    Shaped ⟨r, Tree.single n, none⟩ := by
  refine shaped_measurement (fun m hm => ?_) (h ▸ Tree.trim_single n) fun m _ => ?_
  · exact Tree.contains_single.2 (List.mem_singleton.1 (h ▸ hm))
  · exact (Tree.sound_single n).wellFormed.degree_le_one fun _ _ hadj =>
      absurd hadj Tree.not_adj_single

end Packed

end LatticeSurgery
