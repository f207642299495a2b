import LatticeSurgery.Proofs.Board.Reached
import LatticeSurgery.Proofs.Packing.Soundness

/-!
# The leaves of packed trees

A packed tree should be a tree whose leaves are the boundaries that its rotation joins and the nodes of
its resource (`Packed.EndsRight`). The tree of the boundaries alone is checked for this before a way to a
resource is joined to it, and the whole is not checked again. So the leaves are right exactly when no
boundary is crossed (`Packer.leaves_of_pack`), which is certain where each boundary has one neighbour.
Elsewhere a way may enter the tree at a boundary although a bus tile of the tree is as near.
-/

namespace LatticeSurgery

open Ordered LatticeSurgery.Graph

namespace Packed

variable {b : Board} {p : Packed}

/-! ## What the leaves should be -/

/-- A measurement joins its boundaries, a rotation by π/8 joins them with one magic state or storage, and
one by π/4 with both nodes of a zero state. -/
def EndsByKind (p : Packed) : Prop :=
  (p.rotation.kind = .measurement ∧ p.ends = p.rotation.activeNodes.toList) ∨
  (p.rotation.kind = .pi8 ∧ ∃ n, (n.kind = .patch .magic ∨ n.kind = .patch .storage) ∧
    p.ends = p.rotation.activeNodes.toList ++ [n]) ∨
  (p.rotation.kind = .pi4 ∧ ∃ id,
    p.ends = p.rotation.activeNodes.toList ++ [.zero id .X, .zero id .Z])

theorem Serves.endsByKind (h : p.Serves) (hk : p.rotation.kind ≠ .turn) : p.EndsByKind := by
  obtain ⟨r, t, resource⟩ := p
  cases hkind : r.kind with
  | pi8 =>
    obtain ⟨n, hn, rfl, -⟩ := h.of_pi8 hkind
    exact Or.inr (Or.inl ⟨hkind, n, hn, ends_magicResource r t n⟩)
  | pi4 =>
    obtain ⟨id, rfl, -⟩ := h.of_pi4 hkind
    exact Or.inr (Or.inr ⟨hkind, id, ends_zeroState r t id⟩)
  | measurement =>
    obtain rfl : resource = none := h.of_measurement hkind
    exact Or.inl ⟨hkind, ends_none r t⟩
  | turn => exact absurd hkind hk

/-- The packed tree is a tree, and its leaves are the boundaries of its rotation and the nodes of its
resource. A tree of a single node counts that node as a leaf. -/
structure EndsRight (p : Packed) : Prop where
  /-- There is one node more than there are edges. -/
  count : p.tree.shape.edgeCount + 1 = p.tree.shape.nodeCount
  /-- The leaves are what is to be joined. -/
  leaf : ∀ n, p.tree.contains n = true ∧ p.tree.degree n ≤ 1 ↔ n ∈ p.ends

instance (p : Packed) : Decidable p.EndsRight :=
  decidable_of_iff (p.tree.shape.edgeCount + 1 = p.tree.shape.nodeCount ∧
      (∀ n ∈ p.tree.shape.nodes, p.tree.degree n ≤ 1 → n ∈ p.ends) ∧
      ∀ n ∈ p.ends, p.tree.contains n = true ∧ p.tree.degree n ≤ 1) <| by
    constructor
    · rintro ⟨hcount, hleaf, hends⟩
      exact ⟨hcount, fun n => ⟨fun ⟨hn, hdegree⟩ => hleaf n (mem_nodes.2 hn) hdegree, hends n⟩⟩
    · rintro ⟨hcount, hleaf⟩
      exact ⟨hcount, fun n hn hdegree => (hleaf n).1 ⟨mem_nodes.1 hn, hdegree⟩,
        fun n hn => (hleaf n).2 hn⟩

/-- A tree that joins the right nodes has the right leaves when it crosses none of them. -/
theorem Shaped.endsRight_iff (h : p.Shaped) :
    p.EndsRight ↔ ∀ n ∈ p.ends, p.tree.degree n ≤ 1 := by
  constructor
  · exact fun hright n hn => ((hright.leaf n).2 hn).2
  · intro hdegree
    exact ⟨(h.isTree fun n hn _ => hdegree n hn).count,
      fun n => ⟨fun ⟨hn, hle⟩ => h.ends n hn hle, fun hn => ⟨h.contains n hn, hdegree n hn⟩⟩⟩

/-! ## What the leaves are -/

/-- A node has no more neighbours in a packed tree than on the board. -/
theorem Fresh.degree_le (hb : b.Sound) (h : p.Fresh b) (n : Node) :
    p.tree.degree n ≤ b.graph.degree n :=
  degree_le_of_adj h.tree.wellFormed hb.graph fun m hm => h.edge n m hm

/-- A way that ends in a magic state or a storage does not run on. -/
theorem Fresh.degree_le_one (hb : b.Sound) (hported : b.graph.Ported) (h : p.Fresh b)
    (hn : n.kind = .patch .magic ∨ n.kind = .patch .storage) : p.tree.degree n ≤ 1 :=
  (h.degree_le hb n).trans (hb.graph.degree_le_one fun m m' => hported.deadEnd n m m' hn)

/-- A packed tree crosses nothing that it joins but boundaries of data patches and zero states. -/
theorem Fresh.degree_le_one_iff (hb : b.Sound) (hported : b.graph.Ported) (h : p.Fresh b)
    (hk : p.rotation.kind ≠ .turn) : (∀ n ∈ p.ends, p.tree.degree n ≤ 1) ↔
      ∀ n ∈ p.ends, n.kind = .patch .qubit ∨ n.kind = .patch .zero → p.tree.degree n ≤ 1 := by
  refine ⟨fun hall n hn _ => hall n hn, fun hopen n hn => ?_⟩
  have hboundary : ∀ m ∈ p.rotation.activeNodes.toList, m.kind = .patch .qubit := fun m hm =>
    Rotation.kind_of_mem_activeNodes hm
  rcases h.serves.endsByKind hk with ⟨-, hends⟩ | ⟨-, m, hm, hends⟩ | ⟨-, id, hends⟩
  · exact hopen n hn (Or.inl (hboundary n (hends ▸ hn)))
  · rcases List.mem_append.1 (hends ▸ hn) with hactive | hresource
    · exact hopen n hn (Or.inl (hboundary n hactive))
    · exact h.degree_le_one hb hported (List.mem_singleton.1 hresource ▸ hm)
  · rcases List.mem_append.1 (hends ▸ hn) with hactive | hresource
    · exact hopen n hn (Or.inl (hboundary n hactive))
    · rcases List.mem_pair.1 hresource with rfl | rfl
      · exact hopen _ hn (Or.inr rfl)
      · exact hopen _ hn (Or.inr rfl)

/-- What is certain about the leaves of a tree that was packed on a board. -/
structure Leaves (b : Board) (p : Packed) : Prop where
  /-- What the rotation is to join. -/
  byKind : p.EndsByKind
  /-- All of it is in the tree. -/
  contains : ∀ n ∈ p.ends, p.tree.contains n = true
  /-- There are no other leaves. -/
  ends : ∀ n, p.tree.contains n = true → p.tree.degree n ≤ 1 → n ∈ p.ends
  /-- It is a tree, unless it runs through a node of its zero state. -/
  isTree : (∀ n ∈ p.ends, n.kind = .patch .zero → p.tree.degree n ≤ 1) → p.tree.shape.IsTree
  /-- The leaves are right exactly when the tree runs through no boundary that it is to join. -/
  endsRight_iff : p.EndsRight ↔ ∀ n ∈ p.ends, n.kind = .patch .qubit ∨ n.kind = .patch .zero →
    p.tree.degree n ≤ 1
  /-- They are right when no way is joined to a tree of several boundaries. -/
  endsRight_of_closed : p.rotation.kind = .measurement ∨
    (p.rotation.kind = .pi8 ∧ p.rotation.activeNodes.toList.length = 1) → p.EndsRight
  /-- They are right when each boundary has a single neighbour on the board. -/
  endsRight_of_board : (∀ n ∈ p.ends, n.kind = .patch .qubit ∨ n.kind = .patch .zero →
    b.graph.degree n ≤ 1) → p.EndsRight

theorem Shaped.leaves (hb : b.Sound) (hported : b.graph.Ported) (hfresh : p.Fresh b)
    (hk : p.rotation.kind ≠ .turn) (h : p.Shaped) : p.Leaves b := by
  have hiff := h.endsRight_iff.trans (hfresh.degree_le_one_iff hb hported hk)
  refine ⟨hfresh.serves.endsByKind hk, h.contains, h.ends, h.isTree, hiff, ?_, ?_⟩
  · exact fun hclosed => h.endsRight_iff.2 (h.closed hclosed)
  · exact fun hboard => hiff.2 fun n hn hkind => (hfresh.degree_le hb n).trans (hboard n hn hkind)

end Packed

namespace Packer

/-- What is packed on a board of a layout is found there, and turns apart it has the right shape. -/
theorem shaped_of_pack {σ : Type} [WordSource σ] {l : Layout} {p : Packer} (hp : Packer.Used l p)
    {b : Board} (hb : Board.Stage l b) {rotations : List Rotation} {f : Factories} {rng : σ}
    {r : Packer.Result σ} (hr : p.pack rotations b f rng = .ok r) :
    ∀ q ∈ r.packed, q.Fresh b ∧ (q.rotation.kind ≠ .turn → q.Shaped) := by
  intro q hq
  have hsound := (pack_ends hp.sound hb.sound f rng rotations).of_ok hr
  have hfresh : q.Fresh b := hsound.fresh q hq
  obtain ⟨b₀, -, -, hfound⟩ := hsound.found
  exact ⟨hfresh, fun hk =>
    (hfound q hq).shaped fun hturn => hk (hfresh.serves.turning_iff.1 hturn)⟩

/-- The trees that are packed on a board of a layout join what they are to join and have no other
leaves; these are the right leaves exactly when none of them is crossed. -/
theorem leaves_of_pack {σ : Type} [WordSource σ] {l : Layout} {p : Packer} (hp : Packer.Used l p)
    {b : Board} (hb : Board.Stage l b) {rotations : List Rotation} {f : Factories} {rng : σ}
    {r : Packer.Result σ} (hr : p.pack rotations b f rng = .ok r) :
    ∀ q ∈ r.packed, q.rotation.kind ≠ .turn → q.Leaves b := by
  intro q hq hk
  obtain ⟨hfresh, hshaped⟩ := shaped_of_pack hp hb hr q hq
  exact (hshaped hk).leaves hb.sound hb.ported hfresh hk

/-- A packing on the board at the start that passes a test. -/
theorem exists_pack_of_any {l : Layout} {rotations : List Rotation} {f : Factories}
    {P : Packer.Result CyclicWords → Prop} [DecidablePred P]
    (h : (Board.ofLayout l).toOption.any (fun b => ((Packer.new 3 .never .never).pack rotations b f
      (⟨[], 0⟩ : CyclicWords)).toOption.any fun r => decide (P r)) = true) :
    ∃ b r, Board.ofLayout l = .ok b ∧ (Packer.new 3 .never .never).pack rotations b f
      (⟨[], 0⟩ : CyclicWords) = .ok r ∧ P r := by
  obtain ⟨b, hb, h⟩ := exists_of_any_toOption h
  obtain ⟨r, hr, h⟩ := exists_of_any_toOption h
  exact ⟨b, r, hb, hr, decide_eq_true_eq.mp h⟩

/-- The third data patch lies between two bus tiles at its X boundary. From the one below, the bus leads
around the patch and past the last two data patches to the one above, which is beside the magic state
and the bus tile that the first two data patches share. -/
def detourLayout : Layout where
  bus := SortedSet.ofList [⟨-1, 1⟩, ⟨0, -1⟩, ⟨0, 1⟩, ⟨0, 2⟩, ⟨1, -1⟩, ⟨1, 0⟩, ⟨1, 1⟩]
  data := SortedSet.ofList [⟨-2, 1⟩, ⟨-1, 0⟩, ⟨0, 0⟩, ⟨2, -1⟩, ⟨2, 1⟩]
  magic := SortedSet.ofList [⟨0, 3⟩]
  zero := ∅
  storage := ∅

/-- The first two data patches are measured while the three others are rotated by π/8 together. -/
def detourRotations : List Rotation :=
  [⟨0, .measurement, .plus, SortedSet.ofList [1], ∅, SortedSet.ofList [0]⟩,
    ⟨1, .pi8, .plus, SortedSet.ofList [2], ∅, SortedSet.ofList [3, 4]⟩]

/-- Both rotations are packed in a tick, and the leaves of the second tree are not right. -/
theorem exists_detour : ∃ b r, Board.ofLayout detourLayout = .ok b ∧
    (Packer.new 3 .never .never).pack detourRotations b benchFactories
      (⟨[], 0⟩ : CyclicWords) = .ok r ∧
    (∃ q ∈ r.packed, q.rotation.kind = .measurement) ∧
      ∃ q ∈ r.packed, q.rotation.kind = .pi8 ∧ ¬ q.EndsRight :=
  exists_pack_of_any (by decide +kernel)

/-- The leaves of the first tree are. -/
theorem detourRotations_leaves : ∃ b r, Board.ofLayout detourLayout = .ok b ∧
    (Packer.new 3 .never .never).pack detourRotations b benchFactories
      (⟨[], 0⟩ : CyclicWords) = .ok r ∧
    ∃ q ∈ r.packed, q.rotation.kind = .measurement ∧ q.Leaves b ∧ q.EndsRight := by
  obtain ⟨b, r, hb, hr, ⟨q, hq, hk⟩, -⟩ := exists_detour
  have hturn : q.rotation.kind ≠ .turn := by
    rw [hk]
    decide
  have hleaves : q.Leaves b := leaves_of_pack (.new 3 .never .never) (.ofLayout hb) hr q hq hturn
  exact ⟨b, r, hb, hr, q, hq, hk, hleaves, hleaves.endsRight_of_closed (Or.inl hk)⟩

/-- The two bus tiles on the right of the zero state are joined to the other five through it only. -/
def ringLayout : Layout where
  bus := SortedSet.ofList [⟨0, 1⟩, ⟨0, 2⟩, ⟨1, 0⟩, ⟨1, 1⟩, ⟨2, 0⟩, ⟨3, 1⟩, ⟨3, 2⟩]
  data := SortedSet.ofList [⟨3, 0⟩, ⟨1, 2⟩]
  magic := ∅
  zero := SortedSet.ofList [⟨2, 1⟩, ⟨2, 2⟩]
  storage := ∅

/-- A rotation by π/4 that needs both boundaries of one data patch and one of the other. -/
def ringRotation : Rotation := ⟨0, .pi4, .plus, ∅, SortedSet.ofList [1], SortedSet.ofList [0]⟩

/-- The rotation is packed, and there are as many edges as nodes. -/
theorem exists_ring : ∃ b r, Board.ofLayout ringLayout = .ok b ∧
    (Packer.new 3 .never .never).pack [ringRotation] b ⟨0, 0, [], ∅⟩
      (⟨[], 0⟩ : CyclicWords) = .ok r ∧
    ∃ q ∈ r.packed, q.rotation.kind = .pi4 ∧
      q.tree.shape.edgeCount = q.tree.shape.nodeCount :=
  exists_pack_of_any (by decide +kernel)

/-- A way to a magic state may enter the tree of the boundaries at one of them, which is then no leaf;
and the nodes of a zero state may be joined to a tree that runs through them already, which closes a
cycle. -/
theorem exists_crossed_and_cyclic :
    (∃ p b r, Packer.Used detourLayout p ∧ Board.Stage detourLayout b ∧
      p.pack detourRotations b benchFactories (⟨[], 0⟩ : CyclicWords) = .ok r ∧
      ∃ q ∈ r.packed, q.rotation.kind = .pi8 ∧ ¬ q.EndsRight) ∧
    ∃ p b r, Packer.Used ringLayout p ∧ Board.Stage ringLayout b ∧
      p.pack [ringRotation] b ⟨0, 0, [], ∅⟩ (⟨[], 0⟩ : CyclicWords) = .ok r ∧
      ∃ q ∈ r.packed, q.rotation.kind = .pi4 ∧
        q.tree.shape.edgeCount = q.tree.shape.nodeCount := by
  obtain ⟨b, r, hb, hr, -, hcrossed⟩ := exists_detour
  obtain ⟨b', r', hb', hr', hcyclic⟩ := exists_ring
  exact ⟨⟨_, b, r, .new 3 .never .never, .ofLayout hb, hr, hcrossed⟩,
    _, b', r', .new 3 .never .never, .ofLayout hb', hr', hcyclic⟩

end Packer

end LatticeSurgery
