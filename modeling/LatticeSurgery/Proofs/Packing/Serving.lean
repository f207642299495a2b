import LatticeSurgery.Proofs.Board.Routing
import LatticeSurgery.Proofs.Dependency.Commutation
import LatticeSurgery.Proofs.Packing.Committing

/-!
# What a packing must contain

A packed rotation serves its rotation when its tree contains the boundaries and the resource that
the kind of the rotation asks for, and no other boundaries (`Packed.Serves`). The tree of a turn is
the boundary that faces the bus, together with a bus tile.
-/

namespace LatticeSurgery

open Ordered

namespace Rotation

variable {r : Rotation} {n : Node} {q : Nat}

/-- A boundary that a rotation needs belongs to one of its qubits. -/
theorem exists_of_mem_activeNodes (h : n ∈ r.activeNodes) :
    ∃ q basis, n = .qubit q basis ∧ q ∈ r.activeQubits := by
  unfold activeNodes at h
  simp only [SortedSet.mem_union, SortedSet.mem_map] at h
  rcases h with ⟨q, hq, rfl⟩ | ⟨q, hq, rfl⟩
  · exact ⟨q, .X, rfl, mem_activeQubits.2 (by tauto)⟩
  · exact ⟨q, .Z, rfl, mem_activeQubits.2 (by tauto)⟩

/-- A qubit is used through one of its boundaries at least. -/
theorem exists_mem_activeNodes (hq : q ∈ r.activeQubits) :
    ∃ basis, Node.qubit q basis ∈ r.activeNodes := by
  have hmem : ∀ basis, Node.qubit q basis ∈ r.activeNodes ↔
      (basis = .X ∧ (q ∈ r.x ∨ q ∈ r.y)) ∨ (basis = .Z ∧ (q ∈ r.z ∨ q ∈ r.y)) := by
    intro basis
    unfold activeNodes
    simp only [SortedSet.mem_union, SortedSet.mem_map]
    cases basis <;> simp [Node.qubit]
  rcases mem_activeQubits.1 hq with h | h | h
  · exact ⟨.X, (hmem _).2 (Or.inl ⟨rfl, Or.inl h⟩)⟩
  · exact ⟨.X, (hmem _).2 (Or.inl ⟨rfl, Or.inr h⟩)⟩
  · exact ⟨.Z, (hmem _).2 (Or.inr ⟨rfl, Or.inl h⟩)⟩

theorem kind_of_mem_activeNodes (h : n ∈ r.activeNodes) : n.kind = .patch .qubit := by
  obtain ⟨q, basis, rfl, -⟩ := exists_of_mem_activeNodes h
  rfl

theorem id_mem_activeQubits (h : n ∈ r.activeNodes) : n.id ∈ r.activeQubits := by
  obtain ⟨q, basis, rfl, hq⟩ := exists_of_mem_activeNodes h
  exact hq

end Rotation

namespace Packed

variable {p : Packed}

/-- The boundaries of data patches in the tree are those that the rotation needs. -/
def Spans (p : Packed) : Prop :=
  ∀ n, n.kind = .patch .qubit → (p.tree.contains n = true ↔ n ∈ p.rotation.activeNodes)

/-- The tree and the resource are what the kind of the rotation asks for. -/
def Serves (p : Packed) : Prop :=
  match p.rotation.kind with
  | .pi8 => p.Spans ∧ ∃ n, (n.kind = .patch .magic ∨ n.kind = .patch .storage) ∧
      p.resource = some (Packer.magicResource n) ∧ p.tree.contains n = true
  | .pi4 => p.Spans ∧ ∃ id, p.resource = some (.zeroState id) ∧
      p.tree.contains (.zero id .X) = true ∧ p.tree.contains (.zero id .Z) = true
  | .measurement => p.Spans ∧ p.resource = none
  | .turn => ∃ edge ∈ p.rotation.activeNodes, p.rotation.activeNodes.toList.head? = some edge ∧
    ∃ bus, bus.isBus = true ∧ p.resource = some (.bus bus) ∧
      ∀ n, p.tree.contains n = true ↔ n = edge.opposite ∨ n = bus

theorem Serves.turning_iff (h : p.Serves) : p.Turning ↔ p.rotation.kind = .turn := by
  unfold Serves at h
  unfold Turning
  split at h
  · next hk =>
    obtain ⟨-, n, -, hr, -⟩ := h
    rw [hr, hk]
    unfold Packer.magicResource
    split <;> simp
  · next hk =>
    obtain ⟨-, id, hr, -⟩ := h
    rw [hr, hk]
    simp
  · next hk =>
    rw [h.2, hk]
    simp
  · next hk =>
    obtain ⟨edge, -, -, bus, -, hr, -⟩ := h
    rw [hr, hk]
    simp

theorem Serves.of_turn (h : p.Serves) (hk : p.rotation.kind = .turn) :
    ∃ edge ∈ p.rotation.activeNodes, p.rotation.activeNodes.toList.head? = some edge ∧
      ∃ bus, bus.isBus = true ∧ p.resource = some (.bus bus) ∧
        ∀ n, p.tree.contains n = true ↔ n = edge.opposite ∨ n = bus := by
  unfold Serves at h
  rw [hk] at h
  exact h

/-- Any other rotation than a turn is served by a tree with its boundaries. -/
theorem Serves.spans (h : p.Serves) (hk : p.rotation.kind ≠ .turn) : p.Spans := by
  unfold Serves at h
  split at h
  · exact h.1
  · exact h.1
  · exact h.1
  · next hturn => exact absurd hturn hk

/-- A π/8 rotation is served by the resource that a node of the tree delivers. -/
theorem Serves.of_pi8 (h : p.Serves) (hk : p.rotation.kind = .pi8) :
    ∃ n, (n.kind = .patch .magic ∨ n.kind = .patch .storage) ∧
      p.resource = some (Packer.magicResource n) ∧ p.tree.contains n = true := by
  unfold Serves at h
  rw [hk] at h
  exact h.2

/-- A π/4 rotation is served by both nodes of a zero state. -/
theorem Serves.of_pi4 (h : p.Serves) (hk : p.rotation.kind = .pi4) :
    ∃ id, p.resource = some (.zeroState id) ∧ p.tree.contains (.zero id .X) = true ∧
      p.tree.contains (.zero id .Z) = true := by
  unfold Serves at h
  rw [hk] at h
  exact h.2

/-- A measurement is served without a resource. -/
theorem Serves.of_measurement (h : p.Serves) (hk : p.rotation.kind = .measurement) :
    p.resource = none := by
  unfold Serves at h
  rw [hk] at h
  exact h.2

/-- A magic state as a resource is a magic state. -/
theorem Serves.kind_of_magicState (h : p.Serves) {n : Node}
    (hr : p.resource = some (.magicState n)) : n.kind = .patch .magic := by
  unfold Serves at h
  split at h
  · obtain ⟨-, m, hk, hm, -⟩ := h
    rw [hr, Option.some_inj] at hm
    unfold Packer.magicResource at hm
    split at hm
    · cases hm
    · next hnot =>
      cases hm
      exact hk.resolve_right hnot
  · obtain ⟨-, id, hid, -⟩ := h
    rw [hr] at hid
    cases hid
  · rw [hr] at h
    cases h.2
  · obtain ⟨edge, -, -, bus, -, hbus, -⟩ := h
    rw [hr] at hbus
    cases hbus

/-- A storage as a resource is a storage. -/
theorem Serves.kind_of_storage (h : p.Serves) {n : Node}
    (hr : p.resource = some (.storage n)) : n.kind = .patch .storage := by
  unfold Serves at h
  split at h
  · obtain ⟨-, m, hk, hm, -⟩ := h
    rw [hr, Option.some_inj] at hm
    unfold Packer.magicResource at hm
    split at hm
    · next hstorage =>
      cases hm
      exact hstorage
    · cases hm
  · obtain ⟨-, id, hid, -⟩ := h
    rw [hr] at hid
    cases hid
  · rw [hr] at h
    cases h.2
  · obtain ⟨edge, -, -, bus, -, hbus, -⟩ := h
    rw [hr] at hbus
    cases hbus

/-- What a magic state or a storage delivers is held by a tree that contains it. -/
theorem holds_of_magicResource {n : Node} (hr : p.resource = some (Packer.magicResource n))
    (hn : p.tree.contains n = true) : p.Holds := by
  unfold Holds
  rw [hr]
  by_cases hstorage : n.kind = .patch .storage
  · rw [Packer.magicResource, if_pos hstorage]
    exact hn
  · rw [Packer.magicResource, if_neg hstorage]
    exact hn

/-- What a magic state or a storage delivers is ready when its countdown is over. -/
theorem readyOn_of_magicResource {b : Board} {turnTicks : Int} {n : Node}
    (hr : p.resource = some (Packer.magicResource n))
    (hkind : n.kind = .patch .magic ∨ n.kind = .patch .storage) (hzero : b.ticksOf n = some 0) :
    p.ReadyOn b turnTicks := by
  unfold ReadyOn
  rw [hr]
  by_cases hstorage : n.kind = .patch .storage
  · rw [Packer.magicResource, if_pos hstorage]
    exact ⟨hstorage, hzero⟩
  · rw [Packer.magicResource, if_neg hstorage]
    exact ⟨hkind.resolve_right hstorage, hzero⟩

/-- What is packed holds its resource. -/
theorem Serves.holds (h : p.Serves) : p.Holds := by
  unfold Serves at h
  split at h
  · obtain ⟨-, n, -, hr, hn⟩ := h
    exact holds_of_magicResource hr hn
  · obtain ⟨-, id, hr, hx, hz⟩ := h
    unfold Holds
    rw [hr]
    exact ⟨hx, hz⟩
  · unfold Holds
    rw [h.2]
    trivial
  · obtain ⟨edge, -, -, bus, -, hr, -⟩ := h
    unfold Holds
    rw [hr]
    trivial

/-- The bus tile of a turn is a bus tile. -/
theorem Serves.kind_of_bus (h : p.Serves) {n : Node} (hr : p.resource = some (.bus n)) :
    n.kind = .bus := by
  obtain ⟨edge, -, -, bus, hbus, hr', -⟩ := h.of_turn (h.turning_iff.1 ⟨n, hr⟩)
  rw [hr, Option.some_inj, Resource.bus.injEq] at hr'
  rw [hr']
  exact Node.isBus_iff.1 hbus

/-- The nodes of a turn are a boundary of one of its qubits and the bus tile. -/
theorem Serves.node_of_turn (h : p.Serves) {bus n : Node} (hr : p.resource = some (.bus bus))
    (hn : p.tree.contains n = true) :
    (∃ q ∈ p.rotation.activeQubits, ∃ basis, n = .qubit q basis) ∨ n = bus := by
  obtain ⟨edge, hedge, -, bus', -, hr', hnodes⟩ := h.of_turn (h.turning_iff.1 ⟨bus, hr⟩)
  rw [hr, Option.some_inj, Resource.bus.injEq] at hr'
  subst hr'
  rcases (hnodes n).1 hn with rfl | rfl
  · obtain ⟨q, basis, rfl, hq⟩ := Rotation.exists_of_mem_activeNodes hedge
    exact Or.inl ⟨q, hq, basis.flipped, rfl⟩
  · exact Or.inr rfl

/-- The boundaries in a tree are those of the patches on which the rotation acts. -/
theorem Serves.mem_activeQubits (h : p.Serves) {id : Nat} {basis : Basis}
    (hn : p.tree.contains (.qubit id basis) = true) : id ∈ p.rotation.activeQubits := by
  by_cases hk : p.rotation.kind = .turn
  · obtain ⟨bus, hbus⟩ := h.turning_iff.2 hk
    rcases h.node_of_turn hbus hn with ⟨q, hq, basis', heq⟩ | rfl
    · cases heq
      exact hq
    · cases h.kind_of_bus hbus
  · exact Rotation.id_mem_activeQubits ((h.spans hk _ rfl).1 hn)

end Packed

end LatticeSurgery
