import LatticeSurgery.Proofs.Cache.Hits

/-!
# Fresh packings are sound

What the packer finds on a board of a layout fits on that board and answers its rotation
(`Packer.pack_answers`). The board that counts is the one on which packing begins, after storages
were filled and reset; the rotations of the tick that are packed first change it under those that
follow, but only at nodes that the later ones do not get.
-/

namespace LatticeSurgery

open Ordered WordSource

namespace Packed

variable {b : Board} {p : Packed} {turnTicks : Int}

/-- A packing that fits on a board and has the nodes that its rotation asks for. -/
structure Answers (b : Board) (p : Packed) : Prop where
  /-- The tree could be taken and the resource be used. -/
  fits : p.FitsOn b
  /-- All boundaries of the rotation are joined, unless it is a turn. -/
  spans : p.rotation.kind ≠ .turn → ∀ n ∈ p.rotation.activeNodes, p.tree.contains n = true
  /-- A turn on a boundary takes the opposite one and an open bus tile beside it. -/
  turn : p.rotation.kind = .turn → ∀ edge, p.rotation.activeNodes.toList = [edge] →
    ∃ bus, bus.isBus = true ∧ b.isAvailable bus = true ∧ b.graph.Adj edge.opposite bus ∧
      p.resource = some (.bus bus) ∧
        ∀ n, p.tree.contains n = true ↔ n = edge.opposite ∨ n = bus

/-- The nodes of a packing are on the board when those of its qubits are. -/
theorem Found.isAvailable (h : p.Found b turnTicks)
    (hqubits : ∀ q ∈ p.rotation.activeQubits, ∀ basis, b.graph.hasNode (.qubit q basis) = true)
    {n : Node} (hn : p.tree.contains n = true) : b.isAvailable n = true := by
  rw [Board.isAvailable_iff]
  refine ⟨?_, h.fresh.opened n hn⟩
  by_cases hk : n.kind = .patch .qubit
  · have hown : ∀ m ∈ p.rotation.activeNodes, b.graph.hasNode m = true ∧
        b.graph.hasNode m.opposite = true := by
      intro m hm
      obtain ⟨q, basis, rfl, hq⟩ := Rotation.exists_of_mem_activeNodes hm
      exact ⟨hqubits q hq basis, hqubits q hq basis.flipped⟩
    by_cases hturn : p.rotation.kind = .turn
    · obtain ⟨edge, hedge, -, bus, hbus, -, hnodes⟩ := h.fresh.serves.of_turn hturn
      rcases (hnodes n).1 hn with rfl | rfl
      · exact (hown edge hedge).2
      · rw [Node.isBus_iff.1 hbus] at hk
        cases hk
    · exact (hown n ((h.fresh.serves.spans hturn n hk).1 hn)).1
  · exact h.node n hn hk

/-- The resource of a packing that was found is the right one. -/
theorem Found.delivers (hb : b.Sound) (h : p.Found b turnTicks) : p.Delivers b := by
  have hready := h.ready
  have hserves := h.fresh.serves
  unfold ReadyOn at hready
  unfold Delivers
  split
  · next hk =>
    obtain ⟨n, hkind, hresource, hn⟩ := hserves.of_pi8 hk
    refine ⟨n, hkind, ?_, hresource, hn⟩
    rw [hresource] at hready
    by_cases hstorage : n.kind = .patch .storage
    · rw [Packer.magicResource, if_pos hstorage] at hready
      exact hready.2
    · rw [Packer.magicResource, if_neg hstorage] at hready
      exact hready.2
  · next hk =>
    obtain ⟨id, hresource, hx, hz⟩ := hserves.of_pi4 hk
    rw [hresource] at hready
    exact ⟨id, hb.mem_readyZeroStates.2 hready, hresource, hx, hz⟩
  · next hk => exact hserves.of_measurement hk
  · next hk =>
    obtain ⟨edge, -, -, bus, hbus, hresource, hnodes⟩ := hserves.of_turn hk
    have hn : p.tree.contains bus = true := (hnodes bus).2 (Or.inr rfl)
    have hkind : bus.kind ≠ .patch .qubit := by
      rw [Node.isBus_iff.1 hbus]
      simp
    exact ⟨bus, hbus, Board.isAvailable_iff.2 ⟨h.node bus hn hkind, h.fresh.opened bus hn⟩,
      hresource, hn⟩

theorem Found.answers (hb : b.Sound) (h : p.Found b turnTicks)
    (hqubits : ∀ q ∈ p.rotation.activeQubits, ∀ basis, b.graph.hasNode (.qubit q basis) = true) :
    p.Answers b := by
  have havailable : ∀ n, p.tree.contains n = true → b.isAvailable n = true :=
    fun n hn => h.isAvailable hqubits hn
  refine ⟨⟨h.fresh.tree.connected, havailable, h.fresh.edge, h.delivers hb⟩, ?_, ?_⟩
  · intro hk n hn
    exact (h.fresh.serves.spans hk n (Rotation.kind_of_mem_activeNodes hn)).2 hn
  · intro hk edge hedge
    obtain ⟨edge', -, hhead, bus, hbus, hresource, hnodes⟩ := h.fresh.serves.of_turn hk
    obtain rfl : edge = edge' := by
      rw [hedge] at hhead
      exact Option.some.inj hhead
    have hne : edge.opposite ≠ bus := by
      rintro rfl
      obtain ⟨q, basis, rfl, -⟩ := Rotation.exists_of_mem_activeNodes
        (n := edge) (r := p.rotation) (by rw [SortedSet.mem_def, hedge]; exact List.mem_cons_self)
      cases hbus
    have hadj : p.tree.shape.Adj edge.opposite bus :=
      h.fresh.tree.connected.adj_of_pair hnodes h.fresh.tree.wellFormed hne
    exact ⟨bus, hbus, havailable bus ((hnodes bus).2 (Or.inr rfl)), h.fresh.edge _ _ hadj,
      hresource, hnodes⟩

end Packed

namespace Packer

/-- What a packer packs on a board of a layout are some of the rotations, each with an answer on the
board on which packing begins. Packing stops only when a draw does, when turns take a negative number
of ticks, or when a count of failures has no room left for the rotations. -/
theorem pack_answers {σ : Type} [WordSource σ] {l : Layout} {p : Packer} (hp : Packer.Used l p)
    {b : Board} (hb : Board.Stage l b) (f : Factories) (rng : σ) (rotations : List Rotation)
    (hqubits : ∀ r ∈ rotations, ∀ q ∈ r.activeQubits, ∀ basis,
      b.graph.hasNode (.qubit q basis) = true) :
    Ends (p.pack rotations b f rng) (p.Stops rng rotations) fun r =>
      ∃ b₀, p.runStorages .beforePacking b = .ok b₀ ∧ b₀.graph = b.graph ∧
        ∀ q ∈ r.packed, q.rotation ∈ rotations ∧ q.Answers b₀ := by
  refine (pack_ends hp.sound hb.sound f rng rotations).mono (fun _ he => he) ?_
  intro r hr
  obtain ⟨b₀, hbegins, hbefore, hfound⟩ := hr.found
  refine ⟨b₀, hbegins, hbefore.graph, fun q hq => ?_⟩
  have hmem : q.rotation ∈ rotations := hr.packs.order.subset (List.mem_map_of_mem hq)
  refine ⟨hmem, (hfound q hq).answers hbefore.sound fun i hi basis => ?_⟩
  rw [hbefore.graph]
  exact hqubits _ hmem i hi basis

/-- Three data patches above a row of bus tiles and a magic state below it. -/
def benchLayout : Layout where
  bus := SortedSet.ofList [⟨0, 0⟩, ⟨1, 0⟩, ⟨2, 0⟩, ⟨3, 0⟩]
  data := SortedSet.ofList [⟨0, 1⟩, ⟨2, 1⟩, ⟨3, 1⟩]
  magic := SortedSet.ofList [⟨1, -1⟩]
  zero := ∅
  storage := ∅

/-- The last patch is turned while the two others are rotated by π/8 together. -/
def benchRotations : List Rotation :=
  [⟨0, .pi8, .plus, SortedSet.ofList [0, 1], ∅, ∅⟩, ⟨1, .turn, .plus, ∅, ∅, SortedSet.ofList [2]⟩]

/-- A factory with the single magic state. -/
def benchFactories : Factories :=
  ⟨0, 0, [[.boundary .magic 0 .Z]], Factories.statesOf [[.boundary .magic 0 .Z]]⟩

/-- Both rotations are packed in a tick, and each packing is an answer. -/
theorem benchRotations_pack_answers : ∃ b, Board.ofLayout benchLayout = .ok b ∧
    ∃ r, (Packer.new 3 .never .never).pack benchRotations b benchFactories
      (⟨[0], 0⟩ : CyclicWords) = .ok r ∧ r.packed.length = 2 ∧ ∀ q ∈ r.packed, q.Answers b := by
  obtain ⟨b, hb⟩ : ∃ b, Board.ofLayout benchLayout = .ok b := ⟨_, rfl⟩
  have hboth : (match Board.ofLayout benchLayout with
    | .error _ => false
    | .ok b => benchRotations.all (fun r => r.activeQubits.toList.all fun q =>
        b.graph.hasNode (.qubit q .X) && b.graph.hasNode (.qubit q .Z)) &&
      match (Packer.new 3 .never .never).pack benchRotations b benchFactories
        (⟨[0], 0⟩ : CyclicWords) with
      | .error _ => false
      | .ok r => r.packed.length == 2) = true := by decide +kernel
  rw [hb] at hboth
  dsimp only at hboth
  rw [Bool.and_eq_true, List.all_eq_true] at hboth
  obtain ⟨hall, hpack⟩ := hboth
  cases hr : (Packer.new 3 .never .never).pack benchRotations b benchFactories
      (⟨[0], 0⟩ : CyclicWords) with
  | error e =>
    rw [hr] at hpack
    cases hpack
  | ok r =>
    rw [hr] at hpack
    have hends : Ends _ _ _ := pack_answers (l := benchLayout) (.new 3 .never .never) (.ofLayout hb)
      benchFactories (⟨[0], 0⟩ : CyclicWords) benchRotations fun r hr q hq basis => by
        have hnodes := List.all_eq_true.1 (hall r hr) q hq
        rw [Bool.and_eq_true] at hnodes
        cases basis
        · exact hnodes.1
        · exact hnodes.2
    obtain ⟨b₀, hbegins, -, hanswers⟩ := hends.of_ok hr
    have hsame : b₀ = b := by
      rw [runStorages_never rfl rfl (by simp)] at hbegins
      exact (Except.ok.inj hbegins).symm
    refine ⟨b, hb, r, hr, beq_iff_eq.1 hpack, fun q hq => ?_⟩
    rw [← hsame]
    exact (hanswers q hq).2

end Packer

end LatticeSurgery
