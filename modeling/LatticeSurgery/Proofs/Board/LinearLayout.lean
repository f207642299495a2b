import LatticeSurgery.Proofs.Board.Geometry
import LatticeSurgery.Proofs.Layout.Linear

/-!
# Compact linear layouts work

A compact linear layout exists for every number of qubits, except that two zero states need a bus of
four tiles. Its board has all patches that were asked for; each data patch faces the bus with one
boundary, each zero state with both, and everything that touches the bus is linked
(`Layout.linear_works`).

A data patch touches the bus from above, from below or from the right, and a zero state lies below it
with X on the left and Z on the right; the bus itself is linked tile by tile.
-/

namespace LatticeSurgery

open Ordered LatticeSurgery.Graph Tile

/-- The numbers below a bound, in order. -/
theorem SortedSet.toList_eq_range {s : SortedSet Nat} {n : Nat} (h : ∀ i, i ∈ s ↔ i < n) :
    s.toList = List.range n := by
  have hs : s = ⟨List.range n, List.pairwise_lt_range.imp decide_eq_true⟩ := ext_mem fun i => by
    rw [h]
    exact List.mem_range.symm
  rw [hs]

namespace Layout

variable {l : Layout} {ps : List Patch} {p : Patch} {kind : PatchKind}
  {length qubits magicStates zeroStates : Nat}

/-- There is a patch for each tile of a kind other than zero states, -/
theorem Patched.length_ofKind (h : l.Patched ps) (hkind : kind ≠ .zero) :
    (ofKind kind ps).length = (l.tilesOf kind).size := by
  have hlengths := congrArg List.length (h.single kind hkind)
  rwa [List.length_map, List.length_map] at hlengths

/-- and a zero state for two of its tiles. -/
theorem Patched.length_ofKind_zero (h : l.Patched ps) :
    2 * (ofKind .zero ps).length = l.zero.size := by
  have htwo : ∀ p ∈ ofKind .zero ps, p.tiles.length = 2 := fun p hp => by
    obtain ⟨hp, hkind⟩ := mem_ofKind.1 hp
    obtain ⟨t, htiles | htiles⟩ := h.double p hp hkind <;> rw [htiles] <;> rfl
  have hlength := h.zero.length_eq
  rw [List.length_flatMap, List.map_congr_left htwo, List.map_const', List.sum_replicate,
    smul_eq_mul] at hlength
  rw [Nat.mul_comm]
  exact hlength

theorem Patched.lt_length_ofKind_iff (h : l.Patched ps) {id : Nat} :
    id < (ofKind kind ps).length ↔ ∃ p ∈ ps, p.kind = kind ∧ p.id = id := by
  rw [← List.mem_range, List.range_eq_range', ← (h.numbered kind).ids, List.mem_map]
  simp only [mem_ofKind, and_assoc]

/-- The tile of a data patch. -/
theorem Patched.exists_data (h : l.Patched ps) (hp : p ∈ ps) (hkind : p.kind = .qubit) :
    ∃ t ∈ l.data, p.tiles = [t] := by
  have htiles : p.tiles ∈ (ofKind .qubit ps).map Patch.tiles :=
    List.mem_map_of_mem (mem_ofKind.2 ⟨hp, hkind⟩)
  rw [h.single .qubit (by decide)] at htiles
  obtain ⟨t, ht, heq⟩ := List.mem_map.1 htiles
  exact ⟨t, ht, heq.symm⟩

namespace Straight

variable (h : l.Straight length qubits magicStates zeroStates) (hpatched : l.Patched ps)

include h hpatched

/-- A zero state lies below the bus. -/
theorem exists_lying (hp : p ∈ ps) (hkind : p.kind = .zero) : ∃ t, p.tiles = [t, t.right] ∧
    t.up ∈ l.bus ∧ t.right.up ∈ l.bus := by
  have hin : ∀ t ∈ p.tiles, t ∈ l.zero := fun t ht =>
    hpatched.zero.mem_iff.1 (List.mem_flatMap.2 ⟨p, mem_ofKind.2 ⟨hp, hkind⟩, ht⟩)
  have htwo := h.two_le
  have hzero := h.zeroStates
  have habove : ∀ t ∈ l.zero, t.up ∈ l.bus := fun t ht => by
    rw [h.zero] at ht
    rw [h.bus]
    dsimp only [up]
    omega
  obtain ⟨t, htiles | htiles⟩ := hpatched.double p hp hkind
  · exact ⟨t, htiles, habove t (hin t (by simp [htiles])),
      habove t.right (hin t.right (by simp [htiles]))⟩
  · -- no zero-state tile lies above another one
    have ht := (h.zero t).1 (hin t (by simp [htiles]))
    have hup := (h.zero t.up).1 (hin t.up (by simp [htiles]))
    dsimp only [up] at hup
    omega

end Straight

end Layout

namespace Board

variable {l : Layout} {ps : List Patch} {p : Patch} {b : Board} {id : Nat}

theorem exists_ofLayout (h : l.patches = .ok ps) : ∃ b, ofLayout l = .ok b := by
  refine ⟨⟨graphOf l ps, (graphOf l ps).nodes.foldl (fun c n => c.place n (initialTicks n)) ∅,
    tilesBehind l ps, none⟩, ?_⟩
  rw [ofLayout, h]
  rfl

/-- A boundary has neighbours only on the bus. -/
theorem isEmpty_busNeighbors (hlaid : b.graph.Laid) {n : Node} (hn : n.isBus = false)
    (h : b.graph.Touches n) : (b.busNeighbors n).isEmpty = false := by
  obtain ⟨m, hm⟩ := h
  refine SortedSet.isEmpty_eq_false_iff.2 ⟨m, ?_⟩
  rw [Board.busNeighbors, SortedSet.mem_ofList, List.mem_filter, hlaid.wellFormed.mem_neighbors]
  exact ⟨hm, (hlaid.onBus _ _ hm).resolve_left (by simp [hn])⟩

section Patched

variable (hgraph : b.graph = graphOf l ps)

include hgraph

theorem idsOfKind_ofLayout (hpatched : l.Patched ps) (kind : PatchKind) :
    (b.idsOfKind kind).toList = List.range (Layout.ofKind kind ps).length := by
  refine SortedSet.toList_eq_range fun id => ?_
  rw [hpatched.lt_length_ofKind_iff, idsOfKind, SortedSet.mem_map]
  constructor
  · rintro ⟨n, hn, rfl⟩
    obtain ⟨hn, hkind⟩ := mem_nodesOfKind.1 hn
    cases n with
    | bus i => cases hkind
    | boundary kind' id basis =>
      cases hkind
      exact ((hasNode_boundary_iff hgraph).1 hn).2
  · rintro ⟨p, hp, rfl, rfl⟩
    refine ⟨.boundary p.kind p.id .Z, mem_nodesOfKind.2 ⟨?_, rfl⟩, rfl⟩
    exact (hasNode_boundary_iff hgraph).2 ⟨Or.inl rfl, p, hp, rfl, rfl⟩

/-- A boundary has neighbours if a bus tile lies on a side of its patch with its operator. -/
theorem touches_boundary_iff (hpatched : l.Patched ps) (hplaced : ∀ p ∈ ps, l.Placed p) (hp : p ∈ ps)
    (basis : Basis) :
    b.graph.Touches (.boundary p.kind p.id basis) ↔
      ∃ t, ∃ u ∈ l.bus, Carries p.kind p.tiles t u basis := by
  rw [Touches, hgraph]
  simp only [adj_boundary_graphOf hplaced]
  constructor
  · rintro ⟨m, q, hq, hkind, hid, t, u, j, hcarries, hj, -⟩
    obtain rfl := hpatched.eq_of_key hq hp hkind hid
    exact ⟨t, u, List.mem_of_getElem? hj, hcarries⟩
  · rintro ⟨t, u, hu, hcarries⟩
    obtain ⟨j, hj⟩ := List.mem_iff_getElem?.1 hu
    exact ⟨_, p, hp, rfl, rfl, t, u, j, hcarries, hj, rfl⟩

end Patched

section Straight

variable {length qubits magicStates zeroStates : Nat} (hgraph : b.graph = graphOf l ps)
  (hpatched : l.Patched ps) (hplaced : ∀ p ∈ ps, l.Placed p)
  (h : l.Straight length qubits magicStates zeroStates)

include hgraph h

/-- Along the bus, each tile is linked to the first one. -/
theorem linked_row {i : Nat} (hi : l.bus.toList[i]? = some ⟨0, 0⟩) (x : Nat) {j : Nat}
    (hj : l.bus.toList[j]? = some ⟨x, 0⟩) : b.graph.Linked (.bus i) (.bus j) := by
  induction x generalizing j with
  | zero =>
    obtain rfl := eq_of_getElem?_bus hi hj
    exact Relation.ReflTransGen.refl
  | succ x ih =>
    have hlt := (h.bus ⟨x + 1, 0⟩).1 (List.mem_of_getElem? hj)
    obtain ⟨k, hk⟩ := List.mem_iff_getElem?.1 ((h.bus ⟨x, 0⟩).2 (by dsimp only at hlt ⊢; omega))
    refine (ih hk).tail ?_
    rw [hgraph, adj_bus_graphOf]
    refine ⟨_, _, hk, hj, ?_⟩
    rw [Tile.adj_iff]
    dsimp only
    omega

/-- Nodes with neighbours are linked, through the bus. -/
theorem linked_of_touches (hlaid : b.graph.Laid) {n m : Node} (hn : b.graph.Touches n)
    (hm : b.graph.Touches m) : b.graph.Linked n m := by
  have htwo := h.two_le
  obtain ⟨i, hi⟩ := List.mem_iff_getElem?.1 ((h.bus ⟨0, 0⟩).2 (by dsimp only; omega))
  have hbus : ∀ j, b.graph.hasNode (.bus j) = true → b.graph.Linked (.bus i) (.bus j) := fun j hj => by
    obtain ⟨t, ht⟩ := (hasNode_bus_iff hgraph).1 hj
    obtain ⟨hy, hx, -⟩ := (h.bus t).1 (List.mem_of_getElem? ht)
    exact linked_row hgraph h hi t.x.toNat
      (ht.trans (congrArg some (Tile.ext_iff.2 ⟨(Int.toNat_of_nonneg hx).symm, hy⟩)))
  have hcenter : ∀ n, b.graph.Touches n → b.graph.Linked (.bus i) n := by
    rintro n ⟨m, hnm⟩
    have hleft := hlaid.wellFormed.hasNode_left hnm
    have hright := hlaid.wellFormed.hasNode_right hnm
    cases n with
    | bus j => exact hbus j hleft
    | boundary kind id basis =>
      cases m with
      | bus j => exact (hbus j hright).tail hnm.symm
      | boundary => exact absurd (hlaid.onBus _ _ hnm) (by simp [Node.isBus])
  exact (Linked.symm (hcenter n hn)).trans (hcenter m hm)

include hpatched

/-- The patches of each kind are numbered from zero, and there are as many as were asked for. -/
theorem idsOfKind_straight : (b.idsOfKind .qubit).toList = List.range qubits ∧
    (b.idsOfKind .magic).toList = List.range magicStates ∧
    (b.idsOfKind .zero).toList = List.range zeroStates := by
  have hdata : (Layout.ofKind .qubit ps).length = qubits :=
    (hpatched.length_ofKind (by decide)).trans h.size_data
  have hmagic : (Layout.ofKind .magic ps).length = magicStates :=
    (hpatched.length_ofKind (by decide)).trans h.size_magic
  have hzero := Nat.eq_of_mul_eq_mul_left (by decide) (hpatched.length_ofKind_zero.trans h.size_zero)
  simp only [idsOfKind_ofLayout hgraph hpatched]
  exact ⟨congrArg List.range hdata, congrArg List.range hmagic, congrArg List.range hzero⟩

include hplaced

/-- A data patch faces the bus with one boundary. -/
theorem facing?_straight (hlaid : b.graph.Laid) (hid : id < qubits) :
    b.facing? id = some .x ∨ b.facing? id = some .z := by
  have hsize : (Layout.ofKind .qubit ps).length = qubits :=
    (hpatched.length_ofKind (by decide)).trans h.size_data
  rw [← hsize, hpatched.lt_length_ofKind_iff] at hid
  obtain ⟨p, hp, hkind, rfl⟩ := hid
  obtain ⟨t, ht, htiles⟩ := hpatched.exists_data hp hkind
  have hplace := h.data t ht
  have htouches : ∀ basis, 0 < b.graph.degree (.qubit p.id basis) ↔ ∃ u ∈ l.bus,
      (u = t.up ∨ u = t.down) ∧ basis = .X ∨ (u = t.left ∨ u = t.right) ∧ basis = .Z := fun basis => by
    have hiff := touches_boundary_iff hgraph hpatched hplaced hp basis
    rw [hkind, htiles, hlaid.wellFormed.touches_iff] at hiff
    simpa only [Carries.data_iff, exists_and_left, exists_eq_left, and_left_comm] using hiff
  have hX : 0 < b.graph.degree (.qubit p.id .X) ↔ t.y ≠ 0 := by
    rw [htouches]
    constructor
    · rintro ⟨u, hu, ⟨rfl | rfl, -⟩ | ⟨-, hbasis⟩⟩
      · have := (h.bus _).1 hu
        dsimp only [up] at this
        omega
      · have := (h.bus _).1 hu
        dsimp only [down] at this
        omega
      · cases hbasis
    · intro hy
      rcases hplace with ⟨hup | hdown, hx⟩ | ⟨hzero, -⟩
      · exact ⟨t.down, (h.bus _).2 (by dsimp only [down]; omega), Or.inl ⟨Or.inr rfl, rfl⟩⟩
      · exact ⟨t.up, (h.bus _).2 (by dsimp only [up]; omega), Or.inl ⟨Or.inl rfl, rfl⟩⟩
      · exact absurd hzero hy
  have hZ : 0 < b.graph.degree (.qubit p.id .Z) ↔ t.y = 0 := by
    rw [htouches]
    constructor
    · rintro ⟨u, hu, ⟨-, hbasis⟩ | ⟨rfl | rfl, -⟩⟩
      · cases hbasis
      · exact ((h.bus _).1 hu).1
      · exact ((h.bus _).1 hu).1
    · intro hy
      have htwo := h.two_le
      exact ⟨t.left, (h.bus _).2 (by dsimp only [left]; omega), Or.inr ⟨Or.inl rfl, rfl⟩⟩
  by_cases hy : t.y = 0
  · exact Or.inr (by simp [facing?, hX, hZ, hy])
  · exact Or.inl (by simp [facing?, hX, hZ, hy])

/-- A zero state faces the bus with both boundaries. -/
theorem touches_zero (hid : id < zeroStates) (basis : Basis) :
    b.graph.Touches (.zero id basis) := by
  have hsize := h.size_zero
  rw [← hpatched.length_ofKind_zero] at hsize
  rw [← Nat.eq_of_mul_eq_mul_left (by decide) hsize, hpatched.lt_length_ofKind_iff] at hid
  obtain ⟨p, hp, hkind, rfl⟩ := hid
  obtain ⟨t, htiles, hleft, hright⟩ := h.exists_lying hpatched hp hkind
  have hiff := touches_boundary_iff hgraph hpatched hplaced hp basis
  rw [hkind, htiles] at hiff
  refine hiff.2 ?_
  cases basis with
  | X => exact ⟨t.right, t.right.up, hright, .rightX (Or.inr rfl)⟩
  | Z => exact ⟨t, t.up, hleft, .leftZ (Or.inr rfl)⟩

end Straight

end Board

namespace Layout

open Board

/-- With one magic state or two and one zero state or two, the compact linear layout exists exactly if
there is one zero state or a bus of four tiles; if there is none, there are too few qubits, and never too
few places. It has a bus of the chosen length and a board, the patches that were asked for, data patches
that each face the bus with one boundary, and zero states that have a bus tile on both boundaries; all
nodes with neighbours are linked. -/
theorem linear_works (qubits : Nat) {magicStates zeroStates : Nat}
    (hmagic : magicStates = 1 ∨ magicStates = 2) (hzero : zeroStates = 1 ∨ zeroStates = 2) :
    ((∃ l, linear qubits magicStates zeroStates = .ok l) ↔
      zeroStates = 1 ∨ 4 ≤ linearBusLength qubits magicStates zeroStates) ∧
    (∀ e, linear qubits magicStates zeroStates = .error e →
      e = .invalidLinearLayout (.tooFewQubits qubits)) ∧
    ∀ l, linear qubits magicStates zeroStates = .ok l →
      l.bus.size = linearBusLength qubits magicStates zeroStates ∧
      ∃ b, ofLayout l = .ok b ∧
        (b.idsOfKind .qubit).toList = List.range qubits ∧
        (b.idsOfKind .magic).toList = List.range magicStates ∧
        (b.idsOfKind .zero).toList = List.range zeroStates ∧
        (∀ id < qubits, b.facing? id = some .x ∨ b.facing? id = some .z) ∧
        (∀ id < zeroStates, ∀ basis, (b.busNeighbors (.zero id basis)).isEmpty = false) ∧
        ∀ n m, 0 < b.graph.degree n → 0 < b.graph.degree m → b.graph.Linked n m := by
  rcases linear_cases qubits hmagic hzero with ⟨htwo, hfew, herror⟩ | ⟨l, hl, hstraight⟩
  · refine ⟨⟨fun ⟨l, hl⟩ => ?_, fun hroom => by omega⟩, fun e he => ?_, fun l hl => ?_⟩
    · cases herror.symm.trans hl
    · exact (Except.error.inj (herror.symm.trans he)).symm
    · cases herror.symm.trans hl
  · have hroom := hstraight.zeroStates
    refine ⟨⟨fun _ => by omega, fun _ => ⟨l, hl⟩⟩, fun e he => ?_, fun l' hl' => ?_⟩
    · cases hl.symm.trans he
    obtain rfl := Except.ok.inj (hl.symm.trans hl')
    obtain ⟨ps, hps⟩ := hstraight.exists_patches
    obtain ⟨b, hb⟩ := exists_ofLayout hps
    obtain ⟨ps, hps, hgraph, -⟩ := Board.exists_patches hb
    obtain ⟨hpatched, hplaced⟩ := of_patches hps
    have hlaid := laid_ofLayout hb
    obtain ⟨hqubits, hmagics, hzeros⟩ := idsOfKind_straight hgraph hpatched hstraight
    refine ⟨hstraight.size_bus, b, hb, hqubits, hmagics, hzeros, fun id hid => ?_,
      fun id hid basis => ?_, fun n m hn hm => ?_⟩
    · exact facing?_straight hgraph hpatched hplaced hstraight hlaid hid
    · exact isEmpty_busNeighbors hlaid rfl (touches_zero hgraph hpatched hplaced hstraight hid basis)
    · exact linked_of_touches hgraph hstraight hlaid (hlaid.wellFormed.touches_iff.2 hn)
        (hlaid.wellFormed.touches_iff.2 hm)

/-- For three qubits, two magic states and two zero states, the bus is just long enough: the zero states
lie side by side below it. -/
theorem linear_three_works : linearBusLength 3 2 2 = 4 ∧ ∃ l b, linear 3 2 2 = .ok l ∧
    l.bus.size = 4 ∧ ofLayout l = .ok b ∧ (b.idsOfKind .qubit).toList = [0, 1, 2] ∧
    (b.idsOfKind .zero).toList = [0, 1] ∧ (∀ id < 3, b.facing? id = some .x ∨ b.facing? id = some .z) ∧
    ∀ n m, 0 < b.graph.degree n → 0 < b.graph.degree m → b.graph.Linked n m := by
  have hlength : linearBusLength 3 2 2 = 4 := rfl
  obtain ⟨hexists, -, hworks⟩ := linear_works 3 (.inr (Eq.refl 2)) (.inr (Eq.refl 2))
  obtain ⟨l, hl⟩ := hexists.2 (Or.inr hlength.ge)
  obtain ⟨hsize, b, hb, hqubits, -, hzero, hfacing, -, hlinked⟩ := hworks l hl
  exact ⟨hlength, l, b, hl, hsize, hb, hqubits, hzero, hfacing, hlinked⟩

end Layout

end LatticeSurgery
