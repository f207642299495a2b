import LatticeSurgery.Proofs.Board.TurnEffect
import LatticeSurgery.Proofs.Packing.Commuting
import LatticeSurgery.Proofs.Packing.Leaves

/-!
# Packed turns take effect

Packing a turn gives the boundary opposite to the one that it is for, and a bus tile, the countdown of
a turn, while the other boundary stays idle. So when enough time has passed, the neighbours of the two
boundaries are exchanged, and the patch and the bus tile are free again (`Packer.turn_effect`). The one
exception are turns that take no time: they are packed, but the patch stays as it was.
-/

namespace LatticeSurgery

open Ordered LatticeSurgery.Graph

/-! ## Storages and bus tiles -/

namespace Board

variable {b b' : Board} {n m : Node} {t : Int}

/-- The node is free now or after a tick. -/
def Brief (b : Board) (n : Node) : Prop := b.ticksOf n = some 0 ∨ b.ticksOf n = some 1

theorem Brief.retime (h : b.Brief n) (hm : m.kind ≠ n.kind ∨ t = 1) : (b.retime m t).Brief n := by
  unfold Brief
  rw [ticksOf_retime]
  split
  · next hsame =>
    rw [same_iff] at hsame
    rw [hm.resolve_left fun hne => hne (hsame ▸ rfl)]
    exact Or.inr rfl
  · exact h

theorem Brief.setTick (h : b.Brief n) (hm : m.kind ≠ n.kind ∨ t = 1) (hset : b.setTick t m = .ok b') :
    b'.Brief n := by
  unfold Board.setTick at hset
  split_ifs at hset
  cases hset
  exact h.retime hm

variable (hn : n.kind = .bus)

include hn

theorem Brief.storeMagicStates (hb : b.Sound) (h : b.Brief n) : b.storeMagicStates.Brief n := by
  unfold Board.storeMagicStates
  refine List.foldlRecOn (motive := fun b : Board => b.Brief n) _ _ h fun b h m hm => ?_
  have hmagic : m.kind = .patch .magic := (hb.mem_ready.1 hm).1
  unfold storeOne
  dsimp only
  split
  · have hstorage : (storageNode m.id).kind ≠ n.kind := by
      rw [hn]
      simp [storageNode, Node.kind]
    exact (h.retime (Or.inl (by simp [hmagic, hn]))).retime (Or.inl hstorage)
  · exact h

/-- Resetting storages takes bus tiles for one tick. -/
theorem Brief.resetEach {ns : List Node} (h : b.Brief n) (hreset : resetEach ns b = .ok b') :
    b'.Brief n := by
  refine resetEach_induct (motive := fun c : Board => c.Brief n) ?_ hreset h
  intro c c' m t hmark hset hc
  refine hc.setTick ?_ hset
  rcases resetMark_eq_some_iff.1 hmark with ⟨-, ht⟩ | ⟨hk, -⟩
  · exact Or.inr ht
  · exact Or.inl (by simp [hk, hn])

theorem Brief.runStorages {p : Packer} {moment : StoragePhase} (hb : b.Sound) (h : b.Brief n)
    (hrun : p.runStorages moment b = .ok b') : b'.Brief n := by
  unfold Packer.runStorages at hrun
  split at hrun
  · cases hrun
    exact h
  · have hstore : (if p.store = moment then b.storeMagicStates else b).Brief n := by
      split
      · exact h.storeMagicStates hn hb
      · exact h
    dsimp only at hrun
    split at hrun
    · exact hstore.resetEach hn hrun
    · cases hrun
      exact hstore

end Board

/-! ## Commitments -/

/-- Turns without a duration leave the nodes that they take free. -/
theorem commitAll_free {b b' : Board} {f f' : Factories} {ps : List Packed} {n : Node} (hb : b.Sound)
    (hserves : ∀ p ∈ ps, p.Serves) (hn : n.kind = .bus ∨ n.kind = .patch .qubit)
    (hfree : b.ticksOf n = some 0) (h : commitAll 0 ps b f = .ok (b', f')) :
    b'.Sound ∧ b'.ticksOf n = some 0 := by
  have hmarks := marks_of_commitAll hb hserves h
  have hzero : markTicks 0 n.kind = 0 := by
    rcases hn with hk | hk <;> rw [hk] <;> rfl
  refine ⟨hmarks.sound, ?_⟩
  rw [hmarks.ticks, hzero, hfree, ite_self]

/-- A turn on a boundary takes the opposite boundary and a bus tile. -/
theorem Packed.Serves.exists_bus {p : Packed} (h : p.Serves) (hk : p.rotation.kind = .turn) {id : Nat}
    {basis : Basis} (hedge : p.rotation.activeNodes.toList = [.qubit id basis]) :
    ∃ bus, bus.kind = .bus ∧ p.resource = some (.bus bus) ∧
      ∀ n, p.tree.contains n = true ↔ n = .qubit id basis.flipped ∨ n = bus := by
  obtain ⟨edge, -, hhead, bus, hbus, hresource, hnodes⟩ := h.of_turn hk
  obtain rfl : .qubit id basis = edge := by
    rw [hedge] at hhead
    exact Option.some.inj hhead
  exact ⟨bus, Node.isBus_iff.1 hbus, hresource, hnodes⟩

namespace Packer

variable {σ : Type} [WordSource σ] {l : Layout} {p : Packer} {b : Board} {rotations : List Rotation}
  {f : Factories} {rng : σ} {r : Result σ} {q : Packed} {id : Nat} {basis : Basis} {bus : Node}

variable (hp : Used l p) (hb : Board.Stage l b) (hr : p.pack rotations b f rng = .ok r)

section Pack

include hp hb hr

/-- Packing changes the countdown of a boundary by turns of its patch only. -/
theorem ticksOf_qubit_of_pack (h : ∀ q ∈ r.packed, q.rotation.kind = .turn →
    id ∈ q.rotation.activeQubits → q.tree.contains (.qubit id basis) = false) :
    r.board.ticksOf (.qubit id basis) = b.ticksOf (.qubit id basis) := by
  have hsound := (pack_ends hp.sound hb.sound f rng rotations).of_ok hr
  refine hsound.packs.data id basis fun q hq hturning => ?_
  have hserves := (hsound.fresh q hq).serves
  by_contra hcontains
  rw [Bool.not_eq_false] at hcontains
  have hnot := h q hq (hserves.turning_iff.1 hturning) (hserves.mem_activeQubits hcontains)
  rw [hnot] at hcontains
  cases hcontains

/-- A packed turn takes boundaries of patches that are not busy. -/
theorem open_of_pack (hq : q ∈ r.packed) (hk : q.rotation.kind = .turn)
    (hn : q.tree.contains (.qubit id basis) = true) (basis' : Basis) :
    .qubit id basis' ∉ b.unavailable := by
  have hpacks := ((pack_ends hp.sound hb.sound f rng rotations).of_ok hr).packs
  obtain ⟨-, id', -, c, bus, hbus, hnodes, hopen⟩ := hpacks.turning q hq (hpacks.of_turn q hq hk)
  rcases (hnodes _).1 hn with heq | rfl
  · cases heq
    exact hopen basis'
  · cases hbus

end Pack

section Turn

variable (hq : q ∈ r.packed)

include hp hb hr hq

/-- Turns without a duration leave what they take free, but for a bus tile through which a storage is
reset. -/
theorem free_of_pack (hzero : p.turnTicks = 0) {n : Node} (hn : q.tree.contains n = true) :
    (n.kind = .patch .qubit → b.graph.hasNode n = true → r.board.ticksOf n = some 0) ∧
      (n.kind = .bus → r.board.Brief n) := by
  have hsound := (pack_ends hp.sound hb.sound f rng rotations).of_ok hr
  obtain ⟨b₀, hbegins, hbefore, hfound⟩ := hsound.found
  obtain ⟨b₀', b₁, hcourse⟩ := exists_course hr
  obtain rfl : b₀ = b₀' := Except.ok.inj (hbegins.symm.trans hcourse.before)
  have hcommitted : n.kind = .bus ∨ n.kind = .patch .qubit → b₀.graph.hasNode n = true →
      b₁.Sound ∧ b₁.ticksOf n = some 0 := by
    intro hkind hnode
    refine commitAll_free hbefore.sound (fun q' hq' => (hsound.fresh q' hq').serves) hkind ?_
      (hzero ▸ hcourse.commits)
    refine hbefore.sound.ticksOf_eq_zero ?_ hnode ((hfound q hq).fresh.opened n hn)
    rcases hkind with hkind | hkind <;> simp [hkind]
  refine ⟨fun hkind hnode => ?_, fun hkind => ?_⟩
  · obtain ⟨hb₁, hfree⟩ := hcommitted (Or.inr hkind) (by rwa [hbefore.graph])
    obtain ⟨-, hspares⟩ := (runStorages_ends p .afterPacking hb₁).of_ok hcourse.after
    cases n with
    | bus i => cases hkind
    | boundary k i c =>
      cases hkind
      exact (hspares i c).trans hfree
  · obtain ⟨hb₁, hfree⟩ := hcommitted (Or.inl hkind) ((hfound q hq).node n hn (by simp [hkind]))
    exact Board.Brief.runStorages hkind hb₁ (Or.inl hfree) hcourse.after

theorem turnTicks_nonneg_of_pack (hk : q.rotation.kind = .turn)
    (hedge : q.rotation.activeNodes.toList = [.qubit id basis]) : 0 ≤ p.turnTicks := by
  have hsound := (pack_ends hp.sound hb.sound f rng rotations).of_ok hr
  by_contra hneg
  obtain ⟨bus, -, -, hnodes⟩ := (hsound.fresh q hq).serves.exists_bus hk hedge
  have hticks : r.board.ticksOf (.qubit id basis.flipped) = some p.turnTicks :=
    hsound.packs.turn (by omega) q hq (hsound.packs.of_turn q hq hk) _ ((hnodes _).2 (Or.inl rfl))
  exact hneg ((hsound.packs.occupies.sound.means hticks).nonneg (by simp [Node.kind])
    (by simp [Node.kind]))

/-- A turn begins when it is packed, unless another turn of its patch is packed as well. -/
theorem midTurn_of_pack (hk : q.rotation.kind = .turn)
    (hedge : q.rotation.activeNodes.toList = [.qubit id basis]) (hwhole : b.CanTurn id)
    (halone : ∀ q' ∈ r.packed, q'.rotation.kind = .turn → id ∈ q'.rotation.activeQubits → q' = q) :
    r.board.MidTurn id basis p.turnTicks 0 r.board := by
  have hsound := (pack_ends hp.sound hb.sound f rng rotations).of_ok hr
  have hpacks := hsound.packs
  have hturning : q.Turning := hpacks.of_turn q hq hk
  have hnonneg := turnTicks_nonneg_of_pack hp hb hr hq hk hedge
  obtain ⟨bus, hbus, -, hnodes⟩ := (hsound.fresh q hq).serves.exists_bus hk hedge
  have hopposite : q.tree.contains (.qubit id basis.flipped) = true := (hnodes _).2 (Or.inl rfl)
  have hnode : ∀ basis, b.graph.hasNode (.qubit id basis) = true := by
    intro basis
    cases basis
    · exact hwhole.1
    · exact hwhole.2
  have hidle : r.board.ticksOf (.qubit id basis) = some 0 := by
    rw [ticksOf_qubit_of_pack hp hb hr]
    · exact hb.sound.ticksOf_eq_zero (by simp [Node.kind]) (hnode basis)
        (open_of_pack hp hb hr hq hk hopposite basis)
    · -- the only turn of the patch takes the other boundary
      intro q' hq' hk' hid
      obtain rfl := halone q' hq' hk' hid
      by_contra hcontains
      rw [Bool.not_eq_false] at hcontains
      rcases (hnodes _).1 hcontains with heq | rfl
      · cases basis <;> cases heq
      · cases hbus
  refine ⟨hpacks.occupies.sound, hpacks.occupies.graph ▸ hb.ported,
    hwhole.congr fun n => by rw [hpacks.occupies.graph], fun hlt => ?_, fun hle => ?_⟩
  · refine ⟨fun _ _ => Iff.rfl, hidle, ?_⟩
    rw [hpacks.turn (by omega) q hq hturning _ hopposite]
    simp
  · have hzero : p.turnTicks = 0 := by omega
    refine ⟨fun basis n => by rw [if_pos hzero], fun basis' => ?_⟩
    by_cases hbasis : basis' = basis
    · rw [hbasis, hidle]
    · rw [Basis.eq_flipped hbasis]
      exact (free_of_pack hp hb hr hq hzero hopposite).1 rfl (hnode _)

/-- A packed turn takes effect once, if it takes any time: as soon as its time is up and a tick has
passed, the neighbours of the two boundaries of the patch are exchanged, and the patch and the bus tile
are free. The patch must have both of its nodes, and must not be turned once more in the same tick. -/
theorem turn_effect (hk : q.rotation.kind = .turn)
    (hedge : q.rotation.activeNodes.toList = [.qubit id basis]) (hwhole : b.CanTurn id)
    (halone : ∀ q' ∈ r.packed, q'.rotation.kind = .turn → id ∈ q'.rotation.activeQubits → q' = q) :
    ∃ bus, q.resource = some (.bus bus) ∧ ∀ ts b',
      r.board.Waits [.qubit id .X, .qubit id .Z, bus] ts b' → (∀ t ∈ ts, t < 2 ^ 31) →
      p.turnTicks ≤ ts.sum → 1 ≤ ts.sum →
        (∀ basis n, b'.graph.Adj (.qubit id basis) n ↔
          b.graph.Adj (.qubit id (if p.turnTicks = 0 then basis else basis.flipped)) n) ∧
        (∀ basis, b'.ticksOf (.qubit id basis) = some 0) ∧ b'.ticksOf bus = some 0 := by
  have hsound := (pack_ends hp.sound hb.sound f rng rotations).of_ok hr
  have hpacks := hsound.packs
  obtain ⟨bus, hbus, hresource, hnodes⟩ := (hsound.fresh q hq).serves.exists_bus hk hedge
  have hcontains : q.tree.contains bus = true := (hnodes bus).2 (Or.inr rfl)
  have hbegins := midTurn_of_pack hp hb hr hq hk hedge hwhole halone
  refine ⟨bus, hresource, fun ts b' hwaits hts hup hsome => ?_⟩
  obtain ⟨hadj, hzero⟩ := (hwaits.midTurn hts (fun basis => by cases basis <;> simp) hbegins).after hup
  refine ⟨fun basis n => by rw [hadj, hpacks.occupies.graph], hzero, ?_⟩
  have hover : ∀ t, r.board.ticksOf bus = some t → t ≤ ts.sum → b'.ticksOf bus = some 0 := by
    intro t ht hle
    rw [hwaits.ticksOf_bus hbegins.sound hts hbus (by simp) ht, Option.some_inj, Board.ticksAfter]
    omega
  by_cases hzero : p.turnTicks = 0
  · rcases (free_of_pack hp hb hr hq hzero hcontains).2 hbus with hfree | hbrief
    · exact hover 0 hfree (by omega)
    · exact hover 1 hbrief (by omega)
  · exact hover p.turnTicks (hpacks.turn hzero q hq ⟨bus, hresource⟩ bus hcontains) hup

end Turn

end Packer

end LatticeSurgery
