import LatticeSurgery.Proofs.Board.Facing
import LatticeSurgery.Proofs.Schedule.Entries
import LatticeSurgery.Proofs.Schedule.Overlap

/-!
# Patches that two rotations of a tick share

The trees of a tick are disjoint sets of nodes, but a data patch is two nodes. Two rotations of a tick
act on a common patch exactly when each of them takes one of its boundaries (`Packed.SharedCorner`). Both
boundaries of such a patch face the bus; the rotations are π/8 or π/4 rotations that commute, and the
dependency rule is one that lets commuting rotations on the same qubits go first in any order. So under
the rule of last writers, and without corner patches, the rotations of a tick act on different patches.
-/

namespace LatticeSurgery

open Ordered WordSource

/-- In a connected graph, a node that is not the only one has a neighbour. -/
theorem Graph.Connected.touches {g : Graph Node} (hg : g.Connected) {n m : Node}
    (hn : g.hasNode n = true) (hm : g.hasNode m = true) (hne : n ≠ m) : g.Touches n := by
  rcases (hg n m hn hm).cases_head with heq | ⟨k, hk, -⟩
  · exact absurd heq hne
  · exact ⟨k, hk⟩

theorem Rotation.isRigid_eq_false_iff {r : Rotation} :
    r.isRigid = false ↔ r.kind = .pi8 ∨ r.kind = .pi4 := by
  unfold isRigid
  cases r.kind <;> simp

theorem Board.facing?_eq_both {b : Board} (hb : b.Sound) {id : Nat} :
    b.facing? id = some .both ↔ ∀ basis, b.graph.Touches (.qubit id basis) := by
  have hiff : (∀ basis, b.graph.Touches (.qubit id basis)) ↔
      0 < b.graph.degree (.qubit id .X) ∧ 0 < b.graph.degree (.qubit id .Z) := by
    simp only [hb.graph.touches_iff]
    exact ⟨fun h => ⟨h .X, h .Z⟩, fun h basis => by cases basis <;> [exact h.1; exact h.2]⟩
  rw [hiff]
  unfold facing?
  split <;> simp_all

namespace Packed

variable {b : Board} {p q : Packed} {id : Nat} {basis : Basis}

/-! ## The patches of a tree -/

/-- Each patch on which the rotation acts has a boundary in the tree, unless the rotation is a turn. -/
theorem Serves.exists_boundary (h : p.Serves) (hk : p.rotation.kind ≠ .turn)
    (hid : id ∈ p.rotation.activeQubits) : ∃ basis, p.tree.contains (.qubit id basis) = true := by
  obtain ⟨basis, hmem⟩ := Rotation.exists_mem_activeNodes hid
  exact ⟨basis, (h.spans hk _ rfl).2 hmem⟩

/-- A rotation that is not rigid has its resource in the tree. -/
theorem Serves.exists_resource (h : p.Serves) (hrigid : p.rotation.isRigid = false) :
    ∃ n, n.kind ≠ .patch .qubit ∧ p.tree.contains n = true := by
  rcases Rotation.isRigid_eq_false_iff.1 hrigid with hk | hk
  · obtain ⟨n, hn | hn, -, hmem⟩ := h.of_pi8 hk
    · exact ⟨n, by simp [hn], hmem⟩
    · exact ⟨n, by simp [hn], hmem⟩
  · obtain ⟨i, -, hmem, -⟩ := h.of_pi4 hk
    exact ⟨_, by simp [Node.kind], hmem⟩

/-- Fitting a packing to another rotation moves the boundaries within their patches. -/
theorem Refits.exists_boundary_iff {r : Rotation} (h : Refits b q r p) :
    (∃ basis, p.tree.contains (.qubit id basis) = true) ↔
      ∃ basis, q.tree.contains (.qubit id basis) = true := by
  have hname : ∀ m, swapped q.tree r.requiredNodes m = m ∨
      swapped q.tree r.requiredNodes m = m.opposite := fun m =>
    (Refits.swapped_eq_or r q.tree m).imp_right And.right
  constructor
  · rintro ⟨basis, hn⟩
    obtain ⟨m, hm, heq⟩ := (h.nodes _).1 hn
    rcases hname m with hself | hopposite
    · exact ⟨basis, by rwa [heq, hself]⟩
    · refine ⟨basis.flipped, ?_⟩
      have hflip : m = .qubit id basis.flipped := by
        rw [← Node.opposite_opposite m, ← hopposite, ← heq]
        rfl
      rwa [← hflip]
  · rintro ⟨basis, hm⟩
    rcases hname (.qubit id basis) with hself | hopposite
    · exact ⟨basis, (h.nodes _).2 ⟨_, hm, hself.symm⟩⟩
    · exact ⟨basis.flipped, (h.nodes _).2 ⟨_, hm, hopposite.symm⟩⟩

/-- The tree stands on the patches of its rotation: it contains boundaries of these patches only, one of
each of them unless the rotation is a turn, and the boundaries of a rotation that is not rigid are joined
to the board. -/
structure Stands (b : Board) (p : Packed) : Prop where
  own : ∀ id basis, p.tree.contains (.qubit id basis) = true → id ∈ p.rotation.activeQubits
  all : p.rotation.kind ≠ .turn → ∀ id ∈ p.rotation.activeQubits,
    ∃ basis, p.tree.contains (.qubit id basis) = true
  joined : p.rotation.isRigid = false → ∀ id basis, p.tree.contains (.qubit id basis) = true →
    b.graph.Touches (.qubit id basis)

theorem joined_of_resource (htree : p.tree.Sound)
    (hedge : ∀ n m, p.tree.shape.Adj n m → b.graph.Adj n m) {n : Node}
    (hk : n.kind ≠ .patch .qubit) (hn : p.tree.contains n = true)
    (hid : p.tree.contains (.qubit id basis) = true) : b.graph.Touches (.qubit id basis) := by
  obtain ⟨m, hm⟩ := htree.connected.touches hid hn fun heq => hk (by rw [← heq]; rfl)
  exact ⟨m, hedge _ _ hm⟩

theorem Fresh.stands (h : p.Fresh b) : p.Stands b := by
  refine ⟨fun id basis => h.serves.mem_activeQubits,
    fun hk id => h.serves.exists_boundary hk, fun hrigid id basis hn => ?_⟩
  obtain ⟨n, hk, hmem⟩ := h.serves.exists_resource hrigid
  exact joined_of_resource h.tree h.edge hk hmem hn

theorem Refits.stands (hq : PackingCache.Kept p.rotation.key q)
    (h : Refits b q p.rotation p) : p.Stands b := by
  obtain ⟨hkind, hqubits⟩ := Rotation.key_eq_iff.1 hq.key
  refine ⟨fun id basis hn => ?_, fun hk id hid => ?_, fun hrigid id basis hn => ?_⟩
  · obtain ⟨basis', hn'⟩ := h.exists_boundary_iff.1 ⟨basis, hn⟩
    exact hqubits ▸ hq.serves.mem_activeQubits hn'
  · exact h.exists_boundary_iff.2 (hq.serves.exists_boundary (hkind ▸ hk) (hqubits ▸ hid))
  · have hrigid' : q.rotation.isRigid = false := by
      rwa [Rotation.isRigid_eq_false_iff, hkind, ← Rotation.isRigid_eq_false_iff]
    obtain ⟨n, hk, hmem⟩ := hq.serves.exists_resource hrigid'
    exact joined_of_resource h.tree h.edge hk (h.contains_of_contains hk hmem) hn

/-! ## Shared patches -/

/-- Two packed rotations share the patch with the number `id`: each has one of its boundaries in its
tree. Both boundaries face the bus, and the rotations are commuting π/8 or π/4 rotations under a rule that
leaves such rotations unordered. -/
structure SharedCorner (rule : DependencyRule) (b : Board) (id : Nat) (p q : Packed) : Prop where
  boundaries : ∃ basis, p.tree.contains (.qubit id basis) = true ∧
    q.tree.contains (.qubit id basis.flipped) = true
  facing : b.facing? id = some .both
  kinds : (p.rotation.kind = .pi8 ∨ p.rotation.kind = .pi4) ∧
    (q.rotation.kind = .pi8 ∨ q.rotation.kind = .pi4)
  commutes : p.rotation.commutes q.rotation = true
  rule : rule ≠ .trivialCommute

/-- Of two rotations that commute and whose trees do not meet, a patch on which both act is one that they
share by its boundaries. -/
theorem Stands.shared_iff (hb : b.Sound) (hp : p.Stands b) (hq : q.Stands b) {rule : DependencyRule}
    (hcommutes : p.rotation.commutes q.rotation = true)
    (hrule : rule = .trivialCommute →
      p.rotation.activeQubits.disjoint q.rotation.activeQubits = true)
    (hapart : p.rotation.isRigid = false → q.rotation.isRigid = false → p.Apart q) :
    (id ∈ p.rotation.activeQubits ∧ id ∈ q.rotation.activeQubits) ↔ SharedCorner rule b id p q := by
  constructor
  · rintro ⟨hidp, hidq⟩
    have hshared : p.rotation.activeQubits.disjoint q.rotation.activeQubits = false :=
      SortedSet.disjoint_eq_false_iff.2 ⟨id, hidp, hidq⟩
    have hrigid : p.rotation.isRigid = false ∧ q.rotation.isRigid = false := by
      by_contra hnot
      rw [not_and_or, Bool.not_eq_false, Bool.not_eq_false] at hnot
      rw [Rotation.commutes_of_isRigid hnot, hshared] at hcommutes
      cases hcommutes
    have hkinds := hrigid.imp Rotation.isRigid_eq_false_iff.1 Rotation.isRigid_eq_false_iff.1
    have hturn : ∀ r : Rotation, r.kind = .pi8 ∨ r.kind = .pi4 → r.kind ≠ .turn := by
      rintro r (hk | hk) <;> simp [hk]
    obtain ⟨basis, hbp⟩ := hp.all (hturn _ hkinds.1) id hidp
    obtain ⟨basis', hbq⟩ := hq.all (hturn _ hkinds.2) id hidq
    -- the trees do not meet, so the other one has the other boundary
    have hflip : basis' = basis.flipped := by
      by_contra hne
      have heq : basis' = basis := by cases basis <;> cases basis' <;> simp_all [Basis.flipped]
      rw [heq, hapart hrigid.1 hrigid.2 _ hbp] at hbq
      cases hbq
    subst hflip
    refine ⟨⟨basis, hbp, hbq⟩, (Board.facing?_eq_both hb).2 fun c => ?_, hkinds, hcommutes,
      fun htrivial => ?_⟩
    · have hcases : c = basis ∨ c = basis.flipped := by cases c <;> cases basis <;> simp [Basis.flipped]
      rcases hcases with rfl | rfl
      · exact hp.joined hrigid.1 id _ hbp
      · exact hq.joined hrigid.2 id _ hbq
    · rw [hrule htrivial] at hshared
      cases hshared
  · rintro ⟨⟨basis, hbp, hbq⟩, -, -, -, -⟩
    exact ⟨hp.own id _ hbp, hq.own id _ hbq⟩

end Packed

namespace Run

variable {σ : Type} [WordSource σ] {conf : Configuration} {c : Circuit} {rng : σ} {done : Finset Nat}
  {s : Run σ} {ps : List Packed}

/-- Every tree of a tick stands on the patches of its rotation, and the trees of rotations that are not
rigid do not meet. -/
theorem Assigns.stands (hs : s.Sound conf c rng done) (h : Assigns conf c s ps) :
    (∀ p ∈ ps, p.Stands s.board) ∧ ps.Pairwise fun p q =>
      p.rotation.isRigid = false → q.rotation.isRigid = false → p.Apart q := by
  cases h with
  | waits => exact ⟨by simp, List.Pairwise.nil⟩
  | packs _ hpack =>
    have hresult := (Packer.pack_ends hs.packer hs.board _ s.rng _).of_ok hpack
    exact ⟨fun p hp => (hresult.fresh p hp).stands, Packer.apart_of_not_rigid hs.packer hs.board hpack⟩
  | reuses =>
    obtain ⟨hfound, -, hapart⟩ := PackingCache.find_spec hs.cache (PackingCache.key
      (s.board.withStatus .magic .ready ∪ s.board.withStatus .storage .ready) (offered conf c s))
      (offered conf c s) s.board
    refine ⟨fun p hp => ?_, hapart.imp fun hapart _ _ => hapart⟩
    obtain ⟨-, -, q, -, hq, hrefits⟩ := hfound p hp
    exact Packed.Refits.stands hq hrefits

/-- What two rotations of a tick share. -/
theorem pairwise_shared_iff (hc : c.Numbered) (hs : s.Sound conf c rng done) {f : Filled σ}
    (h : s.fill conf c = .ok f) : f.assigned.Pairwise fun p q =>
      ∀ id, (id ∈ p.rotation.activeQubits ∧ id ∈ q.rotation.activeQubits) ↔
        p.SharedCorner conf.dependencyRule s.board id q := by
  obtain ⟨hstands, hapart⟩ := (assigns_of_fill h).stands hs
  have hpacks := ((fill_ends hs).of_ok h).packs
  have hcommutes := hpacks.pairwise_rotation (fun hr => by rwa [Rotation.commutes_comm])
    (hs.pairwise_offered hc fun hne hi hj hr hr' => hs.tracks.commutes hc hne hi hj hr hr')
  have hdisjoint := hpacks.pairwise_rotation
    (R := fun r r' => conf.dependencyRule = .trivialCommute →
      r.activeQubits.disjoint r'.activeQubits = true)
    (fun hr hrule => by rw [SortedSet.disjoint_comm]; exact hr hrule)
    (hs.pairwise_offered hc fun hne hi hj hr hr' =>
      hs.tracks.disjoint_activeQubits hc hne hi hj hr hr')
  refine ((hapart.and hcommutes).and hdisjoint).imp_of_mem ?_
  rintro p q hp hq ⟨⟨hapart, hcommutes⟩, hdisjoint⟩ id
  exact (hstands p hp).shared_iff hs.board (hstands q hq) hcommutes hdisjoint hapart

end Run

/-- On a board of a layout, parts of which may be left unused, two rotations of a tick act on a common
patch exactly when each of them takes one boundary of it, which happens on patches only that face the
bus with both boundaries, between commuting π/8 and π/4 rotations, and not under the rule of last
writers. -/
theorem patches_shared_at_corners {σ : Type} [WordSource σ] (rng : σ) {l : Layout} {b : Board}
    (hb : Board.ofLayout l = .ok b) (unused : List Node) {c : Circuit} (hc : c.Numbered)
    (conf : Configuration) {r : Schedule × Board}
    (hr : c.schedule conf (b.removeNodes unused) rng = .ok r) {t : Nat} {ps : List Packed}
    (hget : r.1.ticks.get? t = some ps) :
    ∃ s : Run σ, Run.Reachable conf c (b.removeNodes unused) rng s ∧ s.factories.tick = t ∧
      s.assigned conf c = ps ∧ ps.Pairwise fun p q =>
        ∀ id, (id ∈ p.rotation.activeQubits ∧ id ∈ q.rotation.activeQubits) ↔
          p.SharedCorner conf.dependencyRule s.board id q := by
  have hunused := (Board.ofLayout_spec hb).1.removeNodes unused
  obtain ⟨s', hs', -, rfl⟩ := (Circuit.schedule_ends hc hunused conf rng).of_ok hr
  obtain ⟨s, f, hreach, htick, hfill, rfl⟩ := hs'.exists_fill_of_log hc hunused hget
  obtain ⟨done, hs⟩ := hreach.sound hc hunused
  exact ⟨s, hreach, htick, by rw [Run.assigned, hfill], Run.pairwise_shared_iff hc hs hfill⟩

/-- Two data patches between two bus tiles each, and a magic state at each of the two ways that join
them. -/
def crossingLayout : Layout where
  bus := SortedSet.ofList [⟨0, 0⟩, ⟨1, 0⟩, ⟨2, 0⟩, ⟨1, 1⟩]
  data := SortedSet.ofList [⟨0, 1⟩, ⟨2, 1⟩]
  magic := SortedSet.ofList [⟨1, -1⟩, ⟨1, 2⟩]
  zero := ∅
  storage := ∅

/-- Rotations by π/8 of both qubits as X and as Z, which commute. -/
def crossingCircuit : Circuit :=
  Circuit.ofRotations "crossing"
    [⟨0, .pi8, .plus, SortedSet.ofList [0, 1], ∅, ∅⟩, ⟨1, .pi8, .plus, ∅, ∅, SortedSet.ofList [0, 1]⟩] 2

theorem crossingCircuit_numbered : crossingCircuit.Numbered := by
  intro i r hr
  match i, hr with
  | 0, hr | 1, hr => cases hr; rfl

/-- Only rotations that do not commute are ordered, and magic states are made in every tick. -/
def unordered : Configuration := { dependencyRule := .full, tickReplenish := 0 }

/-- Both rotations are done in the first tick. -/
theorem exists_crossing : ∃ b r p q, Board.ofLayout crossingLayout = .ok b ∧
    crossingCircuit.schedule unordered (b.removeNodes []) (⟨[0], 0⟩ : CyclicWords) = .ok r ∧
      r.1.ticks.get? 0 = some [p, q] ∧ 0 ∈ p.rotation.activeQubits ∧
        0 ∈ q.rotation.activeQubits := by
  have hrun : (Board.ofLayout crossingLayout).toOption.any (fun b =>
      (crossingCircuit.schedule unordered (b.removeNodes [])
        (⟨[0], 0⟩ : CyclicWords)).toOption.any fun r =>
          (r.1.ticks.get? 0).any fun ps =>
            ps.length == 2 && ps.all (·.rotation.activeQubits.contains 0)) = true := by
    decide +kernel
  obtain ⟨b, hb, hrun⟩ := exists_of_any_toOption hrun
  obtain ⟨r, hr, hrun⟩ := exists_of_any_toOption hrun
  obtain ⟨ps, hget, hrun⟩ := (Option.any_eq_true _ _).1 hrun
  rw [Bool.and_eq_true, beq_iff_eq, List.length_eq_two] at hrun
  obtain ⟨⟨p, q, rfl⟩, hall⟩ := hrun
  simp only [List.all_cons, List.all_nil, Bool.and_true, Bool.and_eq_true, SortedSet.contains_iff] at hall
  exact ⟨b, r, p, q, hb, hr, hget, hall⟩

/-- The first patch is shared by its two boundaries. -/
theorem crossingCircuit_shares_corner : ∃ b r p q, Board.ofLayout crossingLayout = .ok b ∧
    crossingCircuit.schedule unordered (b.removeNodes []) (⟨[0], 0⟩ : CyclicWords) = .ok r ∧
      r.1.ticks.get? 0 = some [p, q] ∧ ∃ s : Run CyclicWords,
        s.assigned unordered crossingCircuit = [p, q] ∧ p.SharedCorner .full s.board 0 q := by
  obtain ⟨b, r, p, q, hb, hr, hget, hboth⟩ := exists_crossing
  obtain ⟨s, -, -, hassigned, hpairs⟩ :=
    patches_shared_at_corners (⟨[0], 0⟩ : CyclicWords) hb [] crossingCircuit_numbered unordered hr hget
  have hpair := List.rel_of_pairwise_cons hpairs (List.mem_singleton.2 rfl)
  exact ⟨b, r, p, q, hb, hr, hget, s, hassigned, (hpair 0).1 hboth⟩

/-- Two rotations of a tick may act on a common patch. -/
theorem exists_shared_patch : ∃ (l : Layout) (c : Circuit) (conf : Configuration) (b : Board)
    (r : Schedule × Board), c.Numbered ∧ Board.ofLayout l = .ok b ∧
      c.schedule conf (b.removeNodes []) (⟨[0], 0⟩ : CyclicWords) = .ok r ∧
        ∃ t ps, r.1.ticks.get? t = some ps ∧ ¬ ps.Pairwise fun p q =>
          p.rotation.activeQubits.disjoint q.rotation.activeQubits = true := by
  obtain ⟨b, r, p, q, hb, hr, hget, hp, hq⟩ := exists_crossing
  refine ⟨_, _, _, b, r, crossingCircuit_numbered, hb, hr, 0, _, hget, fun hpairs => ?_⟩
  have hdisjoint := List.rel_of_pairwise_cons hpairs (List.mem_singleton.2 rfl)
  exact SortedSet.disjoint_iff.1 hdisjoint 0 hp hq

end LatticeSurgery
