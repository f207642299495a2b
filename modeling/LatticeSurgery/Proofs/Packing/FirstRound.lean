import LatticeSurgery.Proofs.Packing.Failures
import LatticeSurgery.Proofs.Packing.Shape
import LatticeSurgery.Proofs.Random.Draw

/-!
# The first round

The first round packs measurements of a single boundary and turns. Each tree consists of boundaries
of the own qubits and of bus tiles, all of them open when the round began, and only turns change the
board. Trees of rotations that are rigid on different qubits do not meet, since the bus tile of a
turn is closed afterwards.
-/

namespace LatticeSurgery

open Ordered WordSource

/-- If one of the rotations is rigid, the two act on different qubits. -/
def Rotation.RigidApart (r s : Rotation) : Prop :=
  r.isRigid = true ∨ s.isRigid = true → r.activeQubits.disjoint s.activeQubits = true

theorem Rotation.RigidApart.symm {r s : Rotation} (h : r.RigidApart s) : s.RigidApart r := by
  intro hrigid
  rw [SortedSet.disjoint_comm]
  exact h hrigid.symm

namespace Packed

variable {p : Packed} {b b' : Board}

/-- A packing that was found on a board: its tree is sound and made of edges and open nodes of the
board, and it serves its rotation. -/
structure Fresh (b : Board) (p : Packed) : Prop where
  tree : p.tree.Sound
  edge : ∀ n m, p.tree.shape.Adj n m → b.graph.Adj n m
  opened : ∀ n, p.tree.contains n = true → n ∉ b.unavailable
  serves : p.Serves

/-- What is found after nodes were occupied could have been found before. -/
theorem Fresh.of_occupies (hb : b.Sound) (h : b.Occupies b') (hp : p.Fresh b') : p.Fresh b :=
  ⟨hp.tree, fun n m hnm => h.graph ▸ hp.edge n m hnm,
    fun n hn hclosed => hp.opened n hn (h.mem_unavailable hb hclosed), hp.serves⟩

/-- A packing that was found on a board and could be committed there. -/
structure Found (b : Board) (turnTicks : Int) (p : Packed) : Prop where
  fresh : p.Fresh b
  ready : p.ReadyOn b turnTicks
  node : ∀ n, p.tree.contains n = true → n.kind ≠ .patch .qubit → b.graph.hasNode n = true
  shaped : ¬ p.Turning → p.Shaped

end Packed

namespace Packer

open Packed

variable {σ : Type} [WordSource σ] {b b₀ : Board} {f f₀ : Factories} {turnTicks : Int}
  {r : Rotation} {rng rng₀ : σ}

/-! ## Turns -/

/-- The rotation acts on patches that are not busy. -/
def FreeOn (b : Board) (r : Rotation) : Prop :=
  ∀ q ∈ r.activeQubits, ∀ basis, Node.qubit q basis ∉ b.unavailable

theorem freeOn_iff : FreeOn b r ↔ r.activeQubits.disjoint b.busyQubits = true := by
  rw [SortedSet.disjoint_iff]
  simp only [Board.mem_busyQubits, not_exists, FreeOn]

/-- A turn is packed on the boundary that faces the bus and a bus tile that is open. The patch must
be free, apart from a turn of the same round. -/
theorem packTurn_ends (hb : b.Sound) (f : Factories) (hk : r.kind = .turn)
    (hfree : ∀ q ∈ r.activeQubits, ∀ basis, Node.qubit q basis ∉ b.unavailable ∨
      b.ticksOf (.qubit q basis) = some turnTicks) (rng : σ) :
    Ends (packTurn turnTicks r b f rng) (fun e => 0 ≤ turnTicks → CanCause rng e) fun s =>
      Keeps rng s.2.2.2 ∧ f.SameSetup s.2.2.1 ∧
        ((∀ p, s.1 ≠ .packed p) ∧ s.2.1 = b ∨
          ∃ p bus, s.1 = .packed p ∧ p.rotation = r ∧ p.tree.Sound ∧ p.Serves ∧
            p.resource = some (.bus bus) ∧ bus ∉ b.unavailable ∧ p.ReadyOn b turnTicks ∧
            (∀ n m, p.tree.shape.Adj n m → b.graph.Adj n m) ∧ p.Commits b turnTicks s.2.1) := by
  unfold packTurn
  split
  · exact ⟨Keeps.refl rng, Factories.SameSetup.refl f, Or.inl ⟨by simp, rfl⟩⟩
  · next edge rest hnodes =>
    have hedge : edge ∈ r.activeNodes := by
      rw [SortedSet.mem_def, hnodes]
      exact List.mem_cons_self
    dsimp only
    refine Ends.bind ((Draw.element_ends _ rng).mono (fun e he _ => he) fun _ h => h) ?_
    rintro ⟨drawn, rng'⟩ ⟨hdrawn, hkeeps⟩
    cases drawn with
    | none => exact ⟨hkeeps, Factories.SameSetup.refl f, Or.inl ⟨by simp, rfl⟩⟩
    | some bus =>
      have hbus := hdrawn bus rfl
      rw [List.mem_filter, Bool.and_eq_true] at hbus
      obtain ⟨hneighbor, hisBus, havailable⟩ := hbus
      have hadj : b.graph.Adj edge.opposite bus := (hb.graph.mem_neighbors _ _).1 hneighbor
      obtain ⟨hbusNode, hbusOpen⟩ := Board.isAvailable_iff.1 havailable
      obtain ⟨q, basis, rfl, hq⟩ := Rotation.exists_of_mem_activeNodes hedge
      set p : Packed := ⟨r, (∅ : Tree).addEdge (Node.qubit q basis).opposite bus
        ((b.graph.weight? (Node.qubit q basis).opposite bus).getD busWeight), some (.bus bus)⟩
        with hp
      have hcontains : ∀ n, p.tree.contains n = true ↔
          n = (Node.qubit q basis).opposite ∨ n = bus := fun n => by
        refine (Tree.contains_addEdge Tree.sound_empty.wellFormed).trans ?_
        rw [Tree.not_contains_empty]
        simp
      have hserves : p.Serves := by
        unfold Serves
        rw [hp, hk]
        refine ⟨_, hedge, ?_, bus, hisBus, rfl, hcontains⟩
        rw [hnodes]
        rfl
      have hready : p.ReadyOn b turnTicks := by
        intro n hn
        rcases (hcontains n).1 hn with rfl | rfl
        · exact ⟨by simp [Node.opposite, Node.kind], hb.graph.hasNode_left hadj,
            hfree q hq basis.flipped⟩
        · refine ⟨?_, hbusNode, Or.inl hbusOpen⟩
          intro hmagic
          cases n with
          | bus i => cases hmagic
          | boundary k i c => cases hisBus
      refine Ends.bind ((commit_ends hb f hserves.holds hready).mono ?_ fun _ h => h : Ends _ _
        fun r => p.Commits b turnTicks r.1 ∧ f.SameSetup r.2) ?_
      · rintro e ⟨-, hneg⟩ hpos
        omega
      · rintro ⟨b', f'⟩ ⟨hcommits, hsetup⟩
        refine ⟨hkeeps, hsetup,
          Or.inr ⟨p, bus, rfl, rfl, ?_, hserves, rfl, hbusOpen, hready, ?_, hcommits⟩⟩
        · exact Tree.sound_empty.addEdge _ (Or.inr (Or.inr fun n => Tree.not_contains_empty n))
        · intro n m hnm
          rcases Graph.adj_addEdge.1 hnm with ⟨rfl, rfl⟩ | ⟨rfl, rfl⟩ | hnm
          · exact hadj
          · exact hadj.symm
          · exact absurd hnm (Graph.not_adj_empty n m)

/-! ## The round -/

/-- What the first round keeps while it goes through the rotations, of which it has seen some. -/
structure FirstRound.Sound (turnTicks : Int) (b₀ : Board) (f₀ : Factories) (rng₀ : σ)
    (seen : List Rotation) (s : FirstRound σ) : Prop where
  occupies : b₀.Occupies s.board
  setup : f₀.SameSetup s.factories
  rng : Keeps rng₀ s.rng
  packed : ∀ p ∈ s.packed, p.Found b₀ turnTicks
  rigid : ∀ p ∈ s.packed, p.rotation.isRigid = true
  free : ∀ p ∈ s.packed, FreeOn b₀ p.rotation
  nodes : ∀ p ∈ s.packed, ∀ n, p.tree.contains n = true →
    (n.kind = .patch .qubit ∧ n.id ∈ p.rotation.activeQubits) ∨ (p.Turning ∧ n.kind = .bus)
  frame : ∀ n, (∀ p ∈ s.packed, p.Turning → p.tree.contains n = false) →
    s.board.ticksOf n = b₀.ticksOf n
  turn : ∀ p ∈ s.packed, p.Turning → ∀ n, p.tree.contains n = true →
    s.board.ticksOf n = some turnTicks
  order : (s.packed.map Packed.rotation ++ s.remaining).Subperm seen
  apart : turnTicks ≠ 0 → seen.Pairwise Rotation.RigidApart → s.packed.Pairwise Apart

variable {seen : List Rotation} {s : FirstRound σ}

theorem FirstRound.Sound.skip (h : s.Sound turnTicks b₀ f₀ rng₀ seen) (r : Rotation) :
    s.Sound turnTicks b₀ f₀ rng₀ (seen ++ [r]) :=
  { h with
    order := h.order.trans (List.sublist_append_left _ _).subperm
    apart := fun hpos hseen => h.apart hpos (List.pairwise_append.1 hseen).1 }

theorem FirstRound.Sound.fails (h : s.Sound turnTicks b₀ f₀ rng₀ seen) (fails : FailCounts) :
    { s with fails := fails }.Sound turnTicks b₀ f₀ rng₀ seen :=
  { h with }

theorem FirstRound.Sound.route (h : s.Sound turnTicks b₀ f₀ rng₀ seen) (r : Rotation) :
    { s with remaining := s.remaining ++ [r] }.Sound turnTicks b₀ f₀ rng₀ (seen ++ [r]) :=
  { h with
    order := by
      rw [← List.append_assoc]
      exact (List.subperm_append_right [r]).2 h.order
    apart := fun hpos hseen => h.apart hpos (List.pairwise_append.1 hseen).1 }

/-- The rotations packed so far act on other qubits than a rigid one. -/
theorem FirstRound.Sound.disjoint (h : s.Sound turnTicks b₀ f₀ rng₀ seen)
    (hseen : (seen ++ [r]).Pairwise Rotation.RigidApart) {p : Packed} (hp : p ∈ s.packed) :
    p.rotation.activeQubits.disjoint r.activeQubits = true := by
  have hmem : p.rotation ∈ seen := h.order.subset
    (List.mem_append_left _ (List.mem_map_of_mem hp))
  exact (List.pairwise_append.1 hseen).2.2 _ hmem r (by simp) (Or.inl (h.rigid p hp))

/-- The tree of a rotation that is rigid does not meet the trees packed so far. -/
theorem FirstRound.Sound.apart_of_rigid (h : s.Sound turnTicks b₀ f₀ rng₀ seen) {p : Packed}
    (hpos : turnTicks ≠ 0) (hseen : (seen ++ [p.rotation]).Pairwise Rotation.RigidApart)
    (hnodes : ∀ n, p.tree.contains n = true →
      (n.kind = .patch .qubit ∧ n.id ∈ p.rotation.activeQubits) ∨
        (p.Turning ∧ n.kind = .bus ∧ n ∉ s.board.unavailable)) {q : Packed} (hq : q ∈ s.packed) :
    q.Apart p := by
  intro n hn
  by_contra hpn
  rw [Bool.not_eq_false] at hpn
  have hdisjoint := SortedSet.disjoint_iff.1 (h.disjoint hseen hq)
  rcases h.nodes q hq n hn with ⟨hk, hid⟩ | ⟨hturn, hbus⟩
  · rcases hnodes n hpn with ⟨-, hid'⟩ | ⟨-, hbus', -⟩
    · exact hdisjoint _ hid hid'
    · rw [hk] at hbus'
      cases hbus'
  · rcases hnodes n hpn with ⟨hk', -⟩ | ⟨-, -, hopen⟩
    · rw [hbus] at hk'
      cases hk'
    · -- the bus tile of an earlier turn is closed
      have hticks := h.turn q hq hturn n hn
      have hnonneg : 0 ≤ turnTicks :=
        (h.occupies.sound.means hticks).nonneg (by rw [hbus]; simp) (by rw [hbus]; simp)
      exact hopen (h.occupies.sound.mem_unavailable_of_pos hticks (by omega))

/-- A rotation that is packed on its own: the invariant goes on if the new packing is fresh and
keeps to its qubits and bus tiles. -/
theorem FirstRound.Sound.pack (h : s.Sound turnTicks b₀ f₀ rng₀ seen) {p : Packed} {b' : Board}
    {f' : Factories} {rng' : σ} (hb : b₀.Sound) (hcommits : p.Commits s.board turnTicks b')
    (hsetup : f₀.SameSetup f') (hrng : Keeps rng₀ rng') (hfound : p.Found b₀ turnTicks)
    (hrigid : p.rotation.isRigid = true) (hfree : FreeOn b₀ p.rotation)
    (hsame : ¬ p.Turning → b' = s.board)
    (hnodes : ∀ n, p.tree.contains n = true →
      (n.kind = .patch .qubit ∧ n.id ∈ p.rotation.activeQubits) ∨
        (p.Turning ∧ n.kind = .bus ∧ n ∉ s.board.unavailable)) :
    { s with packed := s.packed ++ [p], board := b', factories := f', rng := rng' }.Sound
      turnTicks b₀ f₀ rng₀ (seen ++ [p.rotation]) where
  occupies := h.occupies.trans hb hcommits.occupies
  setup := hsetup
  rng := hrng
  packed := List.forall_mem_append.2 ⟨h.packed, List.forall_mem_singleton.2 hfound⟩
  rigid := List.forall_mem_append.2 ⟨h.rigid, List.forall_mem_singleton.2 hrigid⟩
  free := List.forall_mem_append.2 ⟨h.free, List.forall_mem_singleton.2 hfree⟩
  nodes := by
    refine List.forall_mem_append.2 ⟨h.nodes, List.forall_mem_singleton.2 fun n hn => ?_⟩
    rcases hnodes n hn with hn | hn
    · exact Or.inl hn
    · exact Or.inr ⟨hn.1, hn.2.1⟩
  frame := by
    intro n hn
    rw [← h.frame n fun q hq => hn q (List.mem_append_left _ hq)]
    by_cases hturn : p.Turning
    · exact hcommits.frame n (hn p (by simp) hturn)
    · rw [hsame hturn]
  turn := by
    refine List.forall_mem_append.2 ⟨fun q hq hturn n hn => ?_,
      List.forall_mem_singleton.2 fun hturn n hn => hcommits.turn hturn n hn⟩
    -- an earlier turn keeps its countdown, unless the new turn sets the same one
    by_cases hpn : p.tree.contains n = true
    · by_cases hturn' : p.Turning
      · exact hcommits.turn hturn' n hpn
      · show b'.ticksOf n = some turnTicks
        rw [hsame hturn']
        exact h.turn q hq hturn n hn
    · exact (hcommits.frame n (by simpa using hpn)).trans (h.turn q hq hturn n hn)
  order := by
    have hperm : ((s.packed ++ [p]).map Packed.rotation ++ s.remaining).Perm
        ((s.packed.map Packed.rotation ++ s.remaining) ++ [p.rotation]) := by
      rw [List.map_append, List.append_assoc, List.append_assoc]
      exact (List.perm_append_comm).append_left _
    exact hperm.subperm.trans ((List.subperm_append_right _).2 h.order)
  apart := by
    intro hpos hseen
    refine List.pairwise_append.2 ⟨h.apart hpos (List.pairwise_append.1 hseen).1,
      List.pairwise_singleton _ _, fun q hq => List.forall_mem_singleton.2 ?_⟩
    exact h.apart_of_rigid hpos hseen hnodes hq

/-! ## The kinds of rotations -/

/-- Only a measurement of a single boundary is packed alone, and only if its patch is free. -/
theorem triage_alone {busy : SortedSet Nat} {magicFree : Bool} {tree : Tree}
    (h : triage busy magicFree r = .alone tree) : r.kind = .measurement ∧
      r.activeQubits.disjoint busy = true ∧
      ∃ n, r.activeNodes.toList = [n] ∧ tree = Tree.single n := by
  unfold triage at h
  dsimp only at h
  split at h
  · split at h <;> cases h
  · next hk =>
    split at h
    · next n hnodes =>
      split at h
      · next hfree =>
        cases h
        exact ⟨hk, hfree, n, hnodes, rfl⟩
      · cases h
    · split at h <;> cases h
  · split at h <;> cases h
  · split at h <;> cases h

/-- Only a turn is packed at once, and only if its patch is free. -/
theorem triage_turn {busy : SortedSet Nat} {magicFree : Bool}
    (h : triage busy magicFree r = .turn) :
    r.kind = .turn ∧ r.activeQubits.disjoint busy = true := by
  unfold triage at h
  dsimp only at h
  split at h
  · split at h <;> cases h
  · split at h
    · split at h <;> cases h
    · split at h <;> cases h
  · next hk =>
    split at h
    · next hfree => exact ⟨hk, hfree⟩
    · cases h
  · split at h <;> cases h

/-- A measurement of a single boundary is packed with the boundary as its tree. -/
theorem FirstRound.Sound.pack_alone (h : s.Sound turnTicks b₀ f₀ rng₀ seen) (hb : b₀.Sound)
    (hk : r.kind = .measurement) (hfree : FreeOn b₀ r) {n : Node}
    (hnodes : r.activeNodes.toList = [n]) :
    { s with packed := s.packed ++ [(⟨r, Tree.single n, none⟩ : Packed)] }.Sound
      turnTicks b₀ f₀ rng₀ (seen ++ [r]) := by
  have hn : n ∈ r.activeNodes := by
    rw [SortedSet.mem_def, hnodes]
    exact List.mem_cons_self
  obtain ⟨q, basis, rfl, hq⟩ := Rotation.exists_of_mem_activeNodes hn
  set p : Packed := ⟨r, Tree.single (.qubit q basis), none⟩ with hp
  have hturning : ¬ p.Turning := not_turning_of_resource rfl (by simp)
  have hfresh : p.Fresh b₀ := by
    refine ⟨Tree.sound_single _, fun _ _ h => absurd h Tree.not_adj_single, fun m hm => ?_, ?_⟩
    · rw [Tree.contains_single.1 hm]
      exact hfree q hq basis
    · unfold Serves
      rw [hp, hk]
      refine ⟨fun m _ => Tree.contains_single.trans ?_, rfl⟩
      rw [SortedSet.mem_def, hnodes, List.mem_singleton]
  have hfound : p.Found b₀ turnTicks := by
    refine ⟨hfresh, trivial, fun m hm hk => absurd ?_ hk, fun _ => shaped_single hnodes⟩
    rw [Tree.contains_single.1 hm]
    rfl
  refine h.pack (p := p) hb ?_ h.setup h.rng hfound ?_ hfree (fun _ => rfl) fun m hm => ?_
  · exact ⟨Board.Occupies.refl h.occupies.sound, fun _ _ => rfl, fun _ _ _ => rfl,
      fun hturn => absurd hturn hturning⟩
  · simp [hp, Rotation.isRigid, hk]
  · rw [Tree.contains_single.1 hm]
    exact Or.inl ⟨rfl, hq⟩

/-- The patch of a turn was free, so it is open unless it has been turned in this round. -/
theorem FirstRound.Sound.opened_or_turned (h : s.Sound turnTicks b₀ f₀ rng₀ seen) (hb : b₀.Sound)
    (hfree : FreeOn b₀ r) {q : Nat} (hq : q ∈ r.activeQubits) (basis : Basis) :
    .qubit q basis ∉ s.board.unavailable ∨ s.board.ticksOf (.qubit q basis) = some turnTicks := by
  by_cases hused : ∃ p ∈ s.packed, p.Turning ∧ p.tree.contains (.qubit q basis) = true
  · obtain ⟨p, hp, hturn, hn⟩ := hused
    exact Or.inr (h.turn p hp hturn _ hn)
  · refine Or.inl fun hclosed => hfree q hq basis ?_
    have hsame := h.frame (.qubit q basis) fun p hp hturn => by
      by_contra hn
      exact hused ⟨p, hp, hturn, by simpa using hn⟩
    obtain ⟨t, ht, hclosed⟩ := h.occupies.sound.mem_unavailable.1 hclosed
    exact hb.mem_unavailable.2 ⟨t, hsame ▸ ht, hclosed⟩

/-- A turn is packed with a boundary of its patch and an open bus tile as its tree. -/
theorem FirstRound.Sound.pack_turn (h : s.Sound turnTicks b₀ f₀ rng₀ seen) (hb : b₀.Sound)
    {p : Packed} {b' : Board} {f' : Factories} {rng' : σ} {bus : Node}
    (hfree : FreeOn b₀ p.rotation) (htree : p.tree.Sound) (hserves : p.Serves)
    (hres : p.resource = some (.bus bus)) (hbus : bus ∉ s.board.unavailable)
    (hready : p.ReadyOn s.board turnTicks)
    (hedge : ∀ n m, p.tree.shape.Adj n m → s.board.graph.Adj n m)
    (hcommits : p.Commits s.board turnTicks b') (hsetup : f₀.SameSetup f')
    (hrng : Keeps rng₀ rng') :
    { s with packed := s.packed ++ [p], board := b', factories := f', rng := rng' }.Sound
      turnTicks b₀ f₀ rng₀ (seen ++ [p.rotation]) := by
  have hturn : p.Turning := ⟨bus, hres⟩
  have hfresh : p.Fresh b₀ := by
    refine ⟨htree, fun n m hnm => h.occupies.graph ▸ hedge n m hnm, fun n hn => ?_, hserves⟩
    rcases hserves.node_of_turn hres hn with ⟨q, hq, basis, rfl⟩ | rfl
    · exact hfree q hq basis
    · exact fun hclosed => hbus (h.occupies.mem_unavailable hb hclosed)
  have hnodes : ∀ n, p.tree.contains n = true →
      n.kind ≠ .patch .magic ∧ b₀.graph.hasNode n = true := by
    unfold ReadyOn at hready
    rw [hres] at hready
    exact fun n hn => ⟨(hready n hn).1, h.occupies.graph ▸ (hready n hn).2.1⟩
  have hfound : p.Found b₀ turnTicks := by
    refine ⟨hfresh, ?_, fun n hn _ => (hnodes n hn).2, fun hnot => absurd hturn hnot⟩
    unfold ReadyOn
    rw [hres]
    exact fun n hn => ⟨(hnodes n hn).1, (hnodes n hn).2, Or.inl (hfresh.opened n hn)⟩
  refine h.pack hb hcommits hsetup hrng hfound ?_ hfree (fun hnot => absurd hturn hnot)
    fun n hn => ?_
  · simp [Rotation.isRigid, hserves.turning_iff.1 hturn]
  · rcases hserves.node_of_turn hres hn with ⟨q, hq, basis, rfl⟩ | rfl
    · exact Or.inl ⟨rfl, hq⟩
    · exact Or.inr ⟨hturn, hserves.kind_of_bus hres, hbus⟩

/-! ## The run through the rotations -/

/-- The first round keeps what it promises. It fails only when a draw does, when the countdown of a
turn is negative, or when a count of failures has no room left for the rotations. -/
theorem firstRound_ends (hb : b₀.Sound) (magicFree : Bool) (rs : List Rotation)
    (h : s.Sound turnTicks b₀ f₀ rng₀ seen) :
    Ends (firstRound turnTicks b₀.busyQubits magicFree rs s)
      (fun e => (0 ≤ turnTicks → CanCause rng₀ e) ∨ s.fails.Overruns rs.length e)
      fun s' => s'.Sound turnTicks b₀ f₀ rng₀ (seen ++ rs) := by
  induction rs generalizing s seen with
  | nil =>
    rw [List.append_nil]
    exact h
  | cons r rs ih =>
    have hlonger : ∀ e, (0 ≤ turnTicks → CanCause rng₀ e) ∨ s.fails.Overruns rs.length e →
        (0 ≤ turnTicks → CanCause rng₀ e) ∨ s.fails.Overruns (r :: rs).length e := fun e he =>
      he.imp_right fun hover => hover.mono (Nat.le_succ _)
    rw [List.append_cons]
    unfold firstRound
    split
    · exact (ih (h.skip r)).mono hlonger fun _ h => h
    · next tree htriage =>
      obtain ⟨hk, hfree, n, hnodes, rfl⟩ := triage_alone htriage
      exact (ih (h.pack_alone hb hk (freeOn_iff.2 hfree) hnodes)).mono hlonger fun _ h => h
    · exact (ih (h.route r)).mono hlonger fun _ h => h
    · next htriage =>
      obtain ⟨hk, hfree⟩ := triage_turn htriage
      have hopen := fun q (hq : q ∈ r.activeQubits) basis =>
        h.opened_or_turned hb (freeOn_iff.2 hfree) hq basis
      refine Ends.bind ((packTurn_ends h.occupies.sound s.factories hk hopen s.rng).mono
        (fun e he => Or.inl fun hpos => (he hpos).of_keeps h.rng) fun _ h => h) ?_
      rintro ⟨outcome, b', f', rng'⟩ ⟨hrng, hsetup, hpacked⟩
      have hrng' : Keeps rng₀ rng' := h.rng.trans hrng
      have hsetup' : f₀.SameSetup f' := h.setup.trans hsetup
      refine Ends.bind ((FirstRound.settle_ends outcome _).mono
        (fun e he => Or.inr (he.mono (Nat.le_add_left _ _))) fun _ h => h) ?_
      rintro _ ⟨fails, hgrows, rfl⟩
      have hnext : ({ s with
          packed := s.packed ++ outcome.packings, board := b', factories := f', fails := fails,
          rng := rng' } : FirstRound σ).Sound turnTicks b₀ f₀ rng₀ (seen ++ [r]) := by
        rcases hpacked with ⟨hnot, rfl⟩ | ⟨p, bus, rfl, rfl, htree, hserves, hres, hbus, hready,
          hedge, hcommits⟩
        · rw [Outcome.packings_eq_nil hnot, List.append_nil]
          exact { h.skip r with setup := hsetup', rng := hrng' }
        · exact (h.pack_turn hb (freeOn_iff.2 hfree) htree hserves hres hbus hready hedge hcommits
            hsetup' hrng').fails fails
      refine (ih hnext).mono (fun e he => he.imp_right fun hover => ?_) fun _ h => h
      exact (hover.of_growsBy hgrows).mono (Nat.add_comm _ _).le

/-- A rotation that fails in the first round is not left for the second one. -/
theorem fails_of_firstRound {busy : SortedSet Nat} {magicFree : Bool} {rs : List Rotation}
    {s s' : FirstRound σ} (h : firstRound turnTicks busy magicFree rs s = .ok s') (reason : FailReason) :
    s'.fails.get reason + s'.remaining.length ≤
      s.fails.get reason + s.remaining.length + rs.length := by
  induction rs generalizing s with
  | nil =>
    cases h
    exact le_rfl
  | cons r rs ih =>
    obtain ⟨s₁, hstep, hrest⟩ := FirstRound.exists_step h
    have hle := ih hrest
    rw [List.length_cons]
    cases hstep with
    | defer => omega
    | alone =>
      dsimp only at hle
      omega
    | route =>
      simp only [List.length_append, List.length_singleton] at hle
      omega
    | turn _ _ hcount =>
      have hone := Outcome.growsBy_of_count hcount reason
      dsimp only at hle
      omega

end Packer

end LatticeSurgery
