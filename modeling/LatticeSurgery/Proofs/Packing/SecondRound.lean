import LatticeSurgery.Proofs.Board.Storage
import LatticeSurgery.Proofs.Packing.FirstRound
import LatticeSurgery.Proofs.Packing.Routing

/-!
# The second round

Each rotation that is routed takes its tree out of the working copy, so the trees of the second
round meet neither each other nor those of the first one. From both rounds together follows what
packing a tick does: `Packer.pack_ends`.
-/

namespace LatticeSurgery

open Ordered WordSource

namespace Packer

open Packed

variable {σ : Type} [WordSource σ] {b b' b₁ : Board} {f : Factories} {d d' : Desk} {r : Rotation}
  {seen rotations : List Rotation} {front routed ps : List Packed} {outcome : Outcome}
  {w : Graph Node} {turnTicks : Int} {rng : σ}

/-! ## Settling -/

theorem Sound.with_fails {p : Packer} (hp : p.Sound) (fails : FailCounts) :
    { p with fails := fails }.Sound :=
  ⟨hp.paths, hp.trees⟩

/-- What the second round keeps while it goes through the rotations, of which it has seen some. The
working copy had the nodes of `w` when the round began. -/
structure Routes (b₁ : Board) (w : Graph Node) (seen : List Rotation) (routed : List Packed)
    (d : Desk) : Prop where
  desk : d.Sound b₁
  shrunk : ∀ n, d.working.graph.hasNode n = true → w.hasNode n = true
  found : ∀ p ∈ routed, p.Found b₁ 0 ∧ ¬ p.Turning
  nodes : ∀ p ∈ routed, ∀ n, p.tree.contains n = true →
    w.hasNode n = true ∧ d.working.graph.hasNode n = false
  order : (routed.map Packed.rotation).Sublist seen
  apart : routed.Pairwise Apart

theorem Routes.skip (h : Routes b₁ w seen routed d) (r : Rotation) :
    Routes b₁ w (seen ++ [r]) routed d :=
  { h with order := h.order.trans (List.sublist_append_left _ _) }

/-- An attempt that packs nothing. -/
theorem Routes.unpacked (h : Routes b₁ w seen routed d) (hrouted : Routed r d outcome d')
    (hnot : ∀ p, outcome ≠ .packed p) {packer : Packer} (hpacker : packer.Sound) :
    Routes b₁ w (seen ++ [r]) routed { d' with packer := packer } := by
  have hboard : d'.board = d.board := by
    rcases hrouted.outcome with ⟨-, hboard⟩ | ⟨p, hp, -⟩
    · exact hboard
    · exact absurd hp (hnot p)
  have hdesk : Desk.Sound b₁ { d' with packer := packer } := by
    refine ⟨hboard ▸ h.desk.occupies, hboard ▸ h.desk.data, hpacker, ?_, ?_, ?_, ?_, ?_⟩
    · exact hrouted.working ▸ h.desk.wellFormed
    · exact hboard ▸ hrouted.working ▸ h.desk.within
    · exact hboard ▸ hrouted.working ▸ h.desk.opened
    · intro n hn
      obtain ⟨hkind, hready⟩ := h.desk.magic n (hrouted.stock n hn)
      exact ⟨hkind, hboard ▸ hrouted.working ▸ hready⟩
    · exact hboard ▸ hrouted.working ▸ h.desk.untouched
  exact ⟨hdesk, hrouted.working ▸ h.shrunk, h.found, hrouted.working ▸ h.nodes,
    h.order.trans (List.sublist_append_left _ _), h.apart⟩

/-- A rotation that is packed loses its nodes to the others. -/
theorem Routes.packed (hb₁ : b₁.Sound) (h : Routes b₁ w seen routed d) {p : Packed}
    (hrouted : Routed r d (.packed p) d') (fails : FailCounts) :
    Routes b₁ w (seen ++ [r]) (routed ++ [p]) (d'.enter (.packed p) fails) := by
  obtain ⟨p', heq, rfl, htree, hserves, hturning, hshaped, hready, hcommits⟩ :=
    hrouted.outcome.resolve_left fun hnot => hnot.1 p rfl
  cases heq
  have hworking := hrouted.working
  have hnode : ∀ n, (d'.enter (.packed p) fails).working.graph.hasNode n = true ↔
      d.working.graph.hasNode n = true ∧ p.tree.contains n = false := fun n => by
    show (d'.working.removeNodes p.tree.nodes).graph.hasNode n = true ↔ _
    rw [hworking, Board.hasNode_removeNodes, Tree.mem_nodes, Bool.not_eq_true]
  have hsub : (d'.working.removeNodes p.tree.nodes).graph.Within d.working.graph :=
    hworking ▸ Board.removeNodes_within h.desk.wellFormed _
  have hfresh : p.Fresh b₁ := by
    refine ⟨htree.sound, fun n m hnm => ?_, fun n hn hclosed => ?_, hserves⟩
    · exact h.desk.occupies.graph ▸ h.desk.within.edge n m (htree.within.edge n m hnm)
    · exact h.desk.opened n (htree.within.node n hn)
        (h.desk.occupies.mem_unavailable hb₁ hclosed)
  have hfound : p.Found b₁ 0 := by
    refine ⟨hfresh, ?_, fun n hn _ => ?_, fun _ => hshaped⟩
    · exact hready.congr hserves.holds hturning fun n hn =>
        (h.desk.untouched n (htree.within.node n hn)).symm
    · exact h.desk.occupies.graph ▸ h.desk.within.node n (htree.within.node n hn)
  refine ⟨⟨h.desk.occupies.trans hb₁ hcommits.occupies, h.desk.data.trans (hcommits.data hturning),
    hrouted.packer.with_fails fails, ?_, ?_, fun n hn hclosed => ?_, fun n hn => ?_, fun n hn => ?_⟩,
    fun n hn => ?_, ?_, ?_, ?_, ?_⟩
  · show (d'.working.removeNodes _).graph.WellFormed
    rw [Board.graph_removeNodes, hworking]
    exact h.desk.wellFormed.foldl_removeNode _
  · exact hcommits.occupies.graph ▸ hsub.trans h.desk.within
  · obtain ⟨hn, hnot⟩ := (hnode n).1 hn
    obtain ⟨t, ht, hclosed⟩ := hcommits.occupies.sound.mem_unavailable.1 hclosed
    rw [hcommits.frame n hnot] at ht
    exact h.desk.opened n hn (h.desk.occupies.sound.mem_unavailable.2 ⟨t, ht, hclosed⟩)
  · obtain ⟨hkind, hready⟩ := h.desk.magic n (hrouted.stock n hn)
    refine ⟨hkind, fun hn => ?_⟩
    obtain ⟨hn, hnot⟩ := (hnode n).1 hn
    exact (hcommits.frame n hnot).trans (hready hn)
  · obtain ⟨hn, hnot⟩ := (hnode n).1 hn
    exact (hcommits.frame n hnot).trans (h.desk.untouched n hn)
  · exact h.shrunk n ((hnode n).1 hn).1
  · exact List.forall_mem_append.2 ⟨h.found, List.forall_mem_singleton.2 ⟨hfound, hturning⟩⟩
  · intro q hq n hn
    rw [← Bool.not_eq_true, hnode]
    rcases List.mem_append.1 hq with hq | hq
    · obtain ⟨hw, hgone⟩ := h.nodes q hq n hn
      exact ⟨hw, fun hmem => by rw [hgone] at hmem; cases hmem.1⟩
    · obtain rfl := List.mem_singleton.1 hq
      exact ⟨h.shrunk n (htree.within.node n hn), fun hmem => by rw [hn] at hmem; cases hmem.2⟩
  · rw [List.map_append]
    exact h.order.append (List.Sublist.refl _)
  · refine List.pairwise_append.2 ⟨h.apart, List.pairwise_singleton _ _, fun q hq p' hp' n hn => ?_⟩
    obtain rfl := List.mem_singleton.1 hp'
    by_contra hpn
    rw [Bool.not_eq_false] at hpn
    have hfree := htree.within.node n hpn
    rw [(h.nodes q hq n hn).2] at hfree
    cases hfree

/-- A turn is not packed in the second round. -/
theorem Routes.mem_of_turning (h : Routes b₁ w seen routed d) {q : Packed}
    (hq : q ∈ front ++ routed) (hturn : q.Turning) : q ∈ front := by
  rcases List.mem_append.1 hq with hq | hq
  · exact hq
  · exact absurd hturn (h.found q hq).2

/-- After the outcome for a rotation was entered, the second round goes on. -/
theorem Routes.enter (hb₁ : b₁.Sound) (h : Routes b₁ w seen routed d) (hrouted : Routed r d outcome d')
    (fails : FailCounts) :
    Routes b₁ w (seen ++ [r]) (routed ++ outcome.packings) (d'.enter outcome fails) := by
  have hpacker := hrouted.packer.with_fails fails
  cases outcome with
  | packed p => exact h.packed hb₁ hrouted fails
  | failed reason =>
    rw [Outcome.packings_eq_nil (by simp), List.append_nil]
    exact h.unpacked hrouted (by simp) hpacker
  | deferred =>
    rw [Outcome.packings_eq_nil (by simp), List.append_nil]
    exact h.unpacked hrouted (by simp) hpacker

/-- The second round keeps what it promises. It fails only when a count of failures has no room left
for the rotations. -/
theorem secondRound_ends (hb₁ : b₁.Sound) (front : List Packed) (rs : List Rotation)
    (h : Routes b₁ w seen routed d) :
    Ends (secondRound rs (front ++ routed) d) (d.packer.fails.Overruns rs.length) fun s =>
      d.packer.SameConfig s.2.packer ∧ d.packer.fails.GrowsBy rs.length s.2.packer.fails ∧
        d.factories.SameSetup s.2.factories ∧
          ∃ routed', s.1 = front ++ routed' ∧ Routes b₁ w (seen ++ rs) routed' s.2 := by
  induction rs generalizing seen routed d with
  | nil =>
    rw [List.append_nil]
    exact ⟨SameConfig.refl _, FailCounts.GrowsBy.refl _, Factories.SameSetup.refl _, routed, rfl, h⟩
  | cons r rs ih =>
    rw [List.append_cons]
    unfold secondRound
    split
    · refine (ih (h.skip r)).mono (fun e he => he.mono (Nat.le_succ _)) ?_
      rintro s ⟨hconfig, hgrows, hrest⟩
      exact ⟨hconfig, hgrows.mono (Nat.le_succ _), hrest⟩
    · refine Ends.bind ((packRotation_ends h.desk r).mono (fun _ h => h.elim) fun _ h => h) ?_
      rintro ⟨outcome, d'⟩ hrouted
      have hfails : d'.packer.fails = d.packer.fails := hrouted.config.fails
      refine Ends.bind ((settle_ends outcome (front ++ routed) d').mono (fun e he => ?_) fun _ h => h) ?_
      · rw [hfails] at he
        exact he.mono (Nat.le_add_left _ _)
      rintro _ ⟨fails, hgrows, rfl⟩
      rw [hfails] at hgrows
      have hsame := same_enter outcome fails d'
      dsimp only
      rw [List.append_assoc]
      refine (ih (h.enter hb₁ hrouted fails)).mono (fun e he => ?_) ?_
      · exact (he.of_growsBy hgrows).mono (Nat.add_comm _ _).le
      · rintro ⟨ps, d''⟩ ⟨hconfig', hgrows', hsetup, hfound⟩
        exact ⟨(hrouted.config.toSameConfig.trans hsame.config).trans hconfig',
          (hgrows.trans hgrows').mono (Nat.add_comm _ _).le,
          hrouted.setup.trans (hsame.factories ▸ hsetup), hfound⟩

/-! ## A tick -/

/-- Nothing is done to the storages at any moment of a tick. -/
theorem runStorages_never {p : Packer} (hstore : p.store = .never) (hreset : p.reset = .never)
    {moment : StoragePhase} (hmoment : moment ≠ .never) : p.runStorages moment b = .ok b := by
  unfold runStorages
  rw [hstore, hreset, if_neg hmoment.symm, if_neg hmoment.symm, ite_self]

theorem runStorages_ends (p : Packer) (moment : StoragePhase) (hb : b.Sound) :
    Ends (p.runStorages moment b) (fun _ => False) fun b' => b.Occupies b' ∧ b.SparesData b' := by
  have hrefl : b.Occupies b ∧ b.SparesData b := ⟨Board.Occupies.refl hb, fun _ _ => rfl⟩
  unfold runStorages
  split
  · exact hrefl
  · dsimp only
    have hstore : b.Occupies (if p.store = moment then b.storeMagicStates else b) ∧
        b.SparesData (if p.store = moment then b.storeMagicStates else b) := by
      split
      · exact Board.storeMagicStates_spec hb
      · exact hrefl
    split
    · refine (Board.resetStorages_ends hstore.1.sound).mono (fun _ h => h) ?_
      rintro b' ⟨hoccupies, hdata⟩
      exact ⟨hstore.1.trans hb hoccupies, hstore.2.trans hdata⟩
    · exact hstore

/-- What is done to a board when rotations are packed, whether they are packed afresh or an earlier
packing is used again. -/
structure Packs (turnTicks : Int) (rotations : List Rotation) (b : Board) (ps : List Packed)
    (b' : Board) : Prop where
  /-- Open nodes are occupied. -/
  occupies : b.Occupies b'
  /-- Each of the rotations is packed at most once. -/
  order : (ps.map Packed.rotation).Subperm rotations
  /-- The trees consist of open nodes. -/
  opened : ∀ p ∈ ps, ∀ n, p.tree.contains n = true → n ∉ b.unavailable
  /-- The trees do not meet. -/
  apart : turnTicks ≠ 0 → rotations.Pairwise Rotation.RigidApart → ps.Pairwise Apart
  /-- Only turns change a data patch. -/
  data : ∀ id basis, (∀ p ∈ ps, p.Turning → p.tree.contains (.qubit id basis) = false) →
    b'.ticksOf (.qubit id basis) = b.ticksOf (.qubit id basis)
  /-- A turn gives its nodes its countdown. -/
  turn : turnTicks ≠ 0 → ∀ p ∈ ps, p.Turning → ∀ n, p.tree.contains n = true →
    b'.ticksOf n = some turnTicks
  /-- Turns are packed as turns. -/
  of_turn : ∀ p ∈ ps, p.rotation.kind = .turn → p.Turning
  /-- A turn takes a boundary of a patch that is not busy, and a bus tile. -/
  turning : ∀ p ∈ ps, p.Turning → p.rotation.kind = .turn ∧ ∃ id ∈ p.rotation.activeQubits,
    ∃ basis bus, bus.isBus = true ∧
      (∀ n, p.tree.contains n = true ↔ n = .qubit id basis ∨ n = bus) ∧
        ∀ basis', .qubit id basis' ∉ b.unavailable

/-- The first round on a board to which the storages have been seen to. -/
theorem FirstRound.Sound.start (hb : b.Sound) (f : Factories) (fails : FailCounts) (rng : σ) :
    (⟨[], [], b, f, fails, rng⟩ : FirstRound σ).Sound turnTicks b f rng [] where
  occupies := Board.Occupies.refl hb
  setup := Factories.SameSetup.refl f
  rng := Keeps.refl rng
  packed := by simp
  rigid := by simp
  free := by simp
  nodes := by simp
  frame := fun _ _ => rfl
  turn := by simp
  order := by simp
  apart := by simp

/-- The desk on which the second round begins. -/
theorem Desk.Sound.start (hb : b.Sound) {s : FirstRound σ}
    (h : s.Sound turnTicks b f rng rotations) {p : Packer} (hp : p.Sound) :
    Desk.Sound s.board ⟨s.board,
      s.board.openPart.removeNodes (s.packed.flatMap fun q => q.tree.nodes), s.factories,
      stockOf b, p⟩ := by
  have hopen := h.occupies.sound.openPart
  refine ⟨Board.Occupies.refl h.occupies.sound, fun _ _ => rfl, hp,
    (hopen.removeNodes _).graph, ?_, fun n hn => ?_, fun n hn => ?_, fun _ _ => rfl⟩
  · exact (Board.removeNodes_within hopen.graph _).trans
      (Board.removeNodes_within h.occupies.sound.graph _)
  · exact (Board.hasNode_openPart.1 (Board.hasNode_removeNodes.1 hn).1).2
  · have hready : (n.kind = .patch .magic ∨ n.kind = .patch .storage) ∧ b.ticksOf n = some 0 := by
      rcases SortedSet.mem_union.1 hn with hn | hn
      · exact ⟨Or.inl (hb.mem_ready.1 hn).1, (hb.mem_ready.1 hn).2⟩
      · exact ⟨Or.inr (hb.mem_ready.1 hn).1, (hb.mem_ready.1 hn).2⟩
    refine ⟨hready.1, fun _ => (h.frame n fun q hq hturn => ?_).trans hready.2⟩
    -- the trees of turns have no magic states and storages
    by_contra hn
    rw [Bool.not_eq_false] at hn
    rcases h.nodes q hq n hn with ⟨hk, -⟩ | ⟨-, hk⟩ <;> rcases hready.1 with hk' | hk' <;>
      rw [hk] at hk' <;> cases hk'

/-! ### Both rounds

The first round runs on the board `b₀`, on which the storages have been seen to, and `b₂` is the
board after they have been seen to once more. -/

section Rounds

variable {b₀ b₂ : Board} {first : FirstRound σ}

theorem Routes.start (hb : b.Sound) (h : first.Sound turnTicks b f rng rotations) {p : Packer}
    (hp : p.Sound) :
    Routes first.board
      (first.board.openPart.removeNodes (first.packed.flatMap fun q => q.tree.nodes)).graph [] []
      ⟨first.board, first.board.openPart.removeNodes (first.packed.flatMap fun q => q.tree.nodes),
        first.factories, stockOf b, p⟩ :=
  ⟨Desk.Sound.start hb h hp, fun _ hn => hn, by simp, by simp, by simp, List.Pairwise.nil⟩

variable (hfirst : first.Sound turnTicks b₀ f rng rotations)
  (hroutes : Routes first.board
    (first.board.openPart.removeNodes (first.packed.flatMap fun q => q.tree.nodes)).graph
    first.remaining routed d)

include hfirst hroutes

/-- The trees of the second round lie outside the trees of the first one. -/
theorem apart_of_rounds (hpos : turnTicks ≠ 0) (hrigid : rotations.Pairwise Rotation.RigidApart) :
    (first.packed ++ routed).Pairwise Apart := by
  refine List.pairwise_append.2 ⟨hfirst.apart hpos hrigid, hroutes.apart, ?_⟩
  intro q hq q' hq' n hn
  by_contra hn'
  rw [Bool.not_eq_false] at hn'
  refine (Board.hasNode_removeNodes.1 (hroutes.nodes q' hq' n hn').1).2 ?_
  exact List.mem_flatMap.2 ⟨q, hq, Tree.mem_nodes.2 hn⟩

/-- What both rounds pack could be committed when packing began: the nodes outside the trees of the
first round have kept their countdowns. -/
theorem found_of_rounds (hb₀ : b₀.Sound) :
    ∀ q ∈ first.packed ++ routed, q.Found b₀ turnTicks := by
  refine List.forall_mem_append.2 ⟨hfirst.packed, fun q hq => ?_⟩
  obtain ⟨⟨hfresh, hready, hnode, hshaped⟩, hturning⟩ := hroutes.found q hq
  refine ⟨Fresh.of_occupies hb₀ hfirst.occupies hfresh, ?_, fun n hn hk => ?_, hshaped⟩
  · refine hready.congr hfresh.serves.holds hturning fun n hn => ?_
    have hout := (Board.hasNode_removeNodes.1 (hroutes.nodes q hq n hn).1).2
    refine (hfirst.frame n fun p hp _ => ?_).symm
    by_contra hpn
    rw [Bool.not_eq_false] at hpn
    exact hout (List.mem_flatMap.2 ⟨p, hp, Tree.mem_nodes.2 hpn⟩)
  · rw [← hfirst.occupies.graph]
    exact hnode n hn hk

variable (hb : b.Sound) (hbefore : b.Occupies b₀)

include hb hbefore

theorem fresh_of_rounds : ∀ q ∈ first.packed ++ routed, q.Fresh b := fun q hq =>
  Fresh.of_occupies hb hbefore (found_of_rounds hfirst hroutes hbefore.sound q hq).fresh

/-- Both rounds together pack a tick. -/
theorem packs_of_rounds (hbeforeData : b.SparesData b₀) (hafter : d.board.Occupies b₂)
    (hafterData : d.board.SparesData b₂) :
    Packs turnTicks rotations b (first.packed ++ routed) b₂ := by
  have hfresh := fresh_of_rounds hfirst hroutes hb hbefore
  have hsecond : first.board.Occupies b₂ :=
    hroutes.desk.occupies.trans hfirst.occupies.sound hafter
  refine ⟨hbefore.trans hb (hfirst.occupies.trans hbefore.sound hsecond), ?_,
    fun q hq => (hfresh q hq).opened, apart_of_rounds hfirst hroutes, fun id basis hn => ?_,
    fun hpos q hq hturn n hn => ?_, fun q hq => (hfresh q hq).serves.turning_iff.2,
    fun q hq hturn => ?_⟩
  · refine List.Subperm.trans ?_ hfirst.order
    rw [List.map_append]
    exact ((List.Sublist.refl _).append hroutes.order).subperm
  · rw [hafterData id basis, hroutes.desk.data id basis,
      hfirst.frame _ fun q hq => hn q (List.mem_append_left _ hq), hbeforeData id basis]
  · -- the nodes of a turn are closed after the first round
    have hq' := hroutes.mem_of_turning hq hturn
    have hticks := hfirst.turn q hq' hturn n hn
    have hk : n.kind = .patch .qubit ∨ n.kind = .bus :=
      (hfirst.nodes q hq' n hn).imp And.left And.right
    have hnonneg : 0 ≤ turnTicks :=
      (hfirst.occupies.sound.means hticks).nonneg (by rcases hk with hk | hk <;> simp [hk])
        (by rcases hk with hk | hk <;> simp [hk])
    have hclosed := hfirst.occupies.sound.mem_unavailable_of_pos hticks (by omega)
    exact (hsecond.closed n hclosed).trans hticks
  · have hserves := (hfresh q hq).serves
    have hk := hserves.turning_iff.1 hturn
    obtain ⟨edge, hedge, -, bus, hbus, -, hnodes⟩ := hserves.of_turn hk
    obtain ⟨id, basis, rfl, hid⟩ := Rotation.exists_of_mem_activeNodes hedge
    refine ⟨hk, id, hid, basis.flipped, bus, hbus, hnodes, fun basis' hclosed => ?_⟩
    exact hfirst.free q (hroutes.mem_of_turning hq hturn) id hid basis'
      (hbefore.mem_unavailable hb hclosed)

end Rounds

/-- What packing a tick leaves behind. -/
structure Result.Sound (p : Packer) (rotations : List Rotation) (b : Board) (f : Factories)
    (rng : σ) (r : Result σ) : Prop where
  packs : Packs p.turnTicks rotations b r.packed r.board
  fresh : ∀ q ∈ r.packed, q.Fresh b
  found : ∃ b₀, p.runStorages .beforePacking b = .ok b₀ ∧ b.Occupies b₀ ∧
    ∀ q ∈ r.packed, q.Found b₀ p.turnTicks
  packer : r.packer.Sound
  config : p.SameConfig r.packer
  fails : p.fails.GrowsBy rotations.length r.packer.fails
  setup : f.SameSetup r.factories
  rng : Keeps rng r.rng

/-- Why packing a tick stops: a draw fails, the countdown of a turn is negative, or a count of failures
has no room left for the rotations. -/
def Stops (p : Packer) (rng : σ) (rotations : List Rotation) (e : Fault) : Prop :=
  (0 ≤ p.turnTicks → CanCause rng e) ∨ p.fails.Overruns rotations.length e

/-- Packing a tick stops for no other reason. -/
theorem pack_ends {p : Packer} (hp : p.Sound) (hb : b.Sound) (f : Factories) (rng : σ)
    (rotations : List Rotation) :
    Ends (p.pack rotations b f rng) (p.Stops rng rotations) (Result.Sound p rotations b f rng) := by
  have hbegins : Ends (p.runStorages .beforePacking b) (p.Stops rng rotations)
      fun b₀ => p.runStorages .beforePacking b = .ok b₀ ∧ b.Occupies b₀ ∧ b.SparesData b₀ := by
    obtain ⟨b₀, hok, hbefore⟩ := (runStorages_ends p .beforePacking hb).exists_ok
    rw [hok]
    exact ⟨rfl, hbefore⟩
  unfold pack
  refine Ends.bind hbegins ?_
  rintro b₀ ⟨hok, hbefore, hbeforeData⟩
  have hb₀ := hbefore.sound
  dsimp only
  refine Ends.bind (firstRound_ends hb₀ _ rotations
    (FirstRound.Sound.start hb₀ f p.fails rng)).and_eq_ok ?_
  rintro first ⟨hfirst, hfirstRound⟩
  rw [List.nil_append] at hfirst
  -- what failed in the first round is not among what is left for the second one
  have hroom : ∀ reason, first.fails.get reason + first.remaining.length ≤
      p.fails.get reason + rotations.length := fails_of_firstRound hfirstRound
  have hsecond := secondRound_ends hfirst.occupies.sound first.packed first.remaining
    (Routes.start hb₀ hfirst (hp.with_fails first.fails))
  rw [List.append_nil, List.nil_append] at hsecond
  refine Ends.bind (hsecond.mono (fun e he => Or.inr ?_) fun _ h => h) ?_
  · obtain ⟨rfl, reason, hreason⟩ := he
    exact ⟨rfl, reason, hreason.trans (hroom reason)⟩
  rintro ⟨packed, d⟩ ⟨hconfig, hgrows, hsetup, routed, rfl, hroutes⟩
  refine Ends.bind ((runStorages_ends d.packer .afterPacking hroutes.desk.occupies.sound).mono
    (fun _ h => h.elim) fun _ h => h) ?_
  rintro b₂ ⟨hafter, hafterData⟩
  have hconfig' : p.SameConfig d.packer := ⟨hconfig.turnTicks, hconfig.store, hconfig.reset⟩
  exact ⟨packs_of_rounds hfirst hroutes hb hbefore hbeforeData hafter hafterData,
    fresh_of_rounds hfirst hroutes hb hbefore,
    ⟨b₀, hok, hbefore, found_of_rounds hfirst hroutes hb₀⟩, hroutes.desk.packer, hconfig',
    fun reason => (hgrows reason).trans (hroom reason), hfirst.setup.trans hsetup, hfirst.rng⟩

end Packer

end LatticeSurgery
