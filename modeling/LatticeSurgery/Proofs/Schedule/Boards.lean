import LatticeSurgery.Proofs.Packing.TurnEffect
import LatticeSurgery.Proofs.Schedule.Loop

/-!
# The boards of a run

All that a run does to its board is to set countdowns, to let time pass, and to fill and reset storages.
So what these operations keep is true of the board in every state of a run (`Run.Reachable.lasting`),
whatever the circuit.
-/

namespace LatticeSurgery

open WordSource

/-- A property of boards that is kept by everything that a run does to a board. -/
structure Board.Lasting (P : Board → Prop) : Prop where
  setTicks : ∀ {b b' : Board} {ns : List Node} {t : Int}, P b → b.setTicks ns t = .ok b' → P b'
  elapse : ∀ {b : Board} (ticks : Nat), P b → P (b.elapse ticks)
  storeMagicStates : ∀ {b : Board}, P b → P b.storeMagicStates
  resetStorages : ∀ {b b' : Board}, P b → b.resetStorages = .ok b' → P b'

namespace Board.Lasting

variable {P : Board → Prop} (hP : Board.Lasting P) {b b' : Board} {f f' : Factories}

include hP

theorem setTick {n : Node} {t : Int} (h : P b) (hset : b.setTick t n = .ok b') : P b' := by
  rw [← Board.setTicks_singleton] at hset
  exact hP.setTicks h hset

theorem commit {p : Packed} {turnTicks : Int} (h : P b)
    (hcommit : LatticeSurgery.commit b f p turnTicks = .ok (b', f')) : P b' := by
  unfold LatticeSurgery.commit at hcommit
  split at hcommit
  · obtain ⟨b₁, hset, heq⟩ := exists_of_bind_eq_ok hcommit
    cases heq
    exact hP.setTick h hset
  · split at hcommit
    · obtain ⟨b₁, hset, heq⟩ := exists_of_bind_eq_ok hcommit
      cases heq
      exact hP.setTick h hset
    · cases hcommit
  · obtain ⟨b₁, hset, heq⟩ := exists_of_bind_eq_ok hcommit
    cases heq
    exact hP.setTicks h hset
  · obtain ⟨b₁, hset, heq⟩ := exists_of_bind_eq_ok hcommit
    cases heq
    exact hP.setTicks h hset
  · cases hcommit
    exact h

theorem commitAll {ps : List Packed} {turnTicks : Int} (h : P b)
    (hcommits : LatticeSurgery.commitAll turnTicks ps b f = .ok (b', f')) : P b' := by
  induction ps generalizing b f with
  | nil =>
    cases hcommits
    exact h
  | cons p ps ih =>
    obtain ⟨b₁, f₁, hone, hrest⟩ := commitAll_cons_eq_ok.1 hcommits
    exact ih (hP.commit h hone) hrest

theorem runStorages {p : Packer} {moment : StoragePhase} (h : P b)
    (hrun : p.runStorages moment b = .ok b') : P b' := by
  unfold Packer.runStorages at hrun
  split at hrun
  · cases hrun
    exact h
  · have hstore : P (if p.store = moment then b.storeMagicStates else b) := by
      split
      · exact hP.storeMagicStates h
      · exact h
    dsimp only at hrun
    split at hrun
    · exact hP.resetStorages hstore hrun
    · cases hrun
      exact hstore

theorem pack {σ : Type} [WordSource σ] {p : Packer} {rotations : List Rotation} {rng : σ}
    {r : Packer.Result σ} (h : P b) (hpack : p.pack rotations b f rng = .ok r) : P r.board := by
  obtain ⟨b₀, b₁, hcourse⟩ := Packer.exists_course hpack
  exact hP.runStorages (hP.commitAll (hP.runStorages h hcourse.before) hcourse.commits) hcourse.after

theorem setUp {replenishTicks perFactory : Nat} (h : P b)
    (hsetUp : Factories.setUp b replenishTicks perFactory = .ok (f', b')) : P b' := by
  unfold Factories.setUp at hsetUp
  split at hsetUp
  · cases hsetUp
  · obtain ⟨t, -, hsetUp⟩ := exists_of_bind_eq_ok hsetUp
    obtain ⟨b₁, hset, heq⟩ := exists_of_bind_eq_ok hsetUp
    cases heq
    exact hP.setTicks h hset

theorem refill {ticks : Int} {groups : List (List Node)} (h : P b)
    (hrefill : Factories.refill ticks groups f b = .ok (f', b')) : P b' := by
  induction groups generalizing f b with
  | nil =>
    cases hrefill
    exact h
  | cons g gs ih =>
    unfold Factories.refill at hrefill
    split at hrefill
    · obtain ⟨b₁, hset, hrest⟩ := exists_of_bind_eq_ok hrefill
      exact ih (hP.setTicks h hset) hrest
    · exact ih h hrefill

theorem advance {τ : Type} {done : List τ} {log log' : Factories.Log τ} {elapsed : Nat} (h : P b)
    (hadvance : f.advance done b log elapsed = .ok (f', b', log')) : P b' := by
  obtain ⟨ticks, f₁, -, hrefill, -⟩ := Factories.exists_of_advance hadvance
  exact hP.refill (hP.elapse elapsed h) hrefill

end Board.Lasting

namespace Run

variable {σ : Type} [WordSource σ] {conf : Configuration} {c : Circuit} {b : Board} {rng : σ}
  {s s' : Run σ} {P : Board → Prop}

theorem lasting_packOrReuse (hP : Board.Lasting P) (h : P s.board) {available : SortedSet Node}
    {rotations : List Rotation} {ps : List Packed}
    (hpack : s.packOrReuse available rotations = .ok (ps, s')) : P s'.board := by
  unfold packOrReuse at hpack
  dsimp only at hpack
  split at hpack
  · obtain ⟨r, hpacked, heq⟩ := exists_of_bind_eq_ok hpack
    cases heq
    exact hP.pack h hpacked
  · obtain ⟨hits, -, hpack⟩ := exists_of_bind_eq_ok hpack
    obtain ⟨⟨board, factories⟩, hcommits, heq⟩ := exists_of_bind_eq_ok hpack
    cases heq
    exact hP.commitAll h hcommits

theorem lasting_fill (hP : Board.Lasting P) (h : P s.board) {f : Filled σ}
    (hfill : s.fill conf c = .ok f) : P f.run.board := by
  unfold fill at hfill
  obtain ⟨rotations, -, hfill⟩ := exists_of_bind_eq_ok hfill
  dsimp only at hfill
  split at hfill
  · cases hfill
    exact h
  · obtain ⟨⟨ps, s₁⟩, hpack, heq⟩ := exists_of_bind_eq_ok hfill
    cases heq
    exact lasting_packOrReuse (s := { s with factories := (s.factories.takeStock s.board).2 }) hP h hpack

omit [WordSource σ] in
theorem lasting_advance (hP : Board.Lasting P) (h : P s.board) {ps : List Packed}
    (hadvance : s.advance ps = .ok s') : P s'.board := by
  unfold advance at hadvance
  obtain ⟨⟨factories, board, log⟩, hfactories, hadvance⟩ := exists_of_bind_eq_ok hadvance
  obtain ⟨⟨progress, freed⟩, -, heq⟩ := exists_of_bind_eq_ok hadvance
  cases heq
  exact hP.advance h hfactories

/-- A tick keeps what lasts. -/
theorem lasting_step (hP : Board.Lasting P) (h : P s.board) (hstep : s.step conf c = .ok s') :
    P s'.board := by
  obtain ⟨f, s₁, hfill, hcount, hadvance⟩ := exists_of_step_ok hstep
  refine lasting_advance hP ?_ hadvance
  obtain ⟨idleTicks, rfl, -⟩ := (countIdle_ends conf f).of_ok hcount
  exact lasting_fill hP h hfill

/-- What lasts is true of the board in every state of a run. -/
theorem Reachable.lasting (hP : Board.Lasting P) (hb : P b) (h : Reachable conf c b rng s) :
    P s.board := by
  induction h with
  | start h =>
    obtain ⟨⟨factories, board⟩, hsetUp, heq⟩ := exists_of_bind_eq_ok h
    cases heq
    exact hP.setUp hb hsetUp
  | step _ _ hstep ih => exact lasting_step hP ih hstep

/-- The board in a state of a run is one of the layout, with all of its nodes. -/
theorem Reachable.stage {l : Layout} (hb : Board.Stage l b) (h : Reachable conf c b rng s) :
    Board.Stage l s.board ∧ ∀ n, s.board.graph.hasNode n = b.graph.hasNode n := by
  refine h.lasting (P := fun b' => Board.Stage l b' ∧ ∀ n, b'.graph.hasNode n = b.graph.hasNode n)
    ⟨?_, ?_, ?_, ?_⟩ ⟨hb, fun _ => rfl⟩
  · rintro b₁ b₂ ns t ⟨hstage, hnode⟩ hset
    refine ⟨hstage.setTicks hset, ?_⟩
    rwa [(hstage.sound.setTo_of_setTicks hset).graph]
  · rintro b₁ ticks ⟨hstage, hnode⟩
    exact ⟨hstage.elapse ticks, fun n =>
      ((Board.elapse_spec hstage.sound ticks).node n).trans (hnode n)⟩
  · rintro b₁ ⟨hstage, hnode⟩
    refine ⟨hstage.storeMagicStates, ?_⟩
    rwa [(Board.storeMagicStates_spec hstage.sound).1.graph]
  · rintro b₁ b₂ ⟨hstage, hnode⟩ hreset
    refine ⟨hstage.resetStorages hreset, ?_⟩
    rwa [((Board.resetStorages_ends hstage.sound).of_ok hreset).1.graph]

end Run

/-! ## Turns -/

/-- Let a turn on a boundary of a patch be packed in any state of a run on a layout, parts of which may
be left unused, together with no other turn of the patch. Let time pass then, in any portions, and let
nothing else be done to the patch and to the bus tile of the turn. As soon as the time of the turn is up
and a tick has passed, the patch and the bus tile are free. The neighbours of its boundaries are
exchanged, once, if turns take any time, and are the same as before otherwise. -/
theorem packed_turn_takes_effect {σ τ : Type} [WordSource σ] [WordSource τ] {l : Layout} {b : Board}
    (hb : Board.ofLayout l = .ok b) {unused : List Node}
    (hunused : ∀ id, .qubit id .X ∈ unused ↔ .qubit id .Z ∈ unused) {conf : Configuration}
    {c : Circuit} {rng : σ} {s : Run σ} (hs : Run.Reachable conf c (b.removeNodes unused) rng s)
    {p : Packer} (hp : Packer.Used l p) {rotations : List Rotation} {f : Factories} {rng' : τ}
    {r : Packer.Result τ} (hr : p.pack rotations s.board f rng' = .ok r) {q : Packed}
    (hq : q ∈ r.packed) (hk : q.rotation.kind = .turn) {id : Nat} {basis : Basis}
    (hedge : q.rotation.activeNodes.toList = [.qubit id basis])
    (halone : ∀ q' ∈ r.packed, q'.rotation.kind = .turn → id ∈ q'.rotation.activeQubits → q' = q) :
    ∃ bus, q.resource = some (.bus bus) ∧ ∀ ts b',
      r.board.Waits [.qubit id .X, .qubit id .Z, bus] ts b' → (∀ t ∈ ts, t < 2 ^ 31) →
      p.turnTicks ≤ ts.sum → 1 ≤ ts.sum →
        (∀ basis n, b'.graph.Adj (.qubit id basis) n ↔
          s.board.graph.Adj (.qubit id (if p.turnTicks = 0 then basis else basis.flipped)) n) ∧
        (∀ basis, b'.ticksOf (.qubit id basis) = some 0) ∧ b'.ticksOf bus = some 0 := by
  obtain ⟨hstage, hnode⟩ := hs.stage (l := l) ((Board.Stage.ofLayout hb).removeNodes unused)
  have hpaired := (Board.laid_removeNodes (Board.laid_ofLayout hb) hunused).paired
  have hfresh := ((Packer.pack_ends hp.sound hstage.sound f rng' rotations).of_ok hr).fresh q hq
  obtain ⟨bus, hbus, -, hnodes⟩ := hfresh.serves.exists_bus hk hedge
  -- the tree of the turn holds one of the boundaries, so both are there
  have hjoined : q.tree.shape.Adj (.qubit id basis.flipped) bus :=
    hfresh.tree.connected.adj_of_pair hnodes hfresh.tree.wellFormed fun heq => by
      rw [← heq] at hbus
      cases hbus
  have hopposite := hstage.sound.graph.hasNode_left (hfresh.edge _ _ hjoined)
  have hwhole : (b.removeNodes unused).CanTurn id := by
    rw [hnode] at hopposite
    cases basis
    · exact ⟨(hpaired id).2 hopposite, hopposite⟩
    · exact ⟨hopposite, (hpaired id).1 hopposite⟩
  exact Packer.turn_effect hp hstage hr hq hk hedge (hwhole.congr hnode) halone

/-- The first patch of the row is turned, so that its Z boundary faces the bus. -/
def rowTurn : Rotation := ⟨0, .turn, .plus, ∅, ∅, SortedSet.ofList [0]⟩

/-- What packing that turn before the first tick of a run leads to. -/
theorem exists_rowTurn_of_any (conf : Configuration)
    {P : Run CyclicWords → Packer.Result CyclicWords → Prop} [∀ s r, Decidable (P s r)]
    (h : (Board.ofLayout rowLayout).toOption.any (fun b =>
      (Run.start conf turningCircuit (b.removeNodes []) (⟨[0], 0⟩ : CyclicWords)).toOption.any fun s =>
        ((Packer.new conf.turnTicks .never .never).pack [rowTurn] s.board s.factories
          (⟨[0], 0⟩ : CyclicWords)).toOption.any fun r => decide (P s r)) = true) :
    ∃ b s r, Board.ofLayout rowLayout = .ok b ∧
      Run.Reachable conf turningCircuit (b.removeNodes []) (⟨[0], 0⟩ : CyclicWords) s ∧
      (Packer.new conf.turnTicks .never .never).pack [rowTurn] s.board s.factories
        (⟨[0], 0⟩ : CyclicWords) = .ok r ∧ P s r := by
  obtain ⟨b, hb, h⟩ := exists_of_any_toOption h
  obtain ⟨s, hs, h⟩ := exists_of_any_toOption h
  obtain ⟨r, hr, h⟩ := exists_of_any_toOption h
  exact ⟨b, s, r, hb, .start hs, hr, decide_eq_true_eq.mp h⟩

/-- With three ticks for a turn, the Z boundary of the patch takes the place of the X boundary beside a
bus tile, once the ticks have passed in two portions. -/
theorem rowTurn_takes_effect : ∃ b s r, Board.ofLayout rowLayout = .ok b ∧
    Run.Reachable {} turningCircuit (b.removeNodes []) (⟨[0], 0⟩ : CyclicWords) s ∧
    (Packer.new 3 .never .never).pack [rowTurn] s.board s.factories (⟨[0], 0⟩ : CyclicWords) = .ok r ∧
    s.board.graph.Adj (.qubit 0 .X) (.bus 0) ∧ ¬ s.board.graph.Adj (.qubit 0 .Z) (.bus 0) ∧
    ((r.board.elapse 1).elapse 2).graph.Adj (.qubit 0 .Z) (.bus 0) ∧
    ¬ ((r.board.elapse 1).elapse 2).graph.Adj (.qubit 0 .X) (.bus 0) ∧
    ∀ basis, ((r.board.elapse 1).elapse 2).ticksOf (.qubit 0 basis) = some 0 := by
  obtain ⟨b, s, r, hb, hs, hr, hpacked, hx, hz⟩ := exists_rowTurn_of_any {}
    (P := fun s r => r.packed.map Packed.rotation = [rowTurn] ∧
      s.board.graph.Adj (.qubit 0 .X) (.bus 0) ∧ ¬ s.board.graph.Adj (.qubit 0 .Z) (.bus 0))
    (by decide +kernel)
  obtain ⟨q, hq, hrotation⟩ := List.map_eq_singleton_iff.1 hpacked
  have hwhole : ∀ id, Node.qubit id .X ∈ ([] : List Node) ↔ Node.qubit id .Z ∈ [] := by simp
  have hedge : q.rotation.activeNodes.toList = [.qubit 0 .Z] := by
    rw [hrotation]
    rfl
  obtain ⟨bus, -, heffect⟩ := packed_turn_takes_effect hb hwhole hs (.new 3 .never .never) hr
    (q := q) (by simp [hq]) (by rw [hrotation]; rfl) hedge (by simp [hq])
  obtain ⟨hadj, hzero, -⟩ := heffect [1, 2] _ ((Board.Waits.refl.elapse 1).elapse 2) (by decide)
    (by decide) (by decide)
  have hturns : (Packer.new 3 .never .never).turnTicks ≠ 0 := by decide
  simp only [if_neg hturns] at hadj
  exact ⟨b, s, r, hb, hs, hr, hx, hz, (hadj .Z _).2 hx, fun h => hz ((hadj .X _).1 h), hzero⟩

/-- A turn without a duration is packed, but the boundaries do not change places. -/
theorem rowTurn_without_duration : ∃ b s r, Board.ofLayout rowLayout = .ok b ∧
    Run.Reachable { turnTicks := 0 } turningCircuit (b.removeNodes []) (⟨[0], 0⟩ : CyclicWords) s ∧
    (Packer.new 0 .never .never).pack [rowTurn] s.board s.factories (⟨[0], 0⟩ : CyclicWords) = .ok r ∧
    r.packed.map Packed.rotation = [rowTurn] ∧
    ¬ ∀ basis n, (r.board.elapse 1).graph.Adj (.qubit 0 basis) n ↔
      s.board.graph.Adj (.qubit 0 basis.flipped) n := by
  obtain ⟨b, s, r, hb, hs, hr, hpacked, hsame, hz⟩ := exists_rowTurn_of_any { turnTicks := 0 }
    (P := fun s r => r.packed.map Packed.rotation = [rowTurn] ∧
      (r.board.elapse 1).graph.Adj (.qubit 0 .X) (.bus 0) ∧
        ¬ s.board.graph.Adj (.qubit 0 .Z) (.bus 0)) (by decide +kernel)
  exact ⟨b, s, r, hb, hs, hr, hpacked, fun hall => hz ((hall .X _).1 hsame)⟩

end LatticeSurgery
