import LatticeSurgery.Proofs.Board.Indexed
import LatticeSurgery.Proofs.Board.Ports
import LatticeSurgery.Proofs.Board.Weights

/-!
# Boards that are reached

A board is reached from a layout by operations, and by contracting trees to any of their nodes
(`Board.Reached`). Of its graph each of these makes one of four things: it keeps the graph, turns
patches, removes nodes, or connects terminals; or it contracts a tree and anchors it
(`Board.Works.reshapes`). So the graph of a reached board is well formed, and unless a tree was
contracted, every edge has an end on the bus and the weight of its step.
-/

namespace LatticeSurgery

open Ordered Relation LatticeSurgery.Graph

namespace Board

variable {b b' c : Board} {l : Layout} {n : Node} {ns : List Node} {t : Int}

/-! ## Boards with the same graph -/

/-- Two boards have the same graph, and are anchored alike. -/
structure Alike (b b' : Board) : Prop where
  graph : b'.graph = b.graph
  anchor : b'.anchor = b.anchor

theorem Alike.refl (b : Board) : b.Alike b := ⟨rfl, rfl⟩

theorem Alike.trans (h : b.Alike c) (h' : c.Alike b') : b.Alike b' :=
  ⟨h'.graph.trans h.graph, h'.anchor.trans h.anchor⟩

theorem alike_foldl_retime {β : Type} (node : β → Node) (time : β → Int) (es : List β) (b : Board) :
    b.Alike (es.foldl (fun b e => b.retime (node e) (time e)) b) := by
  induction es generalizing b with
  | nil => exact Alike.refl b
  | cons e es ih =>
    have hfirst : b.Alike (b.retime (node e) (time e)) := ⟨rfl, rfl⟩
    exact hfirst.trans (ih _)

theorem tiles_foldl_retime {β : Type} (node : β → Node) (time : β → Int) (es : List β) (b : Board) :
    (es.foldl (fun b e => b.retime (node e) (time e)) b).tiles = b.tiles :=
  List.foldlRecOn (motive := fun c : Board => c.tiles = b.tiles) es _ rfl fun _ hc _ _ => hc

/-- The new statuses get lists, and no list disappears. -/
theorem lists_foldl_retime {β : Type} (node : β → Node) (time : β → Int) (es : List β) (b : Board)
    (s : Status) : (es.foldl (fun b e => b.retime (node e) (time e)) b).countdowns.Lists s ↔
      b.countdowns.Lists s ∨ ∃ e ∈ es, Status.ofTicks (node e) (time e) = some s := by
  induction es generalizing b with
  | nil => simp
  | cons e es ih =>
    rw [List.foldl_cons, ih, retime, Countdowns.lists_set, or_assoc]
    simp only [List.mem_cons, exists_eq_or_imp]

theorem retime_of_setTick (h : b.setTick t n = .ok b') : b' = b.retime n t := by
  unfold setTick at h
  split at h
  · cases h
  · split at h <;> cases h
    rfl

/-- Changing countdowns that can be changed. -/
theorem foldl_retime_of_setTicks (h : b.setTicks ns t = .ok b') :
    b' = ns.foldl (fun b n => b.retime n t) b := by
  induction ns generalizing b with
  | nil =>
    cases h
    rfl
  | cons n ns ih =>
    unfold setTicks at h
    split at h
    · cases h
    · next c hset =>
      rw [ih h, retime_of_setTick hset]
      rfl

theorem alike_of_setTick (h : b.setTick t n = .ok b') : b.Alike b' := by
  rw [retime_of_setTick h]
  exact ⟨rfl, rfl⟩

theorem alike_of_setTicks (h : b.setTicks ns t = .ok b') : b.Alike b' := by
  rw [foldl_retime_of_setTicks h]
  exact alike_foldl_retime (fun n => n) (fun _ => t) ns b

theorem alike_storeMagicStates (b : Board) : b.Alike b.storeMagicStates := by
  refine List.foldlRecOn (motive := b.Alike) _ storeOne (Alike.refl b) fun c hc n _ => hc.trans ?_
  unfold storeOne
  dsimp only
  split
  · exact ⟨rfl, rfl⟩
  · exact Alike.refl c

theorem alike_of_resetStorages (h : b.resetStorages = .ok b') : b.Alike b' :=
  resetEach_induct (fun _ _ _ _ _ hset hc => hc.trans (alike_of_setTick hset)) h (Alike.refl b)

theorem alike_of_commit {f f' : Factories} {p : Packed} {turnTicks : Int}
    (h : commit b f p turnTicks = .ok (b', f')) : b.Alike b' := by
  unfold commit at h
  split at h
  · obtain ⟨c, hset, h⟩ := exists_of_bind_eq_ok h
    cases h
    exact alike_of_setTick hset
  · split at h
    · obtain ⟨c, hset, h⟩ := exists_of_bind_eq_ok h
      cases h
      exact alike_of_setTick hset
    · cases h
  · obtain ⟨c, hset, h⟩ := exists_of_bind_eq_ok h
    cases h
    exact alike_of_setTicks hset
  · obtain ⟨c, hset, h⟩ := exists_of_bind_eq_ok h
    cases h
    exact alike_of_setTicks hset
  · cases h
    exact Alike.refl b

theorem alike_of_setUp {f : Factories} {replenishTicks perFactory : Nat}
    (h : Factories.setUp b replenishTicks perFactory = .ok (f, b')) : b.Alike b' := by
  unfold Factories.setUp at h
  split at h
  · cases h
  · obtain ⟨t, -, h⟩ := exists_of_bind_eq_ok h
    obtain ⟨c, hset, h⟩ := exists_of_bind_eq_ok h
    cases h
    exact alike_of_setTicks hset

theorem alike_of_refill {f f' : Factories} {groups : List (List Node)}
    (h : Factories.refill t groups f b = .ok (f', b')) : b.Alike b' := by
  induction groups generalizing f b with
  | nil =>
    cases h
    exact Alike.refl _
  | cons g gs ih =>
    unfold Factories.refill at h
    split at h
    · obtain ⟨c, hset, h⟩ := exists_of_bind_eq_ok h
      exact (alike_of_setTicks hset).trans (ih h)
    · exact ih h

/-! ## Turning and the passing of time -/

theorem wellFormed_turn (hb : b.graph.WellFormed) (id : Nat) : (b.turn id).graph.WellFormed := by
  by_cases h : b.CanTurn id
  · rw [graph_turn h]
    exact wellFormed_attach (wellFormed_attach (wellFormed_detach (wellFormed_detach hb)) _) _
  · rwa [turn_of_not_canTurn h]

/-- A turn changes the graph and the countdowns, and nothing else. -/
theorem exists_turn_eq (b : Board) (id : Nat) :
    ∃ g c, b.turn id = { b with graph := g, countdowns := c } := by
  by_cases h : b.CanTurn id
  · rw [turn_eq h]
    cases b.ticksOf (.qubit id .X) <;> cases b.ticksOf (.qubit id .Z) <;> exact ⟨_, _, rfl⟩
  · exact ⟨b.graph, b.countdowns, turn_of_not_canTurn h⟩

theorem anchor_turn (b : Board) (id : Nat) : (b.turn id).anchor = b.anchor := by
  obtain ⟨g, c, h⟩ := exists_turn_eq b id
  rw [h]

theorem tiles_turn (b : Board) (id : Nat) : (b.turn id).tiles = b.tiles := by
  obtain ⟨g, c, h⟩ := exists_turn_eq b id
  rw [h]

/-- Letting time pass turns patches, and does nothing else to the graph. -/
theorem elapse_alike (b : Board) (ticks : Nat) : ∃ (c : Board) (ids : List Nat), b.Alike c ∧
    (ids.foldl turn c).Alike (b.elapse ticks) := by
  refine ⟨_, turnsFinished (asCountdown ticks) b.running,
    alike_foldl_retime Prod.fst (fun e => ticksAfter (asCountdown ticks) e.2) b.running b, ?_⟩
  exact alike_foldl_retime (fun n => n) (fun _ => Phase.emptyTicks) _ _

/-! ## Steps -/

/-- An operation that succeeds, or the contraction of a tree, whose nodes need not be those of the
board. -/
def Works (b b' : Board) : Prop :=
  b.Operates b' ∨ ∃ t anchor, b.contract t anchor = .ok b'

/-- A board that comes of the board of a layout. -/
def Reached (l : Layout) (b : Board) : Prop :=
  ∃ start, ofLayout l = .ok start ∧ ReflTransGen Works start b

/-- What a step can do to the graph. -/
inductive Reshapes (b b' : Board) : Prop
  /-- It keeps the graph. -/
  | keep (h : b.Alike b')
  /-- It turns patches. -/
  | turn {c : Board} {ids : List Nat} (hc : b.Alike c) (h : (ids.foldl Board.turn c).Alike b')
  /-- It removes nodes. -/
  | removeNodes (ns : List Node) (h : (b.removeNodes ns).Alike b')
  /-- It connects terminals. -/
  | connect {terminals : List Node} {cache : Option PathCache} {c : Connection}
      (h : b.connect terminals cache = .ok c) (hc : b' = c.board)
  /-- It contracts a tree. -/
  | contract {t : Tree} {anchor : Node} (h : b.contract t anchor = .ok b')

theorem Operates.reshapes (h : b.Operates b') : b.Reshapes b' := by
  cases h with
  | setTicks h => exact .keep (alike_of_setTicks h)
  | elapse ticks =>
    obtain ⟨c, ids, hc, h⟩ := elapse_alike b ticks
    exact .turn hc h
  | turn id =>
    have hone : ([id].foldl Board.turn b).Alike (b.turn id) := Alike.refl _
    exact .turn (Alike.refl b) hone
  | removeNodes ns => exact .removeNodes ns (Alike.refl _)
  | storeMagicStates => exact .keep (alike_storeMagicStates b)
  | resetStorages h => exact .keep (alike_of_resetStorages h)
  | connect _ h => exact .connect h rfl
  | contract _ h => exact .contract h
  | openPart => exact .removeNodes _ (Alike.refl _)
  | restrictTo terminals kind => exact .removeNodes _ (Alike.refl _)
  | commit h => exact .keep (alike_of_commit h)
  | setUp h => exact .keep (alike_of_setUp h)
  | advance h =>
    obtain ⟨ticks, f, -, hrefill, -⟩ := Factories.exists_of_advance h
    obtain ⟨c, ids, hc, helapse⟩ := elapse_alike b _
    exact .turn hc (helapse.trans (alike_of_refill hrefill))

theorem Works.reshapes (h : b.Works b') : b.Reshapes b' := by
  rcases h with h | ⟨t, anchor, h⟩
  · exact h.reshapes
  · exact .contract h

/-! ## What is kept -/

theorem Reshapes.wellFormed (hb : b.graph.WellFormed) (h : b.Reshapes b') : b'.graph.WellFormed := by
  cases h with
  | keep h => exact h.graph ▸ hb
  | @turn c ids hc h =>
    rw [h.graph]
    exact List.foldlRecOn (motive := fun b : Board => b.graph.WellFormed) ids _ (hc.graph ▸ hb)
      fun b hb id _ => wellFormed_turn hb id
  | removeNodes ns h =>
    rw [h.graph, graph_removeNodes]
    exact hb.foldl_removeNode ns
  | connect h hc => exact hc ▸ (same_of_connect hb h).1
  | @contract t anchor h =>
    have hanchor : t.contains anchor = true := by
      unfold Board.contract at h
      split at h
      · assumption
      · cases h
    exact ((contract_ends hb hanchor).of_ok h).wellFormed

/-- Only contracting a tree changes the anchor, and leaves one. -/
theorem Reshapes.anchor_eq (hb : b.graph.WellFormed) (h : b.Reshapes b') :
    b'.anchor = b.anchor ∨ ∃ n, b'.anchor = some n := by
  cases h with
  | keep h => exact Or.inl h.anchor
  | @turn c ids hc h =>
    rw [h.anchor]
    refine Or.inl (List.foldlRecOn (motive := fun c : Board => c.anchor = b.anchor) ids _ hc.anchor
      fun c hc id _ => (anchor_turn c id).trans hc)
  | removeNodes ns h =>
    rw [h.anchor]
    exact Or.inl (List.foldlRecOn (motive := fun c : Board => c.anchor = b.anchor) ns _ rfl
      fun c hc n _ => hc)
  | connect h hc =>
    obtain ⟨-, -, g, hboard⟩ := same_of_connect hb h
    exact Or.inl (by rw [hc, hboard])
  | @contract t anchor h =>
    unfold Board.contract at h
    split at h <;> cases h
    exact Or.inr ⟨anchor, rfl⟩

/-- The graph of a board that is not contracted: edges have an end on the bus and the weight of their
step. -/
structure Plain (g : Graph Node) : Prop where
  wellFormed : g.WellFormed
  onBus : g.OnBus
  graded : g.Graded

theorem Plain.turn (hb : Plain b.graph) (id : Nat) : Plain (b.turn id).graph :=
  ⟨wellFormed_turn hb.wellFormed id, onBus_turn hb.wellFormed hb.onBus id,
    graded_turn hb.wellFormed hb.graded id⟩

theorem Plain.removeNodes (hb : Plain b.graph) (ns : List Node) : Plain (b.removeNodes ns).graph := by
  refine ⟨?_, fun n m hnm => hb.onBus n m ((adj_removeNodes hb.wellFormed).1 hnm).1,
    graded_removeNodes hb.wellFormed hb.graded ns⟩
  rw [graph_removeNodes]
  exact hb.wellFormed.foldl_removeNode ns

theorem Plain.connect (hb : Plain b.graph) {terminals : List Node} {cache : Option PathCache}
    {c : Connection} (h : b.connect terminals cache = .ok c) : Plain c.board.graph := by
  obtain ⟨hwell, hsame, -⟩ := same_of_connect hb.wellFormed h
  refine ⟨hwell, fun n m hnm => hb.onBus n m ((hsame.edge n m).2 hnm), graded_iff.2 ?_⟩
  exact weighedBy_of_connect stepTable_comm hb.wellFormed (graded_iff.1 hb.graded) h

theorem Reshapes.plain (hb : Plain b.graph) (h : b.Reshapes b') (hnone : b'.anchor = none) :
    Plain b'.graph := by
  cases h with
  | keep h => exact h.graph ▸ hb
  | @turn c ids hc h =>
    rw [h.graph]
    exact List.foldlRecOn (motive := fun b : Board => Plain b.graph) ids _ (hc.graph ▸ hb)
      fun b hb id _ => hb.turn id
  | removeNodes ns h => exact h.graph ▸ hb.removeNodes ns
  | connect h hc => exact hc ▸ hb.connect h
  | @contract t anchor h =>
    unfold Board.contract at h
    split at h <;> cases h
    cases hnone

theorem ported_connect (hb : b.graph.WellFormed) (hp : b.graph.Ported) {terminals : List Node}
    {cache : Option PathCache} {c : Connection} (h : b.connect terminals cache = .ok c) :
    c.board.graph.Ported := by
  obtain ⟨-, hsame, -⟩ := same_of_connect hb h
  refine ⟨fun n m hnm => hp.onBus n m ((hsame.edge n m).2 hnm), fun k id basis hn => ?_,
    fun n m m' hk hm hm' => hp.deadEnd n m m' hk ((hsame.edge n m).2 hm) ((hsame.edge n m').2 hm')⟩
  rw [← hsame.node] at hn
  exact hp.exposed k id basis hn

/-- Magic states and storages stay dead ends until a tree is contracted. -/
theorem Reshapes.ported (hb : b.graph.WellFormed) (hp : b.graph.Ported) (h : b.Reshapes b')
    (hnone : b'.anchor = none) : b'.graph.Ported := by
  cases h with
  | keep h => exact h.graph ▸ hp
  | @turn c ids hc h =>
    rw [h.graph]
    exact (List.foldlRecOn (motive := fun b : Board => b.graph.WellFormed ∧ b.graph.Ported) ids _
      ⟨hc.graph ▸ hb, hc.graph ▸ hp⟩
      fun b hb id _ => ⟨wellFormed_turn hb.1 id, ported_turn hb.1 hb.2 id⟩).2
  | removeNodes ns h => exact h.graph ▸ ported_removeNodes hb hp ns
  | connect h hc => exact hc ▸ ported_connect hb hp h
  | @contract t anchor h =>
    unfold Board.contract at h
    split at h <;> cases h
    cases hnone

/-! ## Reached boards -/

theorem anchor_ofLayout (h : Board.ofLayout l = .ok b) : b.anchor = none := by
  obtain ⟨patches, -, h⟩ := exists_of_bind_eq_ok h
  cases h
  rfl

theorem Reached.ofLayout (h : Board.ofLayout l = .ok b) : Reached l b := ⟨b, h, ReflTransGen.refl⟩

theorem Reached.step (hb : Reached l b) (h : b.Works b') : Reached l b' := by
  obtain ⟨start, hstart, hworks⟩ := hb
  exact ⟨start, hstart, hworks.tail h⟩

theorem Reached.wellFormed (hb : Reached l b) : b.graph.WellFormed := by
  obtain ⟨start, hstart, hworks⟩ := hb
  induction hworks with
  | refl => exact (laid_ofLayout hstart).wellFormed
  | tail _ hstep ih => exact hstep.reshapes.wellFormed ih

/-- On the way to a board that is not contracted, no tree was contracted. -/
@[elab_as_elim]
theorem Reached.induct_of_none {motive : Board → Prop} (hb : Reached l b) (hnone : b.anchor = none)
    (start : ∀ b, Board.ofLayout l = .ok b → motive b)
    (step : ∀ b b', motive b → b.Operates b' → b'.anchor = none → motive b') : motive b := by
  obtain ⟨first, hfirst, hworks⟩ := hb
  induction hworks with
  | refl => exact start _ hfirst
  | @tail b b' hrun hstep ih =>
    have hwell := Reached.wellFormed ⟨first, hfirst, hrun⟩
    have hbefore : b.anchor = none := by
      rcases hstep.reshapes.anchor_eq hwell with h | ⟨n, h⟩
      · exact h.symm.trans hnone
      · cases h.symm.trans hnone
    rcases hstep with hstep | ⟨t, anchor, h⟩
    · exact step b b' (ih hbefore) hstep hnone
    · unfold Board.contract at h
      split at h <;> cases h
      cases hnone

theorem Reached.plain (hb : Reached l b) (hnone : b.anchor = none) : Plain b.graph := by
  refine hb.induct_of_none hnone (fun b h => ?_) fun b b' hplain hstep hnone' =>
    hstep.reshapes.plain hplain hnone'
  have hlaid := laid_ofLayout h
  exact ⟨hlaid.wellFormed, hlaid.onBus, graded_ofLayout h⟩

theorem Reached.sound (hb : Reached l b) (hnone : b.anchor = none) : b.Sound :=
  hb.induct_of_none hnone (fun _ h => (ofLayout_spec h).1) fun _ _ hsound hstep _ =>
    hstep.sound hsound

theorem Reached.ported (hb : Reached l b) (hnone : b.anchor = none) : b.graph.Ported := by
  have hboth : b.graph.WellFormed ∧ b.graph.Ported := by
    refine hb.induct_of_none hnone (fun b h => ⟨(laid_ofLayout h).wellFormed, ported_ofLayout h⟩) ?_
    rintro b b' ⟨hwell, hported⟩ hstep hnone'
    exact ⟨hstep.reshapes.wellFormed hwell, hstep.reshapes.ported hwell hported hnone'⟩
  exact hboth.2

/-! ## Boards of a layout between ticks -/

/-- Magic states and storages are dead ends on every board of a layout. -/
theorem Stage.ported (h : Stage l b) : b.graph.Ported := by
  induction h with
  | ofLayout h => exact ported_ofLayout h
  | removeNodes ns h ih => exact ported_removeNodes h.sound.graph ih ns
  | setTicks h hset ih => exact (h.sound.setTo_of_setTicks hset).graph ▸ ih
  | elapse ticks h ih => exact ported_elapse h.sound ih ticks
  | turn id h ih => exact ported_turn h.sound.graph ih id
  | storeMagicStates h ih => exact (storeMagicStates_spec h.sound).1.graph ▸ ih
  | resetStorages h hreset ih => exact ((resetStorages_ends h.sound).of_ok hreset).1.graph ▸ ih

theorem Stage.plain (h : Stage l b) : Plain b.graph := ⟨h.sound.graph, h.ported.onBus, h.graded⟩

end Board

end LatticeSurgery
