import LatticeSurgery.Proofs.Board.Reached
import LatticeSurgery.Proofs.Board.Restoring
import LatticeSurgery.Proofs.Board.TurnEffect

/-!
# Turns cancel and commute

A turn exchanges the boundaries of a patch, and time changes countdowns by a rule that depends on the kind of
the node. What several of these steps lead to is therefore known from which patches have their boundaries
exchanged in the end, and from one rule (`Board.Moved`): a patch that is turned twice is as before, and the
rules are applied one after the other (`Moved.trans`). So turning a patch twice restores the board, and two
turns can be made in either order (`turn_cancels_and_commutes`).
-/

namespace LatticeSurgery

open Ordered LatticeSurgery.Graph

namespace Board

variable {b b' b₁ b₂ : Board} {l : Layout} {s s' : Nat → Bool} {f f' : NodeKind → Int → Int} {id : Nat}
  {n m : Node} {st : Status}

/-! ## Exchanging boundaries -/

/-- The node itself, or the other boundary of its data patch if that is one of the given ones. -/
def swapped (s : Nat → Bool) : Node → Node
  | .boundary .qubit id basis => .qubit id (if s id then basis.flipped else basis)
  | n => n

@[simp] theorem kind_swapped (s : Nat → Bool) (n : Node) : (swapped s n).kind = n.kind := by
  unfold swapped
  split <;> rfl

@[simp] theorem swapped_none (n : Node) : swapped (fun _ => false) n = n := by
  unfold swapped
  split <;> rfl

/-- A patch whose boundaries are exchanged twice is as before. -/
theorem swapped_swapped (s s' : Nat → Bool) (n : Node) :
    swapped s (swapped s' n) = swapped (fun id => s id ^^ s' id) n := by
  match n with
  | .bus _ | .boundary .magic _ _ | .boundary .zero _ _ | .boundary .storage _ _ => rfl
  | .qubit id basis => cases h : s id <;> cases h' : s' id <;> simp [swapped, h, h']

@[simp] theorem swapped_swapped_self (s : Nat → Bool) (n : Node) : swapped s (swapped s n) = n := by
  rw [swapped_swapped]
  simp

theorem turned_eq_swapped (id : Nat) (n : Node) : turned id n = swapped (fun i => decide (i = id)) n := by
  match n with
  | .bus _ | .boundary .magic _ _ | .boundary .zero _ _ | .boundary .storage _ _ => rfl
  | .qubit i basis => simp [turned_qubit_eq, swapped, eq_comm]

/-! ## Moves -/

/-- A board on which the boundaries of some patches have changed places, with their edges and countdowns, and
on which the countdowns have changed by a rule. Nothing else is different. -/
structure Moved (s : Nat → Bool) (f : NodeKind → Int → Int) (b b' : Board) : Prop where
  sound : b'.Sound
  node : ∀ n, b'.graph.hasNode n = b.graph.hasNode n
  weight : ∀ n m, b'.graph.weight? n m = b.graph.weight? (swapped s n) (swapped s m)
  ticks : ∀ n, b'.ticksOf n = (b.ticksOf (swapped s n)).map (f n.kind)
  /-- The statuses that the nodes have reached get lists, and none disappears. -/
  lists : ∀ st, b'.countdowns.Lists st ↔ b.countdowns.Lists st ∨
    ∃ n t, b.ticksOf n = some t ∧ Status.ofTicks n (f n.kind t) = some st
  tiles : b'.tiles = b.tiles
  anchor : b'.anchor = b.anchor

theorem Sound.moved_refl (hb : b.Sound) : Moved (fun _ => false) (fun _ t => t) b b := by
  refine ⟨hb, fun _ => rfl, by simp, by simp, fun st => ?_, rfl, rfl⟩
  refine (or_iff_left_of_imp ?_).symm
  rintro ⟨n, t, ht, hs⟩
  exact hb.countdowns.lists_of_get? ht hs

/-- A move after a move. The second rule may leave out a status that a node has after the first one
only if the node had it from the beginning. -/
theorem Moved.trans (hb : b.Sound) (h : Moved s f b b₁) (h' : Moved s' f' b₁ b₂)
    (hkeep : ∀ k t p, Phase.ofTicks k (f k t) = some p →
      Phase.ofTicks k t = some p ∨ Phase.ofTicks k (f' k (f k t)) = some p) :
    Moved (fun id => s id ^^ s' id) (fun k t => f' k (f k t)) b b₂ where
  sound := h'.sound
  node n := (h'.node n).trans (h.node n)
  weight n m := by rw [h'.weight, h.weight, swapped_swapped, swapped_swapped]
  ticks n := by
    rw [h'.ticks, h.ticks, swapped_swapped, kind_swapped, Option.map_map]
    rfl
  lists st := by
    have hstatus : ∀ {n : Node} {t : Int}, Status.ofTicks n t = some st ↔
        ∃ p, Phase.ofTicks n.kind t = some p ∧ ⟨n.kind, p⟩ = st := Option.map_eq_some_iff
    rw [h'.lists, h.lists, or_assoc]
    refine or_congr_right' fun hnot => ⟨?_, ?_⟩
    · rintro (⟨n, t, ht, hs⟩ | ⟨n, t', ht', hs⟩)
      · obtain ⟨p, hp, rfl⟩ := hstatus.1 hs
        rcases hkeep _ _ _ hp with hp | hp
        · exact absurd (hb.countdowns.lists_of_get? ht (hstatus.2 ⟨p, hp, rfl⟩)) hnot
        · exact ⟨n, t, ht, hstatus.2 ⟨p, hp, rfl⟩⟩
      · rw [h.ticks, Option.map_eq_some_iff] at ht'
        obtain ⟨t, ht, rfl⟩ := ht'
        refine ⟨_, t, ht, ?_⟩
        rw [kind_swapped, ← hs]
        exact Status.ofTicks_congr (kind_swapped _ _) _
    · rintro ⟨n, t, ht, hs⟩
      refine Or.inr ⟨swapped s n, f n.kind t, ?_, ?_⟩
      · rw [h.ticks, swapped_swapped_self, ht, kind_swapped]
        rfl
      · rw [kind_swapped, ← hs]
        exact Status.ofTicks_congr (kind_swapped _ _) _
  tiles := h'.tiles.trans h.tiles
  anchor := h'.anchor.trans h.anchor

/-- The same move leads to the same board. -/
theorem Moved.reordered (h₁ : Moved s f b b₁) (h₂ : Moved s f b b₂) : b₁.Reordered b₂ := by
  refine reordered_of_weight h₁.sound.graph h₂.sound.graph (fun n => ?_) (fun n m => ?_) ?_
    (h₂.tiles.trans h₁.tiles.symm) (h₂.anchor.trans h₁.anchor.symm)
  · rw [h₂.node, h₁.node]
  · rw [h₂.weight, h₁.weight]
  · refine h₂.sound.countdowns.eq_of_get? h₁.sound.countdowns (fun n => ?_) fun st => ?_
    · exact (h₂.ticks n).trans (h₁.ticks n).symm
    · rw [h₂.lists, h₁.lists]

theorem Moved.canTurn_iff (h : Moved s f b b') : b'.CanTurn id ↔ b.CanTurn id := by
  unfold CanTurn
  rw [h.node, h.node]

/-! ## Turns -/

/-- Turning a patch exchanges the edges of its boundaries, with their weights. -/
theorem weight?_turn (hb : Plain b.graph) (h : b.CanTurn id) :
    (b.turn id).graph.weight? n m = b.graph.weight? (turned id n) (turned id m) := by
  have hadj := @adj_turn b id n m hb.wellFormed hb.onBus h
  by_cases hnm : b.graph.Adj (turned id n) (turned id m)
  · have hstep : stepWeight (turned id n) (turned id m) = stepWeight n m := by
      unfold stepWeight
      rw [isBus_turned, isBus_turned]
    rw [hb.graded.weight? hnm, (hb.turn id).graded.weight? (hadj.2 hnm), hstep]
  · rw [Option.not_isSome_iff_eq_none.1 hnm, Option.not_isSome_iff_eq_none.1 (hadj.not.2 hnm)]

theorem lists_turn (hb : b.Sound) (h : b.CanTurn id) :
    (b.turn id).countdowns.Lists st ↔ b.countdowns.Lists st := by
  obtain ⟨tx, htx⟩ := (hb.timed _).1 h.1
  obtain ⟨tz, htz⟩ := (hb.timed _).1 h.2
  rw [countdowns_turn h htx htz]
  simp only [Countdowns.lists_place, Countdowns.lists_remove]
  refine ⟨?_, fun hl => Or.inl (Or.inl hl)⟩
  -- both boundaries are of the same kind, so the statuses were there before
  rintro ((hl | hs) | hs)
  · exact hl
  · exact hb.countdowns.lists_of_get? htz ((Status.ofTicks_congr rfl tz).trans hs)
  · exact hb.countdowns.lists_of_get? htx ((Status.ofTicks_congr rfl tx).trans hs)

/-- A turn exchanges the boundaries of its patch, if the patch has both of its nodes. -/
theorem moved_turn (hb : b.Sound) (hplain : Plain b.graph) (id : Nat) :
    Moved (fun i => decide (i = id ∧ b.CanTurn id)) (fun _ t => t) b (b.turn id) := by
  by_cases h : b.CanTurn id
  · have hswapped : ∀ n, swapped (fun i => decide (i = id ∧ b.CanTurn id)) n = turned id n := by
      intro n
      simp [turned_eq_swapped, h]
    obtain ⟨hsound, hnode, hticks⟩ := turn_spec hb h
    refine ⟨hsound, hnode, fun n m => ?_, fun n => ?_, fun st => ?_, tiles_turn b id, anchor_turn b id⟩
    · rw [hswapped, hswapped, weight?_turn hplain h]
    · rw [hswapped, hticks, Option.map_id']
    · rw [lists_turn hb h]
      exact hb.moved_refl.lists st
  · have hnone : (fun i => decide (i = id ∧ b.CanTurn id)) = fun _ => false := by
      simp [h]
    rw [hnone, turn_of_not_canTurn h]
    exact hb.moved_refl

/-- Turns are made one after the other. -/
theorem Moved.turn (hb : b.Sound) (h : Moved s f b b') (hplain : Plain b'.graph) (id : Nat) :
    Moved (fun i => s i ^^ decide (i = id ∧ b.CanTurn id)) f b (b'.turn id) := by
  have hturn := moved_turn h.sound hplain id
  simp only [h.canTurn_iff] at hturn
  have hboth := h.trans hb hturn fun _ _ _ hp => Or.inr hp
  exact hboth

/-- A board on which the boundaries of one patch have changed places. -/
structure Exchanges (b : Board) (id : Nat) (b' : Board) : Prop where
  node : ∀ n, b'.graph.hasNode n = b.graph.hasNode n
  /-- The boundaries of the patch have each other's neighbours. -/
  neighbors : ∀ basis,
    (b'.graph.neighbors (.qubit id basis)).Perm (b.graph.neighbors (.qubit id basis.flipped))
  /-- An edge of one boundary becomes one of the other, with its weight, and all others stay. -/
  weight : ∀ n m, b'.graph.weight? n m = b.graph.weight? (turned id n) (turned id m)
  ticks : ∀ n, b'.ticksOf n = b.ticksOf (turned id n)
  withStatus : ∀ st n, n ∈ b'.countdowns.withStatus st ↔ turned id n ∈ b.countdowns.withStatus st
  closed : ∀ n, n ∈ b'.unavailable ↔ turned id n ∈ b.unavailable
  tiles : b'.tiles = b.tiles
  anchor : b'.anchor = b.anchor

theorem exchanges_turn (hb : b.Sound) (hplain : Plain b.graph) (h : b.CanTurn id) :
    b.Exchanges id (b.turn id) := by
  obtain ⟨hsound, hnode, hticks⟩ := turn_spec hb h
  have hkind : ∀ n, (turned id n).kind = n.kind := fun n => by rw [turned_eq_swapped, kind_swapped]
  refine ⟨hnode, fun basis => ?_, fun n m => weight?_turn hplain h, hticks, fun st n => ?_, fun n => ?_,
    tiles_turn b id, anchor_turn b id⟩
  · refine (List.perm_ext_iff_of_nodup (hsound.graph.nodup _) (hb.graph.nodup _)).2 fun m => ?_
    rw [hsound.graph.mem_neighbors, hb.graph.mem_neighbors,
      adj_qubit_turn hplain.wellFormed hplain.onBus h, if_pos rfl]
  · rw [hsound.countdowns.withStatus, hb.countdowns.withStatus]
    refine exists_congr fun t => ?_
    rw [Status.ofTicks_congr (hkind n)]
    exact and_congr_left' (Eq.congr_left (hticks n))
  · rw [hsound.mem_unavailable, hb.mem_unavailable, hticks]
    unfold Node.isClosed
    rw [hkind]

/-- On a board that is not contracted, a turn exchanges the boundaries of its patch if the patch has both,
and changes nothing otherwise. Turning a patch twice restores the board, and two turns can be made in either
order. -/
theorem turn_cancels_and_commutes (hb : Reached l b) (hnone : b.anchor = none) :
    (∀ q, b.Reordered ((b.turn q).turn q)) ∧
    (∀ q, (b.CanTurn q → b.Exchanges q (b.turn q)) ∧ (¬ b.CanTurn q → b.turn q = b)) ∧
    ∀ p q, ((b.turn p).turn q).Reordered ((b.turn q).turn p) := by
  have hsound := hb.sound hnone
  have hplain := hb.plain hnone
  have htwo : ∀ p q, Moved (fun i => decide (i = p ∧ b.CanTurn p) ^^ decide (i = q ∧ b.CanTurn q))
      (fun _ t => t) b ((b.turn p).turn q) := fun p q =>
    (moved_turn hsound hplain p).turn hsound (hplain.turn p) q
  refine ⟨fun q => hsound.moved_refl.reordered ?_, fun q => ⟨exchanges_turn hsound hplain,
    turn_of_not_canTurn⟩, fun p q => (htwo p q).reordered ?_⟩
  · have htwice := htwo q q
    simp only [Bool.xor_self] at htwice
    exact htwice
  · simp only [Bool.xor_comm (decide (_ = p ∧ _))]
    exact htwo q p

/-- Two data patches between the same two bus tiles, which both touch with both boundaries. -/
def sharedTilesLayout : Layout where
  bus := SortedSet.ofList [⟨0, 0⟩, ⟨1, 1⟩]
  data := SortedSet.ofList [⟨0, 1⟩, ⟨1, 0⟩]
  magic := ∅
  zero := ∅
  storage := ∅

/-- One boundary of the first patch is busy. The order of the turns shows in the order of the edges only. -/
theorem sharedTilesLayout_turns : ∃ b, Reached sharedTilesLayout b ∧ b.anchor = none ∧
    b.ticksOf (.qubit 0 .X) = some 2 ∧ b.graph.Adj (.bus 0) (.qubit 0 .X) ∧
    (b.turn 0).ticksOf (.qubit 0 .Z) = some 2 ∧ (b.turn 0).graph.Adj (.bus 0) (.qubit 0 .Z) ∧
    (b.turn 0).turn 1 ≠ (b.turn 1).turn 0 ∧ ((b.turn 0).turn 1).Reordered ((b.turn 1).turn 0) ∧
    b.Reordered ((b.turn 0).turn 0) ∧ b.turn 9 = b := by
  have hrun : (ofLayout sharedTilesLayout).toOption.any (fun b =>
      (b.setTicks [.qubit 0 .X] 2).toOption.any fun b => decide (b.CanTurn 0 ∧ ¬ b.CanTurn 9 ∧
        b.ticksOf (.qubit 0 .X) = some 2 ∧ b.graph.Adj (.bus 0) (.qubit 0 .X) ∧
        (b.turn 0).turn 1 ≠ (b.turn 1).turn 0)) = true := by
    decide +kernel
  obtain ⟨start, hstart, hrun⟩ := exists_of_any_toOption hrun
  obtain ⟨b, hset, hrun⟩ := exists_of_any_toOption hrun
  obtain ⟨hcan, hcannot, hbusy, hadj, hne⟩ := of_decide_eq_true hrun
  have hreached : Reached sharedTilesLayout b :=
    (Reached.ofLayout hstart).step (Or.inl (.setTicks hset))
  have hnone : b.anchor = none := (alike_of_setTicks hset).anchor.trans (anchor_ofLayout hstart)
  obtain ⟨htwice, hone, hcommute⟩ := turn_cancels_and_commutes hreached hnone
  have hexchanges := (hone 0).1 hcan
  refine ⟨b, hreached, hnone, hbusy, hadj, ?_, ?_, hne, hcommute 0 1, htwice 0, (hone 9).2 hcannot⟩
  · rw [hexchanges.ticks, turned_qubit]
    exact hbusy
  · rw [adj_iff, hexchanges.weight, turned_qubit]
    exact adj_iff.1 hadj

end Board

end LatticeSurgery
