import LatticeSurgery.Proofs.Board.Moves
import Mathlib.Data.Nat.Bits

/-!
# Intervals of time

Letting time pass moves a board (`moved_elapse`). Countdowns lapse, and a patch turns for each of its
boundaries whose countdown runs out, so that its boundaries change places if exactly one countdown does
(`Board.turnsIn`). A boundary takes the rest of its countdown along when it changes places, and it runs out
where it is then. So it does not matter whether an interval of time is split (`elapse_elapse`).
-/

namespace LatticeSurgery

open Ordered LatticeSurgery.Graph

/-- The phase of a node whose countdown is running does not depend on how long it still runs. -/
theorem Phase.ofTicks_of_pos {k : NodeKind} {t t' : Int} (h : 0 < t) (h' : 0 < t') :
    ofTicks k t = ofTicks k t' := by
  unfold ofTicks
  rw [if_neg (show t ≠ 0 by omega), if_neg (show t' ≠ 0 by omega), if_pos h, if_pos h']

namespace Board

variable {b b' : Board} {l : Layout} {s : Nat → Bool} {f : NodeKind → Int → Int} {k : NodeKind} {id : Nat}
  {a c elapsed t : Int}

/-! ## Countdowns -/

theorem emptied_le (ht : t ≤ 0) : emptied k t ≤ 0 := by
  unfold emptied
  split
  · decide
  · exact ht

theorem emptied_emptied : emptied k (emptied k t) = emptied k t := by
  unfold emptied
  split_ifs <;> rfl

theorem ticksAfter_zero (h : 0 ≤ elapsed) : ticksAfter elapsed 0 = 0 := by
  unfold ticksAfter
  omega

theorem lapsed_zero : lapsed elapsed k 0 = 0 := by
  rw [lapsed_of_nonpos le_rfl, emptied_of_nonneg le_rfl]

/-- Emptying storages takes away only phases that were there before the countdowns went down. -/
theorem ofTicks_countedDown {p : Phase} (h : Phase.ofTicks k (countedDown elapsed t) = some p) :
    Phase.ofTicks k t = some p ∨ Phase.ofTicks k (emptied k (countedDown elapsed t)) = some p := by
  rcases Int.lt_or_le 0 t with ht | ht
  · rw [countedDown, if_pos ht] at h ⊢
    rw [emptied_of_nonneg (ticksAfter_nonneg _ _)]
    exact Or.inr h
  · rw [countedDown, if_neg (by omega)] at h
    exact Or.inl h

/-- A countdown lapses in two intervals as in both together. -/
theorem lapsed_lapsed (hc : 0 ≤ c) : lapsed c k (lapsed a k t) = lapsed (a + c) k t := by
  rcases Int.lt_or_le 0 t with ht | ht
  · rw [lapsed_of_pos ht, lapsed_of_pos ht, ← ticksAfter_add hc]
    rcases (ticksAfter_nonneg a t).eq_or_lt' with hzero | hrun
    · rw [hzero, lapsed_zero, ticksAfter_zero hc]
    · rw [lapsed_of_pos hrun]
  · rw [lapsed_of_nonpos ht, lapsed_of_nonpos ht, lapsed_of_nonpos (emptied_le ht), emptied_emptied]

/-- Between two intervals a node has no phase that it did not have at the beginning and does not have at
the end. -/
theorem ofTicks_lapsed (hc : 0 ≤ c) {p : Phase} (h : Phase.ofTicks k (lapsed a k t) = some p) :
    Phase.ofTicks k t = some p ∨ Phase.ofTicks k (lapsed c k (lapsed a k t)) = some p := by
  rcases Int.lt_or_le 0 t with ht | ht
  · rw [lapsed_of_pos ht] at h ⊢
    rcases (ticksAfter_nonneg a t).eq_or_lt' with hzero | hrun
    · -- the countdown has run out, and stays so
      rw [hzero] at h ⊢
      rw [lapsed_zero]
      exact Or.inr h
    · exact Or.inl ((Phase.ofTicks_of_pos ht hrun).trans h)
  · rw [lapsed_lapsed hc, lapsed_of_nonpos ht]
    rw [lapsed_of_nonpos ht] at h
    exact Or.inr h

/-! ## The steps of letting time pass -/

/-- Changing countdowns by a rule is a move, if the nodes that are left out are those for which the rule
changes nothing. -/
theorem moved_foldl_retime {β : Type} {node : β → Node} {time : β → Int} {es : List β} (hb : b.Sound)
    (hspec : (es.foldl (fun b e => b.retime (node e) (time e)) b).Sound ∧
      (es.foldl (fun b e => b.retime (node e) (time e)) b).graph = b.graph ∧
      ∀ n, (es.foldl (fun b e => b.retime (node e) (time e)) b).ticksOf n =
        (b.ticksOf n).map (f n.kind))
    (hin : ∀ e ∈ es, ∃ t, b.ticksOf (node e) = some t ∧ time e = f (node e).kind t)
    (hout : ∀ n t, b.ticksOf n = some t → (∀ e ∈ es, node e ≠ n) → f n.kind t = t) :
    Moved (fun _ => false) f b (es.foldl (fun b e => b.retime (node e) (time e)) b) := by
  obtain ⟨hsound, hgraph, hticks⟩ := hspec
  have halike := alike_foldl_retime node time es b
  refine ⟨hsound, fun n => by rw [hgraph], fun n m => by simp [hgraph], fun n => by simp [hticks],
    fun st => ?_, tiles_foldl_retime node time es b, halike.anchor⟩
  rw [lists_foldl_retime]
  refine or_congr_right' fun hnot => ⟨?_, ?_⟩
  · rintro ⟨e, he, hs⟩
    obtain ⟨t, ht, htime⟩ := hin e he
    exact ⟨node e, t, ht, htime ▸ hs⟩
  · rintro ⟨n, t, ht, hs⟩
    by_cases hlisted : ∃ e ∈ es, node e = n
    · obtain ⟨e, he, rfl⟩ := hlisted
      obtain ⟨t', ht', htime⟩ := hin e he
      cases ht.symm.trans ht'
      exact ⟨e, he, htime ▸ hs⟩
    · push Not at hlisted
      rw [hout n t ht hlisted] at hs
      exact absurd (hb.countdowns.lists_of_get? ht hs) hnot

/-- Turning patches one after the other exchanges the boundaries of those that are turned an odd number
of times. -/
theorem moved_foldl_turn (hb : b.Sound) (hplain : Plain b.graph) (ids : List Nat) :
    Moved (fun id => decide (b.CanTurn id) && (ids.count id).bodd) (fun _ t => t) b (ids.foldl turn b) ∧
      Plain (ids.foldl turn b).graph := by
  induction ids using List.reverseRecOn with
  | nil => exact ⟨by simpa using hb.moved_refl, hplain⟩
  | append_singleton ids i ih =>
    obtain ⟨hmoved, hplain'⟩ := ih
    rw [List.foldl_append]
    refine ⟨?_, hplain'.turn i⟩
    have hturn := hmoved.turn hb hplain' i
    have hparity : ∀ id, (decide (b.CanTurn id) && ((ids ++ [i]).count id).bodd) =
        ((decide (b.CanTurn id) && (ids.count id).bodd) ^^ decide (id = i ∧ b.CanTurn i)) := by
      intro id
      rw [List.count_append, Nat.bodd_add]
      by_cases hid : id = i
      · subst hid
        by_cases hcan : b.CanTurn id <;> simp [hcan]
      · simp [hid, Ne.symm hid]
    simp only [hparity]
    exact hturn

/-! ## The passing of time -/

/-- Whether the boundaries of a patch change places in some time: exactly one of them has a countdown that
runs out. If both countdowns run out, the patch turns twice. -/
def turnsIn (b : Board) (elapsed : Int) (id : Nat) : Bool :=
  decide (b.CanTurn id) && (b.runsOut elapsed (.qubit id .X) ^^ b.runsOut elapsed (.qubit id .Z))

theorem moved_countDown (hb : b.Sound) (elapsed : Int) : Moved (fun _ => false)
    (fun _ => countedDown elapsed) b
    (b.running.foldl (fun b e => b.retime e.1 (ticksAfter elapsed e.2)) b) := by
  refine moved_foldl_retime hb (countDown_spec hb elapsed) (fun e he => ?_) fun n t ht hnot => ?_
  · obtain ⟨ht, hpos⟩ := hb.mem_running.1 he
    exact ⟨e.2, ht, (if_pos hpos).symm⟩
  · refine if_neg fun hpos => ?_
    exact hnot (n, t) (hb.mem_running.2 ⟨ht, hpos⟩) rfl

theorem moved_emptyConnecting (hb : b.Sound) : Moved (fun _ => false) emptied b
    ((b.withStatus .storage .connecting).toList.foldl (fun b n => b.retime n Phase.emptyTicks) b) := by
  refine moved_foldl_retime hb (emptyConnecting_spec hb) (fun n hn => ?_) fun n t ht hnot => ?_
  · obtain ⟨hkind, ht⟩ := hb.mem_connecting.1 hn
    exact ⟨_, ht, (if_pos ⟨hkind, rfl⟩).symm⟩
  · refine if_neg ?_
    rintro ⟨hkind, rfl⟩
    exact hnot n (hb.mem_connecting.2 ⟨hkind, ht⟩) rfl

/-- What letting time pass does to a board. -/
theorem moved_elapse (hb : b.Sound) (hplain : Plain b.graph) (ticks : Nat) :
    Moved (b.turnsIn (asCountdown ticks)) (lapsed (asCountdown ticks)) b (b.elapse ticks) := by
  set elapsed := asCountdown ticks with helapsed
  have hdown := moved_countDown hb elapsed
  set b₁ := b.running.foldl (fun b e => b.retime e.1 (ticksAfter elapsed e.2)) b with hb₁
  have hplain₁ : Plain b₁.graph := by
    rw [hb₁, (countDown_spec hb elapsed).2.1]
    exact hplain
  obtain ⟨hturn, -⟩ := moved_foldl_turn hdown.sound hplain₁ (turnsFinished elapsed b.running)
  have hboth := hdown.trans hb hturn fun _ _ _ hp => Or.inr hp
  have hall := hboth.trans hb (moved_emptyConnecting hboth.sound) fun _ _ _ => ofTicks_countedDown
  have hparity : ∀ id, ((false ^^ (decide (b₁.CanTurn id) &&
      ((turnsFinished elapsed b.running).count id).bodd)) ^^ false) = b.turnsIn elapsed id := by
    intro id
    rw [hb.count_turnsFinished, Nat.bodd_add, turnsIn, Bool.false_xor, Bool.xor_false]
    simp only [hdown.canTurn_iff]
    cases b.runsOut elapsed (.qubit id .X) <;> cases b.runsOut elapsed (.qubit id .Z) <;> rfl
  simp only [hparity] at hall
  exact hall

/-- The countdown of a node runs out in the second of two intervals. -/
def runsOutLater (b : Board) (first second : Int) (n : Node) : Bool :=
  ((b.ticksOf n).map (lapsed first n.kind)).any fun t => decide (0 < t ∧ ticksAfter second t = 0)

/-- A countdown that runs out in two intervals together runs out in exactly one of them. -/
theorem runsOut_add (b : Board) (hc : 0 ≤ c) (n : Node) :
    b.runsOut (a + c) n = (b.runsOut a n ^^ b.runsOutLater a c n) := by
  unfold runsOut runsOutLater
  cases b.ticksOf n with
  | none => rfl
  | some t =>
    simp only [Option.map_some, Option.any_some]
    rcases Int.lt_or_le 0 t with ht | ht
    · rw [lapsed_of_pos ht, ← ticksAfter_add hc]
      rcases (ticksAfter_nonneg a t).eq_or_lt' with hzero | hrun
      · simp [ht, hzero, ticksAfter_zero hc]
      · simp [ht, hrun, hrun.ne']
    · rw [lapsed_of_nonpos ht]
      simp [not_lt.2 ht, not_lt.2 (emptied_le ht)]

/-- A countdown runs out where it is then. -/
theorem Moved.runsOut_eq (h : Moved s (lapsed a) b b') (n : Node) :
    b'.runsOut c n = b.runsOutLater a c (swapped s n) := by
  rw [runsOut, runsOutLater, h.ticks, kind_swapped]

/-- The boundaries of a patch change places in two intervals together if they do so in exactly one. -/
theorem Moved.turnsIn_add (h : Moved (b.turnsIn a) (lapsed a) b b') (hc : 0 ≤ c) (id : Nat) :
    b.turnsIn (a + c) id = (b.turnsIn a id ^^ b'.turnsIn c id) := by
  by_cases hcan : b.CanTurn id
  · have hcan' : b'.CanTurn id := h.canTurn_iff.2 hcan
    -- it does not matter which of the boundaries has which of the countdowns
    have hflip : (b'.runsOut c (.qubit id .X) ^^ b'.runsOut c (.qubit id .Z)) =
        (b.runsOutLater a c (.qubit id .X) ^^ b.runsOutLater a c (.qubit id .Z)) := by
      rw [h.runsOut_eq, h.runsOut_eq, swapped, swapped]
      cases b.turnsIn a id
      · rfl
      · exact Bool.xor_comm _ _
    rw [turnsIn, turnsIn, turnsIn, hflip, runsOut_add b hc, runsOut_add b hc, decide_eq_true hcan,
      decide_eq_true hcan']
    simp only [Bool.true_and, Bool.xor_assoc, Bool.xor_left_comm]
  · simp [turnsIn, hcan, h.canTurn_iff]

/-- Whether an interval of time is split does not matter. The boundaries of a patch change places if the
countdown of exactly one of them runs out in the whole interval, whatever happens in its parts. -/
theorem elapse_elapse (hb : Stage l b) (first second : Nat) (h : first + second < 2 ^ 31) :
    (b.elapse (first + second)).Reordered ((b.elapse first).elapse second) ∧
    Moved (b.turnsIn (first + second)) (lapsed (first + second)) b (b.elapse (first + second)) ∧
    ∀ id, b.turnsIn (first + second) id =
      (b.turnsIn first id ^^ (b.elapse first).turnsIn second id) := by
  have hone := moved_elapse hb.sound hb.plain first
  have htwo := moved_elapse (hb.elapse first).sound (hb.elapse first).plain second
  have hwhole := moved_elapse hb.sound hb.plain (first + second)
  rw [asCountdown_of_lt (by omega)] at hone htwo hwhole
  have hsum : ((first + second : Nat) : Int) = first + second := Int.natCast_add _ _
  rw [hsum] at hwhole
  have hturns := hone.turnsIn_add (Int.natCast_nonneg second)
  have hparts := hone.trans hb.sound htwo fun _ _ _ hp => ofTicks_lapsed (Int.natCast_nonneg _) hp
  simp only [← hturns, lapsed_lapsed (Int.natCast_nonneg second)] at hparts
  exact ⟨hwhole.reordered hparts, hwhole, hturns⟩

/-- A data patch in a corner of the bus, which touches both of its boundaries, and a storage. -/
def cornerStorageLayout : Layout where
  bus := SortedSet.ofList [⟨0, 0⟩, ⟨1, 0⟩, ⟨1, 1⟩]
  data := SortedSet.ofList [⟨0, 1⟩]
  magic := ∅
  zero := ∅
  storage := SortedSet.ofList [⟨2, 0⟩]

/-- Both boundaries of the patch are busy, for 2 and for 5 ticks. After 3 ticks the boundaries have changed
places and one of them is still busy, and after 4 more they have changed back. -/
theorem cornerStorageLayout_elapse : ∃ b, Stage cornerStorageLayout b ∧
    b.ticksOf (.qubit 0 .X) = some 2 ∧ b.ticksOf (.qubit 0 .Z) = some 5 ∧
    b.ticksOf (.boundary .storage 0 .Z) = some Phase.connectingTicks ∧
    b.graph.Adj (.bus 0) (.qubit 0 .X) ∧ (b.elapse 3).graph.Adj (.bus 0) (.qubit 0 .Z) ∧
    (b.elapse 3).ticksOf (.qubit 0 .X) = some 2 ∧ b.turnsIn 3 0 = true ∧
    (b.elapse 3).turnsIn 4 0 = true ∧ b.turnsIn 7 0 = false ∧
    (b.elapse 7).Reordered ((b.elapse 3).elapse 4) := by
  have hrun : (ofLayout cornerStorageLayout).toOption.any (fun b =>
      (b.setTicks [.qubit 0 .X] 2).toOption.any fun b =>
        (b.setTicks [.qubit 0 .Z] 5).toOption.any fun b =>
          (b.setTicks [.boundary .storage 0 .Z] Phase.connectingTicks).toOption.any fun b =>
            decide (b.ticksOf (.qubit 0 .X) = some 2 ∧ b.ticksOf (.qubit 0 .Z) = some 5 ∧
              b.ticksOf (.boundary .storage 0 .Z) = some Phase.connectingTicks ∧
              b.graph.Adj (.bus 0) (.qubit 0 .X) ∧ (b.elapse 3).graph.Adj (.bus 0) (.qubit 0 .Z) ∧
              (b.elapse 3).ticksOf (.qubit 0 .X) = some 2 ∧ b.turnsIn 3 0 = true ∧
              b.turnsIn 7 0 = false)) = true := by
    decide +kernel
  obtain ⟨b₀, h₀, hrun⟩ := exists_of_any_toOption hrun
  obtain ⟨b₁, h₁, hrun⟩ := exists_of_any_toOption hrun
  obtain ⟨b₂, h₂, hrun⟩ := exists_of_any_toOption hrun
  obtain ⟨b, h₃, hrun⟩ := exists_of_any_toOption hrun
  obtain ⟨hx, hz, hstorage, hadj, hadj', hrest, hfirst, hwhole⟩ := of_decide_eq_true hrun
  have hstage : Stage cornerStorageLayout b :=
    (((Stage.ofLayout h₀).setTicks h₁).setTicks h₂).setTicks h₃
  obtain ⟨hreordered, -, hturns⟩ := elapse_elapse hstage 3 4 (by decide)
  refine ⟨b, hstage, hx, hz, hstorage, hadj, hadj', hrest, hfirst, ?_, hwhole, hreordered⟩
  have hsplit := hturns 0
  rw [show ((3 : Nat) : Int) + ((4 : Nat) : Int) = 7 by rfl, hwhole] at hsplit
  simpa [hfirst] using hsplit

end Board

end LatticeSurgery
