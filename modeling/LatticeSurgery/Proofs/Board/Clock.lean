import LatticeSurgery.Board.Clock
import LatticeSurgery.Proofs.Board.Sound
import Mathlib.Algebra.Group.Nat.Defs

/-!
# The passing of time

Time takes one from every running countdown, and a storage that was joined to a zero state becomes
empty (`countdownAfter`). Turning a patch exchanges the countdowns of its two boundaries. So after
some time every node has the countdown that this rule gives for itself, except that the boundaries
of a patch that finished turning may have changed places (`Elapses`).
-/

namespace LatticeSurgery

open Ordered LatticeSurgery.Graph

theorem Basis.eq_flipped {b c : Basis} (h : c ≠ b) : c = b.flipped := by
  cases b <;> cases c <;> simp_all [flipped]

theorem Node.means_congr {n m : Node} (h : n.kind = m.kind) {t : Int} : n.Means t ↔ m.Means t := by
  unfold Node.Means
  rw [Status.ofTicks_congr h]

theorem asCountdown_of_lt {n : Nat} (h : n < 2 ^ 31) : asCountdown n = n := by
  unfold asCountdown
  rw [Int.bmod_eq_of_le] <;> omega

/-- The upper half of the numbers of 32 bits becomes negative. -/
theorem asCountdown_of_ge {n : Nat} (h : 2 ^ 31 ≤ n) (hn : n < 2 ^ 32) :
    asCountdown n = n - 4294967296 := by
  unfold asCountdown
  rw [Int.bmod_def, if_neg] <;> omega

namespace Board

variable {b b' : Board} {n m a c : Node} {t : Int}

/-! ## The edges at a node -/

theorem wellFormed_detach (hb : b.graph.WellFormed) : (b.detach n).2.graph.WellFormed :=
  hb.foldl_removeEdge _ _

theorem hasNode_detach : (b.detach n).2.graph.hasNode m = b.graph.hasNode m :=
  hasNode_foldl_removeEdge _ _

theorem mem_detach {e : Node × Nat} (he : e ∈ (b.detach n).1) : b.graph.Adj n e.1 :=
  adj_of_mem_incident he

/-- Detaching a node removes exactly the edges at it. -/
theorem weight?_detach (hb : b.graph.WellFormed) {w : Nat} :
    (b.detach n).2.graph.weight? a c = some w ↔ b.graph.weight? a c = some w ∧ a ≠ n ∧ c ≠ n := by
  refine (weight?_foldl_removeEdge (fun e : Node × Nat => e.1) _).trans ?_
  refine and_congr_right fun hw => ?_
  have hac : b.graph.Adj a c := adj_iff.2 ⟨w, hw⟩
  constructor
  · intro h
    refine ⟨?_, ?_⟩
    · rintro rfl
      obtain ⟨e, he, rfl⟩ := hb.exists_mem_incident.2 hac
      exact (h e he).1 ⟨rfl, rfl⟩
    · rintro rfl
      obtain ⟨e, he, rfl⟩ := hb.exists_mem_incident.2 hac.symm
      exact (h e he).2 ⟨rfl, rfl⟩
  · rintro ⟨ha, hc⟩ e -
    exact ⟨fun h => ha h.1, fun h => hc h.2⟩

theorem adj_detach (hb : b.graph.WellFormed) :
    (b.detach n).2.graph.Adj a c ↔ b.graph.Adj a c ∧ a ≠ n ∧ c ≠ n := by
  simp only [adj_iff, weight?_detach hb, exists_and_right]

theorem wellFormed_attach (hb : b.graph.WellFormed) (edges : List (Node × Nat)) :
    (b.attach n edges).graph.WellFormed :=
  hb.foldl_addEdge _ _ _ _

theorem hasNode_attach (hb : b.graph.WellFormed) {edges : List (Node × Nat)} :
    (b.attach n edges).graph.hasNode m = true ↔
      b.graph.hasNode m = true ∨ ∃ e ∈ edges, m = n ∨ m = e.1 :=
  hasNode_foldl_addEdge (fun _ => n) _ _ _ hb

theorem adj_attach {edges : List (Node × Nat)} : (b.attach n edges).graph.Adj a c ↔
    b.graph.Adj a c ∨ ∃ e ∈ edges, (a = n ∧ c = e.1) ∨ (a = e.1 ∧ c = n) :=
  adj_foldl_addEdge (fun _ => n) _ _ _

/-! ## Turning a patch -/

/-- The node itself, or the other boundary of the patch `id` if it belongs to that patch. -/
def turned (id : Nat) (n : Node) : Node :=
  if n = .qubit id .X ∨ n = .qubit id .Z then n.opposite else n

/-- The patch has both of its nodes, so that it can turn. -/
def CanTurn (b : Board) (id : Nat) : Prop :=
  b.graph.hasNode (.qubit id .X) = true ∧ b.graph.hasNode (.qubit id .Z) = true

instance (b : Board) (id : Nat) : Decidable (b.CanTurn id) := instDecidableAnd

/-- The board at the moment at which both boundaries of a patch are without edges and countdowns,
with the edges that they had. -/
def stripped (b : Board) (id : Nat) : List (Node × Nat) × List (Node × Nat) × Board :=
  let b' := { b with countdowns := (b.countdowns.remove (.qubit id .X)).remove (.qubit id .Z) }
  let x := b'.detach (.qubit id .X)
  let z := x.2.detach (.qubit id .Z)
  (x.1, z.1, z.2)

theorem turn_eq {id : Nat} (h : b.CanTurn id) : b.turn id =
    ((((b.stripped id).2.2.attach (.qubit id .X) (b.stripped id).2.1).attach (.qubit id .Z)
      (b.stripped id).1).inherit (.qubit id .X) (b.ticksOf (.qubit id .Z))).inherit (.qubit id .Z)
        (b.ticksOf (.qubit id .X)) := by
  unfold turn
  dsimp only
  rw [if_pos (by simp [h.1, h.2])]
  rfl

theorem turn_of_not_canTurn {id : Nat} (h : ¬ b.CanTurn id) : b.turn id = b := by
  unfold turn
  dsimp only
  rw [if_neg]
  simpa [CanTurn] using h

theorem graph_inherit (b : Board) (n : Node) (ticks : Option Int) :
    (b.inherit n ticks).graph = b.graph := by
  cases ticks <;> rfl

/-- Both boundaries get the edges of each other. -/
theorem graph_turn {id : Nat} (h : b.CanTurn id) : (b.turn id).graph =
    (((b.stripped id).2.2.attach (.qubit id .X) (b.stripped id).2.1).attach (.qubit id .Z)
      (b.stripped id).1).graph := by
  rw [turn_eq h, graph_inherit, graph_inherit]

theorem hasNode_turn (hb : b.graph.WellFormed) {id : Nat} (h : b.CanTurn id) (n : Node) :
    (b.turn id).graph.hasNode n = b.graph.hasNode n := by
  have hwell : (b.stripped id).2.2.graph.WellFormed := wellFormed_detach (wellFormed_detach hb)
  rw [Bool.eq_iff_iff, graph_turn h, hasNode_attach (wellFormed_attach hwell _), hasNode_attach hwell]
  have hstripped : (b.stripped id).2.2.graph.hasNode n = b.graph.hasNode n :=
    hasNode_detach.trans hasNode_detach
  rw [hstripped]
  constructor
  · rintro ((hn | ⟨e, he, rfl | rfl⟩) | ⟨e, he, rfl | rfl⟩)
    · exact hn
    · exact h.1
    · exact hb.hasNode_right ((adj_detach hb).1 (mem_detach he)).1
    · exact h.2
    · exact hb.hasNode_right (mem_detach he)
  · exact fun hn => Or.inl (Or.inl hn)

/-- Both boundaries are without a countdown when they inherit that of the other one. -/
theorem countdowns_turn {id : Nat} {tx tz : Int} (h : b.CanTurn id)
    (htx : b.ticksOf (.qubit id .X) = some tx) (htz : b.ticksOf (.qubit id .Z) = some tz) :
    (b.turn id).countdowns =
      ((((b.countdowns.remove (.qubit id .X)).remove (.qubit id .Z)).place (.qubit id .X) tz).place
        (.qubit id .Z) tx) := by
  rw [turn_eq h, htx, htz]
  rfl

/-- What turning a patch does: the countdowns of its boundaries are exchanged. -/
structure Turns (b : Board) (id : Nat) (b' : Board) : Prop where
  sound : b'.Sound
  node : ∀ n, b'.graph.hasNode n = b.graph.hasNode n
  ticks : ∀ n, b'.ticksOf n = b.ticksOf (turned id n)

theorem turn_spec (hb : b.Sound) {id : Nat} (h : b.CanTurn id) : b.Turns id (b.turn id) := by
  obtain ⟨tx, htx⟩ := (hb.timed _).1 h.1
  obtain ⟨tz, htz⟩ := (hb.timed _).1 h.2
  have hmeans : ∀ (basis basis' : Basis) (t : Int), b.ticksOf (.qubit id basis) = some t →
      (Node.qubit id basis').Means t := fun basis basis' t ht =>
    (Node.means_congr (n := .qubit id basis) rfl).1 (hb.means ht)
  have hne : Node.qubit id .X ≠ Node.qubit id .Z := by simp
  have hcountdowns := countdowns_turn h htx htz
  have hwell : (b.stripped id).2.2.graph.WellFormed := wellFormed_detach (wellFormed_detach hb.graph)
  have hnode : ∀ n, (b.turn id).graph.hasNode n = b.graph.hasNode n := hasNode_turn hb.graph h
  have hticks : ∀ n, (b.turn id).ticksOf n = b.ticksOf (turned id n) := by
    intro n
    unfold ticksOf
    rw [hcountdowns]
    unfold turned
    by_cases hx : n = .qubit id .X
    · subst hx
      rw [Countdowns.get?_place, if_neg (by simp), Countdowns.get?_place, if_pos (same_self _),
        if_pos (Or.inl rfl)]
      exact htz.symm
    · by_cases hz : n = .qubit id .Z
      · subst hz
        rw [Countdowns.get?_place, if_pos (same_self _), if_pos (Or.inr rfl)]
        exact htx.symm
      · rw [Countdowns.get?_place, if_neg (by simpa using hz), Countdowns.get?_place,
          if_neg (by simpa using hx), Countdowns.get?_remove, if_neg (by simpa using Ne.symm hz),
          Countdowns.get?_remove, if_neg (by simpa using Ne.symm hx), if_neg (by tauto)]
  refine ⟨⟨?_, ?_, fun n => ?_⟩, hnode, hticks⟩
  · rw [graph_turn h]
    exact wellFormed_attach (wellFormed_attach hwell _) _
  · rw [hcountdowns]
    refine Countdowns.Sound.place (Countdowns.Sound.place ((hb.countdowns.remove _).remove _) ?_
      (hmeans _ _ _ htz)) ?_ (hmeans _ _ _ htx)
    · rw [Countdowns.get?_remove, if_neg (by simp), Countdowns.get?_remove, if_pos (same_self _)]
    · rw [Countdowns.get?_place, if_neg (by simp), Countdowns.get?_remove, if_pos (same_self _)]
  · rw [hnode, hticks, hb.timed]
    unfold turned
    split
    · next hn =>
      rcases hn with rfl | rfl
      · exact ⟨fun _ => ⟨tz, htz⟩, fun _ => ⟨tx, htx⟩⟩
      · exact ⟨fun _ => ⟨tx, htx⟩, fun _ => ⟨tz, htz⟩⟩
    · rfl

theorem Sound.turn (hb : b.Sound) (id : Nat) : (b.turn id).Sound := by
  by_cases h : b.CanTurn id
  · exact (turn_spec hb h).sound
  · rw [turn_of_not_canTurn h]
    exact hb

/-- After several turns, the boundaries of a patch have their own countdowns or those of each
other. -/
theorem foldl_turn_spec (hb : b.Sound) (ids : List Nat) :
    (ids.foldl turn b).Sound ∧ (∀ n, (ids.foldl turn b).graph.hasNode n = b.graph.hasNode n) ∧
    (∀ n, n.kind ≠ .patch .qubit → (ids.foldl turn b).ticksOf n = b.ticksOf n) ∧
    ∀ id, (∀ basis, (ids.foldl turn b).ticksOf (.qubit id basis) = b.ticksOf (.qubit id basis)) ∨
      (id ∈ ids ∧ ∀ basis, (ids.foldl turn b).ticksOf (.qubit id basis) =
        b.ticksOf (.qubit id basis.flipped)) := by
  induction ids generalizing b with
  | nil => exact ⟨hb, fun _ => rfl, fun _ _ => rfl, fun id => Or.inl fun _ => rfl⟩
  | cons i ids ih =>
    rw [List.foldl_cons]
    by_cases hturn : b.CanTurn i
    · obtain ⟨hsound, hnode, hticks⟩ := turn_spec hb hturn
      obtain ⟨hsound', hnode', hother, hqubit⟩ := ih hsound
      refine ⟨hsound', fun n => (hnode' n).trans (hnode n), fun n hn => ?_, fun id => ?_⟩
      · rw [hother n hn, hticks, turned, if_neg]
        rintro (rfl | rfl) <;> exact hn rfl
      · -- one more exchange undoes an earlier one
        have hone : ∀ basis, (b.turn i).ticksOf (.qubit id basis) =
            if id = i then b.ticksOf (.qubit id basis.flipped) else b.ticksOf (.qubit id basis) := by
          intro basis
          rw [hticks, turned]
          by_cases hid : id = i
          · subst hid
            cases basis <;> simp [Node.opposite]
          · simp [hid]
        by_cases hid : id = i
        · subst hid
          rcases hqubit id with hkeep | ⟨-, hswap⟩
          · refine Or.inr ⟨List.mem_cons_self, fun basis => ?_⟩
            rw [hkeep, hone, if_pos rfl]
          · refine Or.inl fun basis => ?_
            rw [hswap, hone, if_pos rfl, Basis.flipped_flipped]
        · rcases hqubit id with hkeep | ⟨hmem, hswap⟩
          · refine Or.inl fun basis => ?_
            rw [hkeep, hone, if_neg hid]
          · refine Or.inr ⟨List.mem_cons_of_mem _ hmem, fun basis => ?_⟩
            rw [hswap, hone, if_neg hid]
    · rw [turn_of_not_canTurn hturn]
      obtain ⟨hsound, hnode, hother, hqubit⟩ := ih hb
      refine ⟨hsound, hnode, hother, fun id => ?_⟩
      rcases hqubit id with hkeep | ⟨hmem, hswap⟩
      · exact Or.inl hkeep
      · exact Or.inr ⟨List.mem_cons_of_mem _ hmem, hswap⟩

/-! ## Running countdowns -/

/-- Changing the countdowns of different nodes one after the other. -/
theorem foldl_retime_spec {β : Type} {l : List β} (node : β → Node) (time : β → Int)
    (hb : b.Sound) (hl : (l.map node).Nodup)
    (hnodes : ∀ e ∈ l, b.graph.hasNode (node e) = true ∧ (node e).Means (time e)) :
    (l.foldl (fun b e => b.retime (node e) (time e)) b).Sound ∧
    (l.foldl (fun b e => b.retime (node e) (time e)) b).graph = b.graph ∧
    (∀ e ∈ l, (l.foldl (fun b e => b.retime (node e) (time e)) b).ticksOf (node e) =
      some (time e)) ∧
    ∀ n, n ∉ l.map node →
      (l.foldl (fun b e => b.retime (node e) (time e)) b).ticksOf n = b.ticksOf n := by
  induction l generalizing b with
  | nil => exact ⟨hb, rfl, by simp, fun _ _ => rfl⟩
  | cons e es ih =>
    obtain ⟨he, hes⟩ := List.nodup_cons.1 hl
    obtain ⟨hnode, hmeans⟩ := hnodes e List.mem_cons_self
    obtain ⟨hsound, hgraph, hin, hout⟩ := ih (hb.retime hnode hmeans) hes
      fun e' he' => hnodes e' (List.mem_cons_of_mem _ he')
    refine ⟨hsound, hgraph, fun e' he' => ?_, fun n hn => ?_⟩
    · rcases List.mem_cons.1 he' with rfl | he'
      · rw [List.foldl_cons, hout _ he, ticksOf_retime, if_pos (same_self _)]
      · exact hin e' he'
    · rw [List.map_cons, List.mem_cons, not_or] at hn
      rw [List.foldl_cons, hout n hn.2, ticksOf_retime, if_neg (by simpa using hn.1)]

/-- On a sound board the running countdowns are the positive ones. -/
theorem Sound.mem_running (hb : b.Sound) {e : Node × Int} :
    e ∈ b.running ↔ b.ticksOf e.1 = some e.2 ∧ 0 < e.2 := by
  unfold running
  rw [List.mem_filterMap]
  constructor
  · rintro ⟨n, -, hn⟩
    split at hn
    · next t ht =>
      split at hn
      · next hpos =>
        cases hn
        exact ⟨ht, hpos⟩
      · cases hn
    · cases hn
  · rintro ⟨ht, hpos⟩
    refine ⟨e.1, hb.mem_unavailable_of_pos ht hpos, ?_⟩
    rw [ht]
    simp [hpos]

theorem nodup_running (b : Board) : (b.running.map Prod.fst).Nodup := by
  have hsub : (b.running.map Prod.fst).Sublist b.unavailable.toList := by
    unfold running
    induction b.unavailable.toList with
    | nil => exact List.Sublist.refl _
    | cons n ns ih =>
      rw [List.filterMap_cons]
      split
      · exact ih.cons n
      · next e he =>
        have hfst : e.1 = n := by
          split at he
          · split at he
            · cases he
              rfl
            · cases he
          · cases he
        rw [List.map_cons, hfst]
        exact ih.cons_cons n
  exact b.unavailable.nodup.sublist hsub

/-- The countdown of a node after some time, if it does not change places. -/
def countdownAfter (elapsed : Int) (n : Node) (t : Int) : Int :=
  if n.kind = .patch .storage ∧ t = Phase.connectingTicks then Phase.emptyTicks
  else if 0 < t then ticksAfter elapsed t else t

theorem ticksAfter_nonneg (elapsed t : Int) : 0 ≤ ticksAfter elapsed t := by
  unfold ticksAfter
  omega

/-- A countdown that is running goes down. -/
def countedDown (elapsed t : Int) : Int := if 0 < t then ticksAfter elapsed t else t

/-- A storage that was joined to a zero state becomes empty. -/
def emptied (k : NodeKind) (t : Int) : Int :=
  if k = .patch .storage ∧ t = Phase.connectingTicks then Phase.emptyTicks else t

/-- The countdown of a node of a kind after some time. -/
def lapsed (elapsed : Int) (k : NodeKind) (t : Int) : Int := emptied k (countedDown elapsed t)

theorem emptied_of_nonneg {k : NodeKind} (ht : 0 ≤ t) : emptied k t = t := by
  unfold emptied
  rw [if_neg]
  rintro ⟨-, rfl⟩
  cases ht

theorem lapsed_of_nonpos {elapsed : Int} {k : NodeKind} (ht : t ≤ 0) :
    lapsed elapsed k t = emptied k t := by
  rw [lapsed, countedDown, if_neg (by omega)]

theorem lapsed_of_pos {elapsed : Int} {k : NodeKind} (ht : 0 < t) :
    lapsed elapsed k t = ticksAfter elapsed t := by
  rw [lapsed, countedDown, if_pos ht, emptied_of_nonneg (ticksAfter_nonneg _ _)]

theorem countdownAfter_eq_lapsed (elapsed : Int) (n : Node) (t : Int) :
    countdownAfter elapsed n t = lapsed elapsed n.kind t := by
  unfold countdownAfter
  rcases Int.lt_or_le 0 t with ht | ht
  · rw [lapsed_of_pos ht, if_neg, if_pos ht]
    rintro ⟨-, rfl⟩
    cases ht
  · rw [lapsed_of_nonpos ht, if_neg (show ¬ 0 < t by omega), emptied]

/-- The countdown of a boundary of the patch runs out. -/
def Finishes (b : Board) (elapsed : Int) (id : Nat) : Prop :=
  ∃ basis t, b.ticksOf (.qubit id basis) = some t ∧ 0 < t ∧ ticksAfter elapsed t = 0

/-- At most one boundary of a data patch has a countdown other than zero. -/
def OneBusy (b : Board) : Prop :=
  ∀ id basis t t', b.ticksOf (.qubit id basis) = some t →
    b.ticksOf (.qubit id basis.flipped) = some t' → t = 0 ∨ t' = 0

theorem Sound.mem_turnsFinished (hb : b.Sound) {elapsed : Int} {id : Nat} :
    id ∈ turnsFinished elapsed b.running ↔ b.Finishes elapsed id := by
  unfold turnsFinished
  rw [List.mem_filterMap]
  constructor
  · rintro ⟨⟨n, t⟩, he, hid⟩
    obtain ⟨ht, hpos⟩ := hb.mem_running.1 he
    dsimp only at hid
    split at hid
    · split at hid
      · next hzero =>
        cases hid
        exact ⟨_, t, ht, hpos, hzero⟩
      · cases hid
    · cases hid
  · rintro ⟨basis, t, ht, hpos, hzero⟩
    exact ⟨(.qubit id basis, t), hb.mem_running.2 ⟨ht, hpos⟩, if_pos hzero⟩

/-- What the passing of time does. -/
structure Elapses (b : Board) (elapsed : Int) (b' : Board) : Prop where
  sound : b'.Sound
  node : ∀ n, b'.graph.hasNode n = b.graph.hasNode n
  other : ∀ n, n.kind ≠ .patch .qubit →
    b'.ticksOf n = (b.ticksOf n).map (countdownAfter elapsed n)
  qubit : ∀ id,
    (∀ basis, b'.ticksOf (.qubit id basis) =
      (b.ticksOf (.qubit id basis)).map (countdownAfter elapsed (.qubit id basis))) ∨
    (b.Finishes elapsed id ∧ ∀ basis, b'.ticksOf (.qubit id basis) =
      (b.ticksOf (.qubit id basis.flipped)).map (countdownAfter elapsed (.qubit id basis)))

/-- The first part of the passing of time: the running countdowns go down. -/
theorem countDown_spec (hb : b.Sound) (elapsed : Int) :
    (b.running.foldl (fun b e => b.retime e.1 (ticksAfter elapsed e.2)) b).Sound ∧
    (b.running.foldl (fun b e => b.retime e.1 (ticksAfter elapsed e.2)) b).graph = b.graph ∧
    ∀ n, (b.running.foldl (fun b e => b.retime e.1 (ticksAfter elapsed e.2)) b).ticksOf n =
      (b.ticksOf n).map (countedDown elapsed) := by
  obtain ⟨hsound, hgraph, hin, hout⟩ := foldl_retime_spec Prod.fst
    (fun e => ticksAfter elapsed e.2) hb (nodup_running b) fun e he =>
      ⟨hb.hasNode_of_ticksOf (hb.mem_running.1 he).1, Node.means_of_nonneg (ticksAfter_nonneg _ _)⟩
  refine ⟨hsound, hgraph, fun n => ?_⟩
  by_cases hrun : n ∈ b.running.map Prod.fst
  · obtain ⟨e, he, rfl⟩ := List.mem_map.1 hrun
    obtain ⟨ht, hpos⟩ := hb.mem_running.1 he
    rw [hin e he, ht, Option.map_some, countedDown, if_pos hpos]
  · rw [hout n hrun]
    cases hn : b.ticksOf n with
    | none => rfl
    | some t =>
      rw [Option.map_some, countedDown, if_neg]
      exact fun hpos => hrun (List.mem_map.2 ⟨(n, t), hb.mem_running.2 ⟨hn, hpos⟩, rfl⟩)

/-- The storages that are joined to a zero state. -/
theorem Sound.mem_connecting (hb : b.Sound) : n ∈ b.withStatus .storage .connecting ↔
    n.kind = .patch .storage ∧ b.ticksOf n = some Phase.connectingTicks := by
  rw [hb.mem_withStatus]
  constructor
  · rintro ⟨t, ht, hs⟩
    have hkind : n.kind = .patch .storage := (Status.kind_of_ofTicks hs).symm
    refine ⟨hkind, ?_⟩
    rw [ht, Option.some_inj]
    by_contra hne
    unfold Status.ofTicks Phase.ofTicks at hs
    rw [hkind] at hs
    dsimp only at hs
    split_ifs at hs <;> cases hs
  · rintro ⟨hkind, ht⟩
    refine ⟨_, ht, ?_⟩
    unfold Status.ofTicks
    rw [hkind]
    rfl

/-- The last part of the passing of time: storages that were joined to a zero state are empty. -/
theorem emptyConnecting_spec (hb : b.Sound) :
    ((b.withStatus .storage .connecting).toList.foldl
      (fun b n => b.retime n Phase.emptyTicks) b).Sound ∧
    ((b.withStatus .storage .connecting).toList.foldl
      (fun b n => b.retime n Phase.emptyTicks) b).graph = b.graph ∧
    ∀ n, ((b.withStatus .storage .connecting).toList.foldl
      (fun b n => b.retime n Phase.emptyTicks) b).ticksOf n = (b.ticksOf n).map (emptied n.kind) := by
  have hmem : ∀ n, n ∈ (b.withStatus .storage .connecting).toList ↔
      n.kind = .patch .storage ∧ b.ticksOf n = some Phase.connectingTicks := fun n =>
    SortedSet.mem_toList.trans hb.mem_connecting
  obtain ⟨hsound, hgraph, hin, hout⟩ := foldl_retime_spec (fun n => n)
    (fun _ => Phase.emptyTicks) hb
    (by simpa using (b.withStatus .storage .connecting).nodup) fun n hn =>
      ⟨hb.hasNode_of_ticksOf ((hmem n).1 hn).2,
        Node.means_storage ((hmem n).1 hn).1 (Or.inr (Or.inr rfl))⟩
  refine ⟨hsound, hgraph, fun n => ?_⟩
  by_cases hn : n ∈ (b.withStatus .storage .connecting).toList
  · rw [hin n hn, ((hmem n).1 hn).2, Option.map_some, emptied, if_pos ⟨((hmem n).1 hn).1, rfl⟩]
  · rw [hout n (by simpa using hn)]
    cases ht : b.ticksOf n with
    | none => rfl
    | some t =>
      rw [Option.map_some, emptied, if_neg]
      rintro ⟨hkind, rfl⟩
      exact hn ((hmem n).2 ⟨hkind, ht⟩)

/-- Of the three parts of the passing of time, only the turns change the graph. -/
theorem exists_graph_elapse (hb : b.Sound) (ticks : Nat) : ∃ c : Board, c.Sound ∧ c.graph = b.graph ∧
    (b.elapse ticks).graph = ((turnsFinished (asCountdown ticks) b.running).foldl turn c).graph := by
  obtain ⟨hsound₁, hgraph₁, -⟩ := countDown_spec hb (asCountdown ticks)
  obtain ⟨hsound₂, -⟩ := foldl_turn_spec hsound₁ (turnsFinished (asCountdown ticks) b.running)
  exact ⟨_, hsound₁, hgraph₁, (emptyConnecting_spec hsound₂).2.1⟩

/-- What every turn keeps of the graph is kept when time passes. -/
theorem graph_elapse_of_turn {p : Graph Node → Prop} (hb : b.Sound) (ticks : Nat) (h : p b.graph)
    (hturn : ∀ (b : Board) (id : Nat), b.Sound → p b.graph → p (b.turn id).graph) :
    p (b.elapse ticks).graph := by
  obtain ⟨c, hc, hgraph, helapse⟩ := exists_graph_elapse hb ticks
  rw [helapse]
  exact (List.foldlRecOn (motive := fun c : Board => c.Sound ∧ p c.graph) _ turn ⟨hc, hgraph ▸ h⟩
    fun c hc id _ => ⟨hc.1.turn id, hturn c id hc.1 hc.2⟩).2

theorem elapse_spec (hb : b.Sound) (ticks : Nat) :
    b.Elapses (asCountdown ticks) (b.elapse ticks) := by
  unfold elapse
  dsimp only
  obtain ⟨hsound₁, hgraph₁, hticks₁⟩ := countDown_spec hb (asCountdown ticks)
  set b₁ := b.running.foldl (fun b e => b.retime e.1 (ticksAfter (asCountdown ticks) e.2)) b
  obtain ⟨hsound₂, hnode₂, hother₂, hqubit₂⟩ :=
    foldl_turn_spec hsound₁ (turnsFinished (asCountdown ticks) b.running)
  set b₂ := (turnsFinished (asCountdown ticks) b.running).foldl turn b₁
  obtain ⟨hsound₃, hgraph₃, hticks₃⟩ := emptyConnecting_spec hsound₂
  -- only the second part moves countdowns, and only between the boundaries of a data patch
  have hcount : ∀ n m, m.kind = n.kind → b₂.ticksOf n = b₁.ticksOf m →
      (b₂.ticksOf n).map (emptied n.kind) =
        (b.ticksOf m).map (countdownAfter (asCountdown ticks) n) := by
    intro n m hk hnm
    rw [hnm, hticks₁, Option.map_map]
    exact congrArg (Option.map · _) (funext fun t => (countdownAfter_eq_lapsed _ n t).symm)
  refine ⟨hsound₃, fun n => ?_, fun n hn => ?_, fun id => ?_⟩
  · rw [hgraph₃, hnode₂, hgraph₁]
  · rw [hticks₃]
    exact hcount n n rfl (hother₂ n hn)
  · rcases hqubit₂ id with hkeep | ⟨hmem, hswap⟩
    · refine Or.inl fun basis => ?_
      rw [hticks₃]
      exact hcount _ _ rfl (hkeep basis)
    · refine Or.inr ⟨hb.mem_turnsFinished.1 hmem, fun basis => ?_⟩
      rw [hticks₃]
      exact hcount _ _ rfl (hswap basis)

end Board

end LatticeSurgery
