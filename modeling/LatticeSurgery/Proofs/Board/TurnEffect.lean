import LatticeSurgery.Proofs.Board.Ports
import Mathlib.Algebra.GroupWithZero.Nat

/-!
# When a turn takes effect

A turn is nothing but a countdown on one boundary of a patch. When it runs out, the edges of the two
boundaries are exchanged (`Board.adj_elapse`); before that and afterwards they stay what they are,
however the time is split and whatever happens elsewhere on the board (`Board.Waits.midTurn`). A
countdown that begins with zero does not run out, so a turn without a duration exchanges nothing.
-/

namespace LatticeSurgery

open Ordered LatticeSurgery.Graph

namespace Board

variable {b b' b'' : Board} {id i : Nat} {n : Node} {basis c : Basis}

/-! ## The edges of a patch -/

theorem CanTurn.congr (h : b.CanTurn id)
    (hnode : ∀ n, b'.graph.hasNode n = b.graph.hasNode n) : b'.CanTurn id := by
  unfold CanTurn
  rw [hnode, hnode]
  exact h

theorem turned_qubit_eq (i id : Nat) (basis : Basis) :
    turned i (.qubit id basis) = .qubit id (if i = id then basis.flipped else basis) := by
  by_cases hid : i = id
  · subst hid
    rw [turned_qubit, if_pos rfl]
  · rw [turned_of_ne (by simp [Ne.symm hid]) (by simp [Ne.symm hid]), if_neg hid]

/-- Turning a patch exchanges the neighbours of its own boundaries and of no others. -/
theorem adj_qubit_turn (hb : b.graph.WellFormed) (hbus : b.graph.OnBus) (h : b.CanTurn i) :
    (b.turn i).graph.Adj (.qubit id basis) n ↔
      b.graph.Adj (.qubit id (if i = id then basis.flipped else basis)) n := by
  rw [adj_turn hb hbus h, turned_qubit_eq]
  by_cases hn : ∃ id' c, n = .qubit id' c
  · -- boundaries are not joined to each other
    obtain ⟨id', c, rfl⟩ := hn
    rw [turned_qubit_eq]
    exact iff_of_false (hbus.not_adj_qubit _ _ _ _) (hbus.not_adj_qubit _ _ _ _)
  · push Not at hn
    rw [turned_of_ne (hn i .X) (hn i .Z)]

/-- Turning patches one after the other exchanges the neighbours of a patch as often as it is turned. -/
theorem adj_foldl_turn {ids : List Nat} (hb : b.Sound) (hbus : b.graph.OnBus) (h : b.CanTurn id) :
    (ids.foldl turn b).graph.Adj (.qubit id basis) n ↔
      b.graph.Adj (.qubit id (Basis.flipped^[ids.count id] basis)) n := by
  induction ids generalizing b with
  | nil => rfl
  | cons i ids ih =>
    rw [List.foldl_cons, List.count_cons]
    by_cases hi : b.CanTurn i
    · obtain ⟨hsound, hnode, -⟩ := turn_spec hb hi
      rw [ih hsound (onBus_turn hb.graph hbus i) (h.congr hnode), adj_qubit_turn hb.graph hbus hi]
      by_cases hid : i = id
      · simp [hid, Function.iterate_succ_apply']
      · simp [hid]
    · have hid : i ≠ id := by
        rintro rfl
        exact hi h
      rw [turn_of_not_canTurn hi, ih hb hbus h]
      simp [hid]

/-! ## How often a patch turns -/

/-- The countdown of a node runs out. -/
def runsOut (b : Board) (elapsed : Int) (n : Node) : Bool :=
  (b.ticksOf n).any fun t => decide (0 < t ∧ ticksAfter elapsed t = 0)

theorem Sound.countP_running (hb : b.Sound) (elapsed : Int) (n : Node) :
    (b.running.countP fun e => decide (e.1 = n ∧ ticksAfter elapsed e.2 = 0)) =
      (b.runsOut elapsed n).toNat := by
  unfold runsOut
  cases hn : b.ticksOf n with
  | none =>
    refine List.countP_eq_zero.2 fun e he hend => ?_
    obtain ⟨rfl, -⟩ := of_decide_eq_true hend
    cases hn.symm.trans (hb.mem_running.1 he).1
  | some t =>
    have hentry : ∀ e ∈ b.running, e.1 = n → e = (n, t) := by
      rintro ⟨m, u⟩ he rfl
      cases hn.symm.trans (hb.mem_running.1 he).1
      rfl
    rw [Option.any_some]
    by_cases hend : 0 < t ∧ ticksAfter elapsed t = 0
    · have hmem : (n, t) ∈ b.running := hb.mem_running.2 ⟨hn, hend.1⟩
      have hcount : b.running.count (n, t) = 1 :=
        List.count_eq_one_of_mem (List.Nodup.of_map _ (nodup_running b)) hmem
      rw [decide_eq_true hend, Bool.toNat_true, ← hcount]
      refine List.countP_congr fun e he => ?_
      rw [decide_eq_true_eq, beq_iff_eq]
      refine ⟨fun h => hentry e he h.1, ?_⟩
      rintro rfl
      exact ⟨rfl, hend.2⟩
    · rw [decide_eq_false hend, Bool.toNat_false]
      refine List.countP_eq_zero.2 fun e he hdone => hend ?_
      obtain ⟨hfirst, hzero⟩ := of_decide_eq_true hdone
      obtain rfl := hentry e he hfirst
      exact ⟨(hb.mem_running.1 he).2, hzero⟩

theorem count_turnsFinished_eq_countP (elapsed : Int) (l : List (Node × Int)) (id : Nat) :
    (turnsFinished elapsed l).count id =
      l.countP fun e => decide ((e.1 = .qubit id .X ∨ e.1 = .qubit id .Z) ∧
        ticksAfter elapsed e.2 = 0) := by
  unfold turnsFinished
  rw [List.count_filterMap]
  refine List.countP_congr fun e he => ?_
  clear he
  obtain ⟨n, t⟩ := e
  rw [beq_iff_eq, decide_eq_true_eq]
  dsimp only
  split
  · next i basis => cases basis <;> simp [and_comm]
  · next hn =>
    refine iff_of_false (by simp) ?_
    rintro ⟨rfl | rfl, -⟩
    · exact hn id .X rfl
    · exact hn id .Z rfl

/-- A patch finishes turning once for each of its boundaries whose countdown runs out. -/
theorem Sound.count_turnsFinished (hb : b.Sound) (elapsed : Int) (id : Nat) :
    (turnsFinished elapsed b.running).count id =
      (b.runsOut elapsed (.qubit id .X)).toNat + (b.runsOut elapsed (.qubit id .Z)).toNat := by
  rw [← hb.countP_running, ← hb.countP_running, count_turnsFinished_eq_countP,
    List.countP_eq_countP_filter_add _ _ fun e => decide (e.1 = .qubit id .X), List.countP_filter,
    List.countP_filter]
  refine congrArg₂ (· + ·) (List.countP_congr fun e _ => ?_) (List.countP_congr fun e _ => ?_)
  · simp only [Bool.and_eq_true, decide_eq_true_eq]
    tauto
  · simp only [Bool.and_eq_true, Bool.not_eq_true', decide_eq_false_iff_not, decide_eq_true_eq]
    have hne : e.1 = .qubit id .Z → e.1 ≠ .qubit id .X := by
      rintro h
      simp [h]
    tauto

/-- A patch with an idle boundary finishes turning once at most. -/
theorem Sound.count_turnsFinished_le (hb : b.Sound) (hidle : b.ticksOf (.qubit id c) = some 0)
    (elapsed : Int) : (turnsFinished elapsed b.running).count id ≤ 1 := by
  have hnot : b.runsOut elapsed (.qubit id c) = false := by simp [runsOut, hidle]
  rw [hb.count_turnsFinished]
  cases c
  · rw [hnot, Bool.toNat_false, Nat.zero_add]
    exact Bool.toNat_le _
  · rw [hnot, Bool.toNat_false, Nat.add_zero]
    exact Bool.toNat_le _

/-! ## The passing of time -/

/-- A patch with an idle boundary is turned when the countdown of the other boundary runs out, and
only then. -/
theorem adj_elapse (hb : b.Sound) (hbus : b.graph.OnBus) (h : b.CanTurn id)
    (hidle : b.ticksOf (.qubit id c) = some 0) (ticks : Nat) :
    (b.Finishes (asCountdown ticks) id →
      ((b.elapse ticks).graph.Adj (.qubit id basis) n ↔ b.graph.Adj (.qubit id basis.flipped) n)) ∧
    (¬ b.Finishes (asCountdown ticks) id →
      ((b.elapse ticks).graph.Adj (.qubit id basis) n ↔ b.graph.Adj (.qubit id basis) n)) := by
  have hfinished : id ∈ turnsFinished (asCountdown ticks) b.running ↔
      b.Finishes (asCountdown ticks) id := hb.mem_turnsFinished
  have hcount := hb.count_turnsFinished_le hidle (asCountdown ticks)
  obtain ⟨b₁, hsound₁, hgraph₁, helapse⟩ := exists_graph_elapse hb ticks
  set ids := turnsFinished (asCountdown ticks) b.running
  have hcan : b₁.CanTurn id := h.congr fun n => by rw [hgraph₁]
  rw [helapse, adj_foldl_turn hsound₁ (by rwa [hgraph₁]) hcan, hgraph₁, ← hfinished]
  refine ⟨fun hmem => ?_, fun hmem => ?_⟩
  · have hone : ids.count id = 1 := le_antisymm hcount (List.count_pos_iff.2 hmem)
    rw [hone, Function.iterate_one]
  · rw [List.count_eq_zero_of_not_mem hmem]
    rfl

/-- A countdown that is not below zero goes down to zero. -/
theorem map_countdownAfter {t elapsed : Int} (hn : n.kind ≠ .patch .storage) (ht : 0 ≤ t)
    (helapsed : 0 ≤ elapsed) :
    (some t).map (countdownAfter elapsed n) = some (ticksAfter elapsed t) := by
  rw [Option.map_some, countdownAfter, if_neg fun h => hn h.1, Option.some_inj]
  unfold ticksAfter
  split <;> omega

theorem ticksAfter_add {t : Int} {s elapsed : Int} (h : 0 ≤ elapsed) :
    ticksAfter elapsed (ticksAfter s t) = ticksAfter (s + elapsed) t := by
  unfold ticksAfter
  omega

/-- Time passes on a board, and in between other things are done there that leave the edges and the
countdowns of the given nodes alone. The time that passed is listed. -/
inductive Waits (own : List Node) (b : Board) : List Nat → Board → Prop
  /-- Nothing happened. -/
  | refl : Waits own b [] b
  /-- Time passes. -/
  | elapse {ts : List Nat} {b' : Board} (ticks : Nat) (h : Waits own b ts b') :
    Waits own b (ts ++ [ticks]) (b'.elapse ticks)
  /-- Something is done elsewhere. -/
  | change {ts : List Nat} {b' b'' : Board} (h : Waits own b ts b') (hsound : b''.Sound)
    (hgraph : b''.graph = b'.graph) (hown : ∀ n ∈ own, b''.ticksOf n = b'.ticksOf n) :
    Waits own b ts b''

variable {own : List Node} {ts : List Nat} {turnTicks : Int} {elapsed : Nat}

theorem Waits.sound (hb : b.Sound) (h : b.Waits own ts b') : b'.Sound := by
  induction h with
  | refl => exact hb
  | elapse ticks _ ih => exact (elapse_spec ih ticks).sound
  | change _ hsound _ _ _ => exact hsound

/-- A bus tile that is left alone counts down to zero. -/
theorem Waits.ticksOf_bus (hb : b.Sound) (h : b.Waits own ts b') (hts : ∀ t ∈ ts, t < 2 ^ 31)
    (hn : n.kind = .bus) (hown : n ∈ own) {t : Int} (ht : b.ticksOf n = some t) :
    b'.ticksOf n = some (ticksAfter ts.sum t) := by
  have hnonneg : 0 ≤ t := (hb.means ht).nonneg (by simp [hn]) (by simp [hn])
  induction h with
  | refl =>
    rw [ht, Option.some_inj, List.sum_nil, ticksAfter]
    omega
  | @elapse ts b' ticks h ih =>
    have hticks := asCountdown_of_lt (hts ticks (List.mem_append_right _ (List.mem_singleton_self _)))
    rw [(elapse_spec (h.sound hb) ticks).other n (by simp [hn]),
      ih fun t ht => hts t (List.mem_append_left _ ht), hticks,
      map_countdownAfter (by simp [hn]) (ticksAfter_nonneg _ _) (by omega),
      ticksAfter_add (by omega), List.sum_append, List.sum_singleton, Int.natCast_add]
  | change _ _ _ hsame ih => rw [hsame n hown, ih hts]

/-- A board on which a patch has been turning for some time, compared with the board `b` on which the
turn began: until the time is up, the boundary opposite to `c` counts down and the neighbours of both
boundaries are the old ones. From then on they are exchanged, once, and the patch is idle. -/
structure MidTurn (b : Board) (id : Nat) (c : Basis) (turnTicks : Int) (elapsed : Nat) (b' : Board) :
    Prop where
  sound : b'.Sound
  ported : b'.graph.Ported
  canTurn : b'.CanTurn id
  during : elapsed < turnTicks →
    (∀ basis n, b'.graph.Adj (.qubit id basis) n ↔ b.graph.Adj (.qubit id basis) n) ∧
    b'.ticksOf (.qubit id c) = some 0 ∧
    b'.ticksOf (.qubit id c.flipped) = some (turnTicks - elapsed)
  after : turnTicks ≤ elapsed →
    (∀ basis n, b'.graph.Adj (.qubit id basis) n ↔
      b.graph.Adj (.qubit id (if turnTicks = 0 then basis else basis.flipped)) n) ∧
    ∀ basis, b'.ticksOf (.qubit id basis) = some 0

/-- What is done elsewhere does not matter to a turn. -/
theorem MidTurn.change (h : b.MidTurn id c turnTicks elapsed b') (hsound : b''.Sound)
    (hgraph : b''.graph = b'.graph)
    (hticks : ∀ basis, b''.ticksOf (.qubit id basis) = b'.ticksOf (.qubit id basis)) :
    b.MidTurn id c turnTicks elapsed b'' := by
  refine ⟨hsound, hgraph ▸ h.ported, h.canTurn.congr fun n => by rw [hgraph], fun hlt => ?_,
    fun hle => ?_⟩
  · rw [hgraph, hticks, hticks]
    exact h.during hlt
  · obtain ⟨hadj, hzero⟩ := h.after hle
    refine ⟨by rwa [hgraph], fun basis => ?_⟩
    rw [hticks, hzero]

/-- One of the boundaries is idle all the time. -/
theorem MidTurn.idle (h : b.MidTurn id c turnTicks elapsed b') : b'.ticksOf (.qubit id c) = some 0 := by
  by_cases hlt : elapsed < turnTicks
  · exact (h.during hlt).2.1
  · exact (h.after (by omega)).2 c

/-- The time that passes is up for a turn when its countdown runs out. -/
theorem MidTurn.finishes_iff (h : b.MidTurn id c turnTicks elapsed b') {ticks : Nat} :
    b'.Finishes ticks id ↔ elapsed < turnTicks ∧ turnTicks ≤ elapsed + ticks := by
  constructor
  · rintro ⟨basis, t, ht, hpos, hends⟩
    have hlt : elapsed < turnTicks := by
      by_contra hle
      cases ht.symm.trans ((h.after (by omega)).2 basis)
      omega
    obtain ⟨-, hidle, hturning⟩ := h.during hlt
    refine ⟨hlt, ?_⟩
    by_cases hbasis : basis = c
    · cases ht.symm.trans (hbasis ▸ hidle)
      omega
    · cases ht.symm.trans (Basis.eq_flipped hbasis ▸ hturning)
      unfold ticksAfter at hends
      omega
  · rintro ⟨hlt, hle⟩
    refine ⟨c.flipped, _, (h.during hlt).2.2, by omega, ?_⟩
    unfold ticksAfter
    omega

/-- A turn that is not over counts down. -/
theorem MidTurn.ticksOf_elapse_of_lt (h : b.MidTurn id c turnTicks elapsed b') {ticks : Nat}
    (hticks : ticks < 2 ^ 31) (hlt : (elapsed + ticks : Nat) < turnTicks) :
    (b'.elapse ticks).ticksOf (.qubit id c) = some 0 ∧
      (b'.elapse ticks).ticksOf (.qubit id c.flipped) = some (turnTicks - (elapsed + ticks : Nat)) := by
  obtain ⟨-, hidle, hturning⟩ := h.during (by omega)
  have hkeep := ((elapse_spec h.sound ticks).qubit id).resolve_right fun hswap => by
    have hends := hswap.1
    rw [asCountdown_of_lt hticks, h.finishes_iff] at hends
    omega
  rw [asCountdown_of_lt hticks] at hkeep
  constructor
  · rw [hkeep, hidle, map_countdownAfter (by simp [Node.kind]) (by omega) (by omega), Option.some_inj]
    unfold ticksAfter
    omega
  · rw [hkeep, hturning, map_countdownAfter (by simp [Node.kind]) (by omega) (by omega),
      Option.some_inj]
    unfold ticksAfter
    omega

/-- When the time of a turn is up, both boundaries are idle, whether or not they change places. -/
theorem MidTurn.ticksOf_elapse_of_le (h : b.MidTurn id c turnTicks elapsed b') {ticks : Nat}
    (hticks : ticks < 2 ^ 31) (hle : turnTicks ≤ (elapsed + ticks : Nat)) (basis : Basis) :
    (b'.elapse ticks).ticksOf (.qubit id basis) = some 0 := by
  have hsmall : ∀ basis, ∃ t, b'.ticksOf (.qubit id basis) = some t ∧ 0 ≤ t ∧ t ≤ ticks := by
    intro basis
    by_cases hlt : elapsed < turnTicks
    · obtain ⟨-, hidle, hturning⟩ := h.during hlt
      by_cases hbasis : basis = c
      · exact ⟨0, hbasis ▸ hidle, by omega, by omega⟩
      · exact ⟨_, Basis.eq_flipped hbasis ▸ hturning, by omega, by omega⟩
    · exact ⟨0, (h.after (by omega)).2 basis, by omega, by omega⟩
  have hzero : ∀ basis', (b'.ticksOf (.qubit id basis')).map
      (countdownAfter (asCountdown ticks) (.qubit id basis)) = some 0 := by
    intro basis'
    obtain ⟨t, ht, hnonneg, hdone⟩ := hsmall basis'
    rw [ht, asCountdown_of_lt hticks, map_countdownAfter (by simp [Node.kind]) hnonneg (by omega),
      Option.some_inj]
    unfold ticksAfter
    omega
  rcases (elapse_spec h.sound ticks).qubit id with hkeep | ⟨-, hswap⟩
  · rw [hkeep, hzero]
  · rw [hswap, hzero]

/-- A turn goes on when time passes. -/
theorem MidTurn.elapse (h : b.MidTurn id c turnTicks elapsed b') {ticks : Nat}
    (hticks : ticks < 2 ^ 31) :
    b.MidTurn id c turnTicks (elapsed + ticks) (b'.elapse ticks) := by
  have helapses := elapse_spec h.sound ticks
  have hadj := fun basis n =>
    @adj_elapse b' id n basis c h.sound h.ported.onBus h.canTurn h.idle ticks
  rw [asCountdown_of_lt hticks, h.finishes_iff] at hadj
  refine ⟨helapses.sound, ported_elapse h.sound h.ported ticks, h.canTurn.congr helapses.node,
    fun hlt => ?_, fun hle => ?_⟩
  · refine ⟨fun basis n => ?_, h.ticksOf_elapse_of_lt hticks hlt⟩
    rw [(hadj basis n).2 (by omega), (h.during (by omega)).1]
  · refine ⟨fun basis n => ?_, h.ticksOf_elapse_of_le hticks hle⟩
    by_cases hlt : elapsed < turnTicks
    · -- this is when the boundaries change places
      rw [(hadj basis n).1 (by omega), (h.during hlt).1, if_neg (by omega)]
    · rw [(hadj basis n).2 (by omega), (h.after (by omega)).1]

/-- A turn takes its course, however the time is split. -/
theorem Waits.midTurn (h : b.Waits own ts b') (hts : ∀ t ∈ ts, t < 2 ^ 31)
    (hown : ∀ basis, .qubit id basis ∈ own) (hbegins : b.MidTurn id c turnTicks 0 b) :
    b.MidTurn id c turnTicks ts.sum b' := by
  induction h with
  | refl => exact hbegins
  | elapse ticks _ ih =>
    rw [List.sum_append, List.sum_singleton]
    exact (ih fun t ht => hts t (List.mem_append_left _ ht)).elapse
      (hts _ (List.mem_append_right _ (List.mem_singleton_self _)))
  | change _ hsound hgraph hsame ih =>
    exact (ih hts).change hsound hgraph fun basis => hsame _ (hown basis)

end Board

end LatticeSurgery
