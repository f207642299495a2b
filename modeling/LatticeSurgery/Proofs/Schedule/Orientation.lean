import LatticeSurgery.Proofs.Circuit.Turns
import LatticeSurgery.Proofs.Schedule.Loop
import LatticeSurgery.Proofs.Schedule.Overlap

/-!
# Patches face the bus as planned

The turns of a circuit are planned for the order of the circuit, but take place as the scheduler comes
to them, and take several ticks. In every state of a run a patch has turned as often as turns of it are
done, one that takes place apart (`Run.Oriented`). The dependency rules keep a rotation in order with
the turns of its patches, so when it can be done, its boundaries face the bus as planned
(`planned_turns_fit`).
-/

namespace LatticeSurgery

open Ordered WordSource Board

/-! ## Busy patches -/

section Busy

variable {f : Factories} {b b' : Board} {q : Nat}

/-- A tick leaves a patch busy unless it finishes turning. -/
theorem Factories.Passes.mem_busyQubits (hb : b.Sound) (hone : b.OneBusy) (h : Passes f b b') :
    q ∈ b'.busyQubits ↔ q ∈ b.busyQubits ∧ ¬ b.Finishes 1 q := by
  have hafter : ∀ basis t, countdownAfter 1 (.qubit q basis) t = if 0 < t then t - 1 else t :=
    fun basis t => countdownAfter_one (by simp [Node.kind]) t
  have hleft : q ∈ b'.busyQubits ↔
      ∃ basis t, b.ticksOf (.qubit q basis) = some t ∧ (if 0 < t then t - 1 else t) ≠ 0 := by
    rw [h.sound.mem_busyQubits]
    rcases h.qubit q with hsame | ⟨-, hswap⟩
    · simp only [hsame, Option.map_eq_some_iff, hafter]
      constructor
      · rintro ⟨basis, -, ⟨t, ht, rfl⟩, hne⟩
        exact ⟨basis, t, ht, hne⟩
      · rintro ⟨basis, t, ht, hne⟩
        exact ⟨basis, _, ⟨t, ht, rfl⟩, hne⟩
    · simp only [hswap, Option.map_eq_some_iff, hafter]
      constructor
      · rintro ⟨basis, -, ⟨t, ht, rfl⟩, hne⟩
        exact ⟨basis.flipped, t, ht, hne⟩
      · rintro ⟨basis, t, ht, hne⟩
        exact ⟨basis.flipped, _, ⟨t, by rwa [Basis.flipped_flipped], rfl⟩, hne⟩
  have hnonneg : ∀ basis t, b.ticksOf (.qubit q basis) = some t → 0 ≤ t := fun basis t ht =>
    (hb.means ht).nonneg (by simp [Node.kind]) (by simp [Node.kind])
  rw [hleft, hb.mem_busyQubits]
  constructor
  · rintro ⟨basis, t, ht, hne⟩
    have hlt : 1 < t := by
      have := hnonneg basis t ht
      split at hne <;> omega
    refine ⟨⟨basis, t, ht, by omega⟩, ?_⟩
    rintro ⟨c, t', ht', hpos, hends⟩
    unfold ticksAfter at hends
    by_cases hc : c = basis
    · rw [hc, ht] at ht'
      cases ht'
      omega
    · rw [Basis.eq_flipped hc] at ht'
      rcases hone q basis t t' ht ht' with h | h <;> omega
  · rintro ⟨⟨basis, t, ht, hne⟩, hgoes⟩
    have hpos := hnonneg basis t ht
    refine ⟨basis, t, ht, ?_⟩
    rw [if_pos (by omega)]
    intro hzero
    refine hgoes ⟨basis, t, ht, by omega, ?_⟩
    unfold ticksAfter
    omega

/-- In a tick, the boundaries of the patches that finish turning change places. -/
theorem Factories.Passes.touches (hb : b.Sound) (hlaid : b.graph.Laid) (hone : b.OneBusy)
    (h : Passes f b b') : b'.graph.Laid ∧ ∀ q basis,
      (b.Finishes 1 q →
        (b'.graph.Touches (.qubit q basis) ↔ b.graph.Touches (.qubit q basis.flipped))) ∧
      (¬ b.Finishes 1 q →
        (b'.graph.Touches (.qubit q basis) ↔ b.graph.Touches (.qubit q basis))) := by
  obtain ⟨honBus, htouches⟩ := touches_elapse hb hlaid.onBus hlaid.paired hone 1
  rw [← h.graph] at honBus htouches
  refine ⟨⟨h.sound.graph, honBus, fun id => ?_⟩, htouches⟩
  rw [h.node, h.node]
  exact hlaid.paired id

end Busy

namespace Packer.Packs

variable {turnTicks : Int} {rotations : List Rotation} {b b' : Board} {ps : List Packed} {p : Packed}
  {q : Nat}

/-- A turn is packed on a patch that is not busy, and takes one of its boundaries. -/
theorem of_turnsPatch (h : Packs turnTicks rotations b ps b') (hp : p ∈ ps)
    (hpatch : p.rotation.TurnsOnePatch) (hq : p.rotation.turnsPatch q = true) : p.Turning ∧
      (∃ basis, p.tree.contains (.qubit q basis) = true) ∧ q ∉ b.busyQubits := by
  obtain ⟨hkind, hmem⟩ := Rotation.turnsPatch_iff.1 hq
  have hturning := h.of_turn p hp hkind
  obtain ⟨-, id, hid, basis, bus, -, hnodes, hfree⟩ := h.turning p hp hturning
  obtain rfl := hpatch hkind id hid q hmem
  refine ⟨hturning, ⟨basis, (hnodes _).2 (Or.inl rfl)⟩, ?_⟩
  rw [mem_busyQubits]
  rintro ⟨basis', hbusy⟩
  exact hfree basis' hbusy

/-- The patches that are busy after packing: those that were busy, and those that are turned. -/
theorem mem_busyQubits_iff (hb : b.Sound) (h : Packs turnTicks rotations b ps b')
    (hne : turnTicks ≠ 0) (hpatch : ∀ p ∈ ps, p.rotation.TurnsOnePatch) :
    q ∈ b'.busyQubits ↔ q ∈ b.busyQubits ∨ ∃ p ∈ ps, p.rotation.turnsPatch q = true := by
  constructor
  · intro hbusy
    obtain ⟨basis, t, ht, hclosed⟩ := h.occupies.sound.mem_busyQubits.1 hbusy
    by_cases hturn : ∃ p ∈ ps, p.Turning ∧ p.tree.contains (.qubit q basis) = true
    · obtain ⟨p, hp, hturning, hcontains⟩ := hturn
      obtain ⟨hkind, id, hid, basis', bus, hbus, hnodes, -⟩ := h.turning p hp hturning
      rcases (hnodes _).1 hcontains with heq | heq
      · cases heq
        exact Or.inr ⟨p, hp, Rotation.turnsPatch_iff.2 ⟨hkind, hid⟩⟩
      · rw [← heq] at hbus
        cases hbus
    · push Not at hturn
      rw [h.data q basis fun p hp hturning => by simpa using hturn p hp hturning] at ht
      exact Or.inl (hb.mem_busyQubits.2 ⟨basis, t, ht, hclosed⟩)
  · rintro (hbusy | ⟨p, hp, hturns⟩)
    · rw [Board.mem_busyQubits] at hbusy
      obtain ⟨basis, hclosed⟩ := hbusy
      obtain ⟨t, ht, hzero⟩ := (hb.mem_unavailable_iff (by simp [Node.kind])).1 hclosed
      rw [← h.occupies.closed _ hclosed] at ht
      exact h.occupies.sound.mem_busyQubits.2 ⟨basis, t, ht, hzero⟩
    · obtain ⟨hturning, ⟨basis, hcontains⟩, -⟩ := h.of_turnsPatch hp (hpatch p hp) hturns
      exact h.occupies.sound.mem_busyQubits.2
        ⟨basis, turnTicks, h.turn hne p hp hturning _ hcontains, hne⟩

end Packer.Packs

/-! ## Turns that are done -/

/-- Of the turns of a patch, those before a rotation that can be done are done, and no others. -/
theorem Progress.Tracks.turnsOf_eq {c : Circuit} (hc : c.Numbered) {rule : DependencyRule}
    {p : Progress} {done : Finset Nat}
    (h : p.Tracks (rule.blockers c.rotations) c.rotations.length done) {i q : Nat} {r : Rotation}
    (hr : c.rotations[i]? = some r)
    (hfree : (rule.blockers c.rotations).Free c.rotations.length done i) (hq : q ∈ r.activeQubits) :
    c.turnsOf q done = c.turnsOf q (Finset.range i) := by
  unfold Circuit.turnsOf
  ext j
  rw [Finset.mem_filter, Finset.mem_filter, Finset.mem_range]
  refine and_congr_left fun hj => ?_
  obtain ⟨r', hr', hturns⟩ := (Option.any_eq_true _ _).1 hj
  rw [Rotation.turnsPatch_iff] at hturns
  have hrigid : r'.isRigid = true := by simp [Rotation.isRigid, hturns.1]
  have hmeets : r'.commutes r = false := by
    rw [Rotation.commutes_of_isRigid (Or.inl hrigid), SortedSet.disjoint_eq_false_iff]
    exact ⟨q, hturns.2, hq⟩
  constructor
  · intro hdone
    by_contra hge
    rcases Nat.lt_or_eq_of_le (Nat.le_of_not_lt hge) with hlt | rfl
    · -- a later turn that is done would have the rotation done before it
      rw [Rotation.commutes_comm] at hmeets
      exact hfree.2.1 (h.closed_chain
        (hc.chain_of_noncommuting rule hr hr' hlt hmeets) hdone)
    · exact hfree.2.1 hdone
  · intro hlt
    by_contra hleft
    exact h.not_free_of_chain
      (hc.chain_of_noncommuting rule hr' hr hlt hmeets) hleft hfree

namespace Run

variable {σ : Type} [WordSource σ] {conf : Configuration} {c : Circuit} {rng : σ} {b₀ b b' : Board}
  {done : Finset Nat} {s s' : Run σ} {ps : List Packed} {q : Nat}

omit [WordSource σ] in
theorem Ticks.mem_turnsOf (hc : c.Numbered) (ht : Ticks conf c s ps b' s') {i : Nat} :
    i ∈ c.turnsOf q (indices ps).toFinset ↔
      ∃ p ∈ ps, p.rotation.turnsPatch q = true ∧ p.rotation.index = i := by
  unfold Circuit.turnsOf
  rw [Finset.mem_filter, List.mem_toFinset, indices, List.mem_map]
  constructor
  · rintro ⟨⟨p, hp, rfl⟩, hturns⟩
    rw [(ht.mem_candidates hc hp).2] at hturns
    exact ⟨p, hp, hturns, rfl⟩
  · rintro ⟨p, hp, hturns, rfl⟩
    refine ⟨⟨p, hp, rfl⟩, ?_⟩
    rw [(ht.mem_candidates hc hp).2]
    exact hturns

/-- In a tick, a patch is turned at most once. -/
theorem Ticks.card_turnsOf (hc : c.Numbered) (hs : s.Sound conf c rng done)
    (ht : Ticks conf c s ps b' s') : (c.turnsOf q (done ∪ (indices ps).toFinset)).card =
      (c.turnsOf q done).card + if ∃ p ∈ ps, p.rotation.turnsPatch q = true then 1 else 0 := by
  have hdisjoint : Disjoint (c.turnsOf q done) (c.turnsOf q (indices ps).toFinset) :=
    Finset.disjoint_filter_filter (ht.disjoint hs hc)
  have hunion : c.turnsOf q (done ∪ (indices ps).toFinset) =
      c.turnsOf q done ∪ c.turnsOf q (indices ps).toFinset := Finset.filter_union _ _ _
  rw [hunion, Finset.card_union_of_disjoint hdisjoint]
  congr 1
  split
  · next hturn =>
    obtain ⟨p, hp, hturns⟩ := hturn
    refine Finset.card_eq_one.2 ⟨p.rotation.index, ?_⟩
    ext i
    rw [ht.mem_turnsOf hc, Finset.mem_singleton]
    constructor
    · rintro ⟨p', hp', hturns', rfl⟩
      -- two turns of a patch are not offered together
      by_contra hne
      have hapart := ht.packs.rigidApart_of_ne (hs.rigidApart_offered hc) hp hp'
        fun heq => hne (by rw [heq])
      rw [Rotation.turnsPatch_iff] at hturns hturns'
      have hrigid : p.rotation.isRigid = true := by simp [Rotation.isRigid, hturns.1]
      exact SortedSet.disjoint_iff.1 (hapart (Or.inl hrigid)) q hturns.2 hturns'.2
    · rintro rfl
      exact ⟨p, hp, hturns, rfl⟩
  · next hturn =>
    rw [Finset.card_eq_zero, Finset.eq_empty_iff_forall_notMem]
    intro i hi
    obtain ⟨p, hp, hturns, -⟩ := (ht.mem_turnsOf hc).1 hi
    exact hturn ⟨p, hp, hturns⟩

/-! ## How often a patch has turned -/

/-- Each patch has turned as often as turns of it are done, but for one that takes place. -/
structure Oriented (b₀ : Board) (c : Circuit) (done : Finset Nat) (s : Run σ) : Prop where
  oneBusy : s.board.OneBusy
  laid : s.board.graph.Laid
  turned : ∀ q, ∃ k, k + (if q ∈ s.board.busyQubits then 1 else 0) = (c.turnsOf q done).card ∧
    ∀ basis, s.board.graph.Touches (.qubit q basis) ↔
      b₀.graph.Touches (.qubit q (Basis.flipped^[k] basis))

omit [WordSource σ] in
theorem Starts.oriented (h : Starts conf b s) (hb : b.graph.Laid)
    (hzero : ∀ id basis t, b.ticksOf (.qubit id basis) = some t → t = 0) :
    s.Oriented b c ∅ := by
  have hticks : ∀ id basis t, s.board.ticksOf (.qubit id basis) = some t → t = 0 := by
    intro id basis t ht
    rw [h.setsUp.other _ (by simp [Node.kind])] at ht
    exact hzero id basis t ht
  have hgraph : s.board.graph = b.graph := h.setsUp.graph
  refine ⟨fun id basis t t' ht _ => Or.inl (hticks id basis t ht), hgraph ▸ hb, fun q => ⟨0, ?_, ?_⟩⟩
  · rw [if_neg]
    · rfl
    · rw [h.setsUp.sound.mem_busyQubits]
      rintro ⟨basis, t, ht, hne⟩
      exact hne (hticks q basis t ht)
  · intro basis
    rw [hgraph]
    rfl

section Step

variable (hc : c.Numbered) (hpatch : ∀ r ∈ c.rotations, r.TurnsOnePatch)
  (hpos : 1 ≤ conf.turnTicks) (hlt : conf.turnTicks < 2 ^ 32) (hs : s.Sound conf c rng done)
  (h : s.Oriented b₀ c done) (ht : Ticks conf c s ps b' s')

include hc hpatch hpos hlt hs h ht

theorem Oriented.step : s'.Oriented b₀ c (done ∪ (indices ps).toFinset) := by
  have hone := ht.packs.oneBusy hs.board (hs.rigidApart_offered hc) h.oneBusy
  have hsound := ht.packs.occupies.sound
  have hgraph := ht.packs.occupies.graph
  have hpatch' : ∀ p ∈ ps, p.rotation.TurnsOnePatch := fun p hp =>
    hpatch _ (List.mem_of_getElem? (ht.mem_candidates hc hp).2)
  obtain ⟨hlaid, htouches⟩ := ht.passes.touches hsound (hgraph ▸ h.laid) hone
  rw [hgraph] at htouches
  refine ⟨ht.passes.oneBusy hone, hlaid, fun q => ?_⟩
  obtain ⟨k, hcount, hturned⟩ := h.turned q
  have hbusy := ht.packs.mem_busyQubits_iff (q := q) hs.board (asCountdown_ne_zero hpos hlt) hpatch'
  have hbusy' := ht.passes.mem_busyQubits (q := q) hsound hone
  have hfree : (∃ p ∈ ps, p.rotation.turnsPatch q = true) → q ∉ s.board.busyQubits := by
    rintro ⟨p, hp, hturns⟩
    exact (ht.packs.of_turnsPatch hp (hpatch' p hp) hturns).2.2
  rw [ht.card_turnsOf hc hs, ← hcount]
  by_cases hfin : b'.Finishes 1 q
  · -- a turn ends with the tick
    have hwas : q ∈ b'.busyQubits := by
      obtain ⟨basis, t, ht, hpos, -⟩ := hfin
      exact hsound.mem_busyQubits.2 ⟨basis, t, ht, by omega⟩
    refine ⟨k + 1, ?_, fun basis => ?_⟩
    · rw [if_neg fun hnow => (hbusy'.1 hnow).2 hfin]
      rcases hbusy.1 hwas with hold | hturn
      · rw [if_pos hold, if_neg fun hturn => hfree hturn hold]
      · rw [if_neg (hfree hturn), if_pos hturn]
    · rw [(htouches q basis).1 hfin, hturned, Function.iterate_succ_apply]
  · refine ⟨k, ?_, fun basis => ?_⟩
    · by_cases hturn : ∃ p ∈ ps, p.rotation.turnsPatch q = true
      · rw [if_pos (hbusy'.2 ⟨hbusy.2 (Or.inr hturn), hfin⟩), if_neg (hfree hturn), if_pos hturn]
      · have hsame : q ∈ s'.board.busyQubits ↔ q ∈ s.board.busyQubits := by
          rw [hbusy', hbusy, or_iff_left hturn, and_iff_left hfin]
        rw [if_neg hturn]
        simp only [hsame, Nat.add_zero]
    · rw [(htouches q basis).2 hfin, hturned]

end Step

theorem Reachable.oriented (hc : c.Numbered) (hpatch : ∀ r ∈ c.rotations, r.TurnsOnePatch)
    (hb : b.Sound) (hlaid : b.graph.Laid)
    (hzero : ∀ id basis t, b.ticksOf (.qubit id basis) = some t → t = 0)
    (hpos : 1 ≤ conf.turnTicks) (hlt : conf.turnTicks < 2 ^ 32) (h : Reachable conf c b rng s) :
    ∃ done, s.Sound conf c rng done ∧ s.Logs conf c done ∧ s.Oriented b c done :=
  h.induct (fun done s => s.Logs conf c done ∧ s.Oriented b c done) hc hb
    (fun _ hstarts => ⟨hstarts.logs, hstarts.oriented hlaid hzero⟩)
    fun _ _ _ _ _ hs ⟨hl, h⟩ hleft ht hs' =>
      ⟨hl.step hc hs hleft ht hs', h.step hc hpatch hpos hlt hs ht⟩

/-! ## Rotations that can be done -/

/-- The rotation is not entered yet, and all of its blockers are. -/
structure Unblocked (conf : Configuration) (c : Circuit) (s : Run σ) (i : Nat) : Prop where
  left : ∀ t, ¬ DoneAt s.log t i
  blockers : ∀ j, (Progress.ofCircuit c conf.dependencyRule).blockers.Blocks j i →
    ∃ t, DoneAt s.log t j

omit [WordSource σ] in
theorem Logs.free_iff (h : s.Logs conf c done) {i : Nat} (hi : i < c.rotations.length) :
    (conf.dependencyRule.blockers c.rotations).Free c.rotations.length done i ↔
      s.Unblocked conf c i := by
  have hdone : ∀ j, (∃ t, DoneAt s.log t j) ↔ j ∈ done := by
    intro j
    constructor
    · rintro ⟨t, hj⟩
      exact (h.mem_of_doneAt hj).1
    · intro hj
      obtain ⟨t, ht, -⟩ := h.exists_doneAt hj
      exact ⟨t, ht⟩
  constructor
  · rintro ⟨-, hleft, hblockers⟩
    refine ⟨fun t ht => hleft ((hdone i).1 ⟨t, ht⟩), fun j hj => ?_⟩
    exact (hdone j).2 (hblockers j (Progress.blocks_ofCircuit.1 hj))
  · rintro ⟨hleft, hblockers⟩
    refine ⟨hi, fun hmem => ?_, fun j hj => ?_⟩
    · obtain ⟨t, ht⟩ := (hdone i).2 hmem
      exact hleft t ht
    · exact (hdone j).1 (hblockers j (Progress.blocks_ofCircuit.2 hj))

/-- When a rotation can be done, its patches face the bus as they do at its place of the circuit. -/
theorem Oriented.degree_pos (hb : b.Sound) (hc : c.Numbered) (hs : s.Sound conf c rng done)
    (h : s.Oriented b c done) {i : Nat} {r : Rotation} (hr : c.rotations[i]? = some r)
    (hfree : (conf.dependencyRule.blockers c.rotations).Free c.rotations.length done i)
    (hq : q ∈ r.activeQubits) (hidle : q ∉ s.board.busyQubits) {f : Facing}
    (hf : b.facings.get? q = some f) {basis : Basis}
    (hshows : (Facing.flipped^[(c.turnsOf q (Finset.range i)).card] f).shows basis = true) :
    0 < s.board.graph.degree (.qubit q basis) := by
  obtain ⟨k, hcount, hturned⟩ := h.turned q
  rw [if_neg hidle, Nat.add_zero, hs.tracks.turnsOf_eq hc hr hfree hq] at hcount
  rw [← hcount, Facing.shows_iterate, Board.shows_of_facings hb hf, ← hturned] at hshows
  exact hs.board.graph.touches_iff.1 hshows

/-- The candidates are the rotations that can be done. -/
theorem Reachable.mem_candidates_iff (hc : c.Numbered) (hb : b.Sound)
    (h : Reachable conf c b rng s) {i : Nat} (hi : i < c.rotations.length) :
    i ∈ s.candidates ↔ s.Unblocked conf c i := by
  obtain ⟨done, hs, hlogs⟩ := h.logs hc hb
  rw [hs.candidates, hlogs.free_iff hi]

end Run

/-- When the turns that a circuit needs are put into it for the boundaries that face the bus at the
start, every rotation that could be done next, on patches that are not busy, finds its boundaries at
the bus, and every turn the other boundary. -/
theorem planned_turns_fit {σ : Type} [WordSource σ] (rng : σ) {l : Layout} {b₀ b : Board}
    (hlayout : Board.ofLayout l = .ok b₀) {unused : List Node}
    (hunused : ∀ id, .qubit id .X ∈ unused ↔ .qubit id .Z ∈ unused)
    (hb : b = b₀.removeNodes unused) {c d : Circuit} (hc : c.Unturned b.facings.get?)
    (hd : d = c.withTurns b.facings) {conf : Configuration} (hpos : 1 ≤ conf.turnTicks)
    (hlt : conf.turnTicks < 2 ^ 32) {s : Run σ} (hs : Run.Reachable conf d b rng s) {i : Nat}
    {r : Rotation} (hr : d.rotations[i]? = some r) (hwait : s.Unblocked conf d i)
    (hidle : ∀ q ∈ r.activeQubits, q ∉ s.board.busyQubits) :
    (r.kind ≠ .turn → ∀ n ∈ r.activeNodes, b.facings.contains n.id = true →
      0 < s.board.graph.degree n) ∧
    (r.kind = .turn → ∃ target, (∀ n, n ∈ r.activeNodes ↔ n = target) ∧
      0 < s.board.graph.degree target.opposite) := by
  subst hb hd
  have hsound := (Board.ofLayout_spec hlayout).1.removeNodes unused
  have hlaid := Board.laid_removeNodes (Board.laid_ofLayout hlayout) hunused
  set b := b₀.removeNodes unused
  set d := c.withTurns b.facings
  have hnumbered : d.Numbered := Circuit.numbered_withTurns c b.facings
  obtain ⟨done, hs, hlogs, horiented⟩ :=
    hs.oriented hnumbered (fun _ => Circuit.turnsOnePatch_withTurns hc) hsound hlaid
      (fun _ _ _ => Board.ticksOf_qubit_of_ofLayout hlayout) hpos hlt
  have hfree := (hlogs.free_iff (List.getElem?_eq_some_iff.1 hr).1).2 hwait
  have hsuits := Circuit.suits_withTurns hc hr
  refine ⟨fun hkind n hn hentry => ?_, fun hkind => ?_⟩
  · obtain ⟨q, basis, rfl, hq⟩ := Rotation.exists_of_mem_activeNodes hn
    obtain ⟨f, hf⟩ := Option.isSome_iff_exists.1 hentry
    refine horiented.degree_pos hsound hnumbered hs hr hfree hq (hidle q hq) hf
      (hsuits.shown hkind q basis _ hn ?_)
    exact Option.map_eq_some_iff.2 ⟨f, hf, rfl⟩
  · obtain ⟨q, basis, now, hnodes, hnow, hshows⟩ := hsuits.turn hkind
    obtain ⟨f, hf, rfl⟩ := Option.map_eq_some_iff.1 hnow
    have hq : q ∈ r.activeQubits := Rotation.id_mem_activeQubits ((hnodes _).2 rfl)
    exact ⟨.qubit q basis, hnodes,
      horiented.degree_pos hsound hnumbered hs hr hfree hq (hidle q hq) hf hshows⟩

/-- The second patch as X is measured together with the first one as Z. -/
def jointCircuit : Circuit :=
  Circuit.ofRotations "joint"
    [⟨0, .measurement, .plus, SortedSet.ofList [1], ∅, SortedSet.ofList [0]⟩] 2

theorem jointCircuit_unturned (facing : Nat → Option Facing) : jointCircuit.Unturned facing := by
  refine ⟨fun r hr => ?_, fun r hr q => ?_, fun r hr q hx hz => ?_⟩ <;>
    obtain rfl := List.mem_singleton.1 hr
  · decide
  · exact SortedSet.not_mem_empty q
  · simp at hx hz
    omega

/-- The states in which the first four ticks begin when the circuit is scheduled in the row. -/
def jointTicks : List (Run CyclicWords) :=
  match Board.ofLayout rowLayout with
  | .error _ => []
  | .ok b =>
    match Run.start {} (jointCircuit.withTurns b.facings) b ⟨[0], 0⟩ with
    | .error _ => []
    | .ok s => Run.tickStarts {} (jointCircuit.withTurns b.facings) 4 s

theorem reachable_of_mem_jointTicks {b : Board} (hb : Board.ofLayout rowLayout = .ok b)
    {s : Run CyclicWords} (hs : s ∈ jointTicks) :
    Run.Reachable {} (jointCircuit.withTurns b.facings) b (⟨[0], 0⟩ : CyclicWords) s := by
  unfold jointTicks at hs
  rw [hb] at hs
  dsimp only at hs
  split at hs
  · cases hs
  · next s₀ hs₀ => exact (Run.Reachable.start hs₀).of_mem_tickStarts hs

/-- The Z boundary of the first patch is away from the bus at the start, and at the bus when the
measurement can be done. -/
theorem jointCircuit_turn_fits : ∃ b s, Board.ofLayout rowLayout = .ok b ∧
    Run.Reachable {} (jointCircuit.withTurns b.facings) b (⟨[0], 0⟩ : CyclicWords) s ∧
      b.graph.degree (.qubit 0 .Z) = 0 ∧ 0 < s.board.graph.degree (.qubit 0 .Z) := by
  obtain ⟨b, hb⟩ : ∃ b, Board.ofLayout rowLayout = .ok b := ⟨_, rfl⟩
  have hstart : (Board.ofLayout rowLayout).toOption.any (fun b =>
      decide (b.graph.degree (.qubit 0 .Z) = 0) && b.facings.contains 0 &&
        decide ((jointCircuit.withTurns b.facings).rotations[1]? =
          some ⟨1, .measurement, .plus, SortedSet.ofList [1], ∅, SortedSet.ofList [0]⟩)) = true := by
    decide +kernel
  have hready : jointTicks.any (fun s => s.candidates.contains 1 &&
      !s.board.busyQubits.contains 0 && !s.board.busyQubits.contains 1) = true := by decide +kernel
  rw [hb] at hstart
  simp only [Except.toOption, Option.any_some, Bool.and_eq_true, decide_eq_true_eq] at hstart
  obtain ⟨⟨haway, hentry⟩, hr⟩ := hstart
  obtain ⟨s, hs, hready⟩ := List.any_eq_true.1 hready
  simp only [Bool.and_eq_true, Bool.not_eq_true', SortedSet.contains_iff,
    ← Bool.not_eq_true] at hready
  obtain ⟨⟨hcandidate, hfirst⟩, hsecond⟩ := hready
  have hreach := reachable_of_mem_jointTicks hb hs
  have hwait := (hreach.mem_candidates_iff (Circuit.numbered_withTurns _ _)
    (Board.ofLayout_spec hb).1 (List.getElem?_eq_some_iff.1 hr).1).1 hcandidate
  have hwhole : ∀ id, Node.qubit id .X ∈ ([] : List Node) ↔ Node.qubit id .Z ∈ [] := by simp
  have hfit := planned_turns_fit (⟨[0], 0⟩ : CyclicWords) hb hwhole rfl
    (jointCircuit_unturned _) rfl (by decide) (by decide) hreach hr hwait ?_
  · refine ⟨b, s, hb, hreach, haway, hfit.1 (by decide) (.qubit 0 .Z) ?_ hentry⟩
    decide
  · intro q hq
    simp [Rotation.activeQubits] at hq
    rcases hq with rfl | rfl
    · exact hsecond
    · exact hfirst

end LatticeSurgery
