import LatticeSurgery.Proofs.Schedule.Completeness

/-!
# Trees do not overlap

The trees of a tick do not meet, and the two nodes of a turn are in no other tree until the turn is
over (`NoOverlap`). The countdowns of these nodes say how long the turn still takes. They stay where
they are, because a patch exchanges its boundaries only when the countdown of one of them runs out,
and at most one of them has a countdown (`Board.OneBusy`).
-/

namespace LatticeSurgery

open Ordered WordSource Board

/-- The trees of a tick do not meet. A turn takes a boundary of a data patch and a bus tile, which are
in no other tree from its tick until the given number of ticks has passed. -/
structure NoOverlap (turnTicks : Nat) (ticks : SortedMap Nat (List Packed)) : Prop where
  /-- The trees of a tick do not meet. -/
  apart : ∀ t ps, ticks.get? t = some ps → ps.Pairwise Packed.Apart
  /-- The two nodes of a turn. -/
  nodes : ∀ t p, Enters ticks t p → p.rotation.kind = .turn → ∃ id basis bus, bus.isBus = true ∧
    ∀ n, p.tree.contains n = true ↔ n = .qubit id basis ∨ n = bus
  /-- While a turn takes place, no other tree meets its nodes. -/
  turn : ∀ t p, Enters ticks t p → p.rotation.kind = .turn →
    ∀ u q, Enters ticks u q → t ≤ u → u < t + turnTicks → (u, q) ≠ (t, p) → p.Apart q

/-- The nodes of a turn are a boundary of a data patch and a bus tile. -/
theorem NoOverlap.kind_of_turn {turnTicks : Nat} {ticks : SortedMap Nat (List Packed)}
    (h : NoOverlap turnTicks ticks) {t : Nat} {p : Packed} (hp : Enters ticks t p)
    (hk : p.rotation.kind = .turn) {n : Node} (hn : p.tree.contains n = true) :
    n.kind = .patch .qubit ∨ n.kind = .bus := by
  obtain ⟨id, basis, bus, hbus, hnodes⟩ := h.nodes t p hp hk
  rcases (hnodes n).1 hn with rfl | rfl
  · exact Or.inl rfl
  · cases n with
    | bus i => exact Or.inr rfl
    | boundary k i c => cases hbus

theorem asCountdown_ne_zero {n : Nat} (hpos : 1 ≤ n) (hn : n < 2 ^ 32) : asCountdown n ≠ 0 := by
  by_cases h : n < 2 ^ 31
  · rw [asCountdown_of_lt h]
    omega
  · rw [asCountdown_of_ge (by omega) hn]
    omega

/-- A countdown that is not negative is the number of ticks. -/
theorem asCountdown_of_nonneg {n : Nat} (hn : n < 2 ^ 32) (h : 0 ≤ asCountdown n) :
    asCountdown n = n := by
  by_cases hlt : n < 2 ^ 31
  · exact asCountdown_of_lt hlt
  · rw [asCountdown_of_ge (by omega) hn] at h
    omega

/-! ## Busy patches -/

namespace Factories

variable {f : Factories} {b b' : Board} {n : Node} {t : Int}

/-- A tick leaves at most one boundary of a patch busy. -/
theorem Passes.oneBusy (hone : b.OneBusy) (h : Passes f b b') : b'.OneBusy := by
  have hzero : ∀ id basis, countdownAfter 1 (.qubit id basis) 0 = 0 := fun id basis => by
    rw [countdownAfter_one (by simp [Node.kind]), if_neg (by omega)]
  intro id basis t t' ht ht'
  rcases h.qubit id with hsame | ⟨-, hswap⟩
  · rw [hsame, Option.map_eq_some_iff] at ht ht'
    obtain ⟨u, hu, rfl⟩ := ht
    obtain ⟨u', hu', rfl⟩ := ht'
    rcases hone id basis u u' hu hu' with rfl | rfl
    · exact Or.inl (hzero id _)
    · exact Or.inr (hzero id _)
  · rw [hswap, Option.map_eq_some_iff] at ht ht'
    obtain ⟨u, hu, rfl⟩ := ht
    obtain ⟨u', hu', rfl⟩ := ht'
    rcases hone id basis.flipped u u' hu hu' with rfl | rfl
    · exact Or.inl (hzero id _)
    · exact Or.inr (hzero id _)

/-- A node of a turn that goes on counts down. -/
theorem Passes.ticksOf_of_turn (hf : Placed b f.groups) (hone : b.OneBusy) (h : Passes f b b')
    (hk : n.kind = .patch .qubit ∨ n.kind = .bus) (ht : b.ticksOf n = some t) (hlt : 1 < t) :
    b'.ticksOf n = some (t - 1) := by
  have hstorage : n.kind ≠ .patch .storage := by rcases hk with hk | hk <;> simp [hk]
  have hafter : (b.ticksOf n).map (countdownAfter 1 n) = some (t - 1) := by
    rw [ht, Option.map_some, countdownAfter_one hstorage, if_pos (by omega)]
  rcases hk with hk | hk
  · cases n with
    | bus i => cases hk
    | boundary k id basis =>
      cases hk
      rcases h.qubit id with hsame | ⟨⟨basis', t', ht', hpos, hends⟩, -⟩
      · exact (hsame basis).trans hafter
      · -- the countdown that runs out is that of the turn
        exfalso
        have heq : basis' = basis := by
          by_contra hne
          have hflip : basis' = basis.flipped := by
            cases basis <;> cases basis' <;> simp_all [Basis.flipped]
          rw [hflip] at ht'
          rcases hone id basis t t' ht ht' with rfl | rfl <;> omega
        rw [heq, show b.ticksOf (.qubit id basis) = some t from ht] at ht'
        cases ht'
        unfold Board.ticksAfter at hends
        omega
  · rw [h.other n (by simp [hk]) fun hmem => ?_]
    · exact hafter
    · have := hf.kind n hmem
      rw [hk] at this
      cases this

end Factories

namespace Packer.Packs

variable {turnTicks : Int} {rotations : List Rotation} {b b' : Board} {ps : List Packed} {q : Packed}

/-- What is true of every two of the rotations is true of those that are packed. -/
theorem pairwise_rotation (h : Packs turnTicks rotations b ps b') {R : Rotation → Rotation → Prop}
    (hsymm : ∀ {r r'}, R r r' → R r' r) (hR : rotations.Pairwise R) :
    ps.Pairwise fun p q => R p.rotation q.rotation := by
  obtain ⟨l, hperm, hsub⟩ := h.order
  exact List.pairwise_map.1 ((hperm.pairwise_iff hsymm).1 (hR.sublist hsub))

theorem rigidApart (h : Packs turnTicks rotations b ps b')
    (hrigid : rotations.Pairwise Rotation.RigidApart) :
    ps.Pairwise fun p q => p.rotation.RigidApart q.rotation :=
  h.pairwise_rotation Rotation.RigidApart.symm hrigid

theorem rigidApart_of_ne (h : Packs turnTicks rotations b ps b')
    (hrigid : rotations.Pairwise Rotation.RigidApart) {p : Packed} (hp : p ∈ ps) (hq : q ∈ ps)
    (hne : p ≠ q) : p.rotation.RigidApart q.rotation := by
  have hsymm : Std.Symm fun p q : Packed => p.rotation.RigidApart q.rotation :=
    ⟨fun _ _ h => h.symm⟩
  exact (h.rigidApart hrigid).forall hp hq hne

/-- The other boundary of a patch that is turned stays ready. -/
theorem opposite_ready (hb : b.Sound) (h : Packs turnTicks rotations b ps b')
    (hrigid : rotations.Pairwise Rotation.RigidApart) (hq : q ∈ ps) (hturn : q.Turning) {id : Nat}
    {basis : Basis} (hmem : q.tree.contains (.qubit id basis) = true) {t : Int}
    (ht : b'.ticksOf (.qubit id basis.flipped) = some t) : t = 0 := by
  have hunique : ∀ p ∈ ps, p.Turning → ∀ basis', p.tree.contains (.qubit id basis') = true →
      id ∈ p.rotation.activeQubits ∧ p.rotation.kind = .turn ∧
        (∀ basis'', p.tree.contains (.qubit id basis'') = true → basis'' = basis') ∧
        ∀ basis'', .qubit id basis'' ∉ b.unavailable := by
    intro p hp hpturn basis' hcontains
    obtain ⟨hk, id', hid, basis₀, bus, hbus, hnodes, hfree⟩ := h.turning p hp hpturn
    have hbusOnly : ∀ c, Node.qubit id c ≠ bus := fun c hc => by
      rw [← hc] at hbus
      cases hbus
    cases ((hnodes _).1 hcontains).resolve_right (hbusOnly _)
    refine ⟨hid, hk, fun basis'' hother => ?_, hfree⟩
    cases ((hnodes _).1 hother).resolve_right (hbusOnly _)
    rfl
  obtain ⟨hid, hk, honly, hfree⟩ := hunique q hq hturn basis hmem
  have hdata : b'.ticksOf (.qubit id basis.flipped) = b.ticksOf (.qubit id basis.flipped) := by
    refine h.data id _ fun p hp hpturn => ?_
    by_contra hcontains
    rw [Bool.not_eq_false] at hcontains
    -- another turn on the same qubit was not offered
    have hne : p ≠ q := by
      rintro rfl
      have := honly _ hcontains
      cases basis <;> cases this
    have hapart := h.rigidApart_of_ne hrigid hp hq hne
    have hdisjoint := hapart (Or.inr (by simp [Rotation.isRigid, hk]))
    exact SortedSet.disjoint_iff.1 hdisjoint id (hunique p hp hpturn _ hcontains).1 hid
  rw [hdata] at ht
  by_contra hne
  exact hfree basis.flipped ((hb.mem_unavailable_iff (by simp [Node.kind])).2 ⟨t, ht, hne⟩)

/-- Packing leaves at most one boundary of a patch busy. -/
theorem oneBusy (hb : b.Sound) (h : Packs turnTicks rotations b ps b')
    (hrigid : rotations.Pairwise Rotation.RigidApart) (hone : b.OneBusy) : b'.OneBusy := by
  intro id basis t t' ht ht'
  by_cases hq : ∃ q ∈ ps, q.Turning ∧ q.tree.contains (.qubit id basis) = true
  · obtain ⟨q, hq, hturn, hmem⟩ := hq
    exact Or.inr (h.opposite_ready hb hrigid hq hturn hmem ht')
  by_cases hq' : ∃ q ∈ ps, q.Turning ∧ q.tree.contains (.qubit id basis.flipped) = true
  · obtain ⟨q, hq, hturn, hmem⟩ := hq'
    exact Or.inl (h.opposite_ready hb hrigid hq hturn hmem (by rwa [Basis.flipped_flipped]))
  · push Not at hq hq'
    rw [h.data id basis fun p hp hturn => by simpa using hq p hp hturn] at ht
    rw [h.data id _ fun p hp hturn => by simpa using hq' p hp hturn] at ht'
    exact hone id basis t t' ht ht'

end Packer.Packs

namespace Run

variable {σ : Type} {conf : Configuration} {c : Circuit} {b b' : Board} {done : Finset Nat}
  {s s' : Run σ} {ps : List Packed}

/-! ## Turns that take place -/

/-- What is entered does not overlap, and the board knows how long its turns still take. -/
structure Clear (conf : Configuration) (s : Run σ) : Prop where
  overlap : NoOverlap conf.turnTicks s.log
  oneBusy : s.board.OneBusy
  left : ∀ t p, Enters s.log t p → p.rotation.kind = .turn →
    s.factories.tick < t + conf.turnTicks → ∀ n, p.tree.contains n = true →
      s.board.ticksOf n = some ((t : Int) + conf.turnTicks - s.factories.tick)

theorem Starts.clear (h : Starts conf b s)
    (hb : ∀ id basis t, b.ticksOf (.qubit id basis) = some t → t = 0) : s.Clear conf := by
  have henters : ∀ t p, ¬ Enters s.log t p := by
    rintro t p ⟨qs, hget, -⟩
    rw [h.log] at hget
    cases hget
  refine ⟨⟨fun t ps hget => ?_, fun t p hp => absurd hp (henters t p),
    fun t p hp => absurd hp (henters t p)⟩, fun id basis t t' ht _ => ?_,
    fun t p hp => absurd hp (henters t p)⟩
  · rw [h.log] at hget
    cases hget
  · rw [h.setsUp.other _ (by simp [Node.kind])] at ht
    exact Or.inl (hb id basis t ht)

section Step

variable [WordSource σ] {rng : σ} (hc : c.Numbered) (hpos : 1 ≤ conf.turnTicks)
  (hlt : conf.turnTicks < 2 ^ 32) (hs : s.Sound conf c rng done) (hl : s.Logs conf c done)
  (h : s.Clear conf) (ht : Ticks conf c s ps b' s')

include hc hpos hlt hs hl h ht

/-- The packings of a tick do not meet each other, nor a turn that takes place. -/
theorem Clear.overlap_step : NoOverlap conf.turnTicks s'.log := by
  have hrigid := hs.rigidApart_offered hc
  have hapart := ht.packs.apart (asCountdown_ne_zero hpos hlt) hrigid
  refine ⟨fun t qs hget => ?_, fun t p hp hk => ?_, fun t p hp hk u q hq hle hbefore hne => ?_⟩
  · rw [ht.get?_log] at hget
    split at hget
    · cases hget
      exact hapart
    · exact h.overlap.apart t qs hget
  · rcases (ht.enters_iff hl).1 hp with ⟨-, hnow⟩ | hp
    · obtain ⟨-, id, -, basis, bus, hbus, hnodes, -⟩ :=
        ht.packs.turning p hnow (ht.packs.of_turn p hnow hk)
      exact ⟨id, basis, bus, hbus, hnodes⟩
    · exact h.overlap.nodes t p hp hk
  · rcases (ht.enters_iff hl).1 hp with ⟨rfl, hp'⟩ | hp' <;>
      rcases (ht.enters_iff hl).1 hq with ⟨rfl, hq'⟩ | hq'
    · have hsymm : Std.Symm Packed.Apart := ⟨fun _ _ h => h.symm⟩
      exact hapart.forall hp' hq' fun heq => hne (by rw [heq])
    · have := hl.lt_of_enters hq'
      omega
    · -- the turn started before, and its nodes are still closed
      intro n hn
      by_contra hmeet
      rw [Bool.not_eq_false] at hmeet
      have hticks := h.left t p hp' hk hbefore n hn
      exact ht.packs.opened q hq' n hmeet (hs.board.mem_unavailable_of_pos hticks (by omega))
    · exact h.overlap.turn t p hp' hk u q hq' hle hbefore hne

/-- A tick keeps the packings from overlapping. -/
theorem Clear.step : s'.Clear conf := by
  have hone := ht.packs.oneBusy hs.board (hs.rigidApart_offered hc) h.oneBusy
  have hoverlap := h.overlap_step hc hpos hlt hs hl ht
  have hplaced : Factories.Placed b' s.factories.groups :=
    hs.placed.of_hasNode fun n => by rw [ht.packs.occupies.graph]
  refine ⟨hoverlap, ht.passes.oneBusy hone, fun t p hp hk hbefore n hn => ?_⟩
  have hkind := hoverlap.kind_of_turn hp hk hn
  rw [ht.tick] at hbefore ⊢
  have hcount : b'.ticksOf n = some ((t : Int) + conf.turnTicks - s.factories.tick) := by
    rcases (ht.enters_iff hl).1 hp with ⟨rfl, hnow⟩ | hold
    · -- a turn that has just been packed
      have hticks := ht.packs.turn (asCountdown_ne_zero hpos hlt) p hnow
        (ht.packs.of_turn p hnow hk) n hn
      have hnonneg := (ht.packs.occupies.sound.means hticks).nonneg
        (by rcases hkind with hk | hk <;> simp [hk]) (by rcases hkind with hk | hk <;> simp [hk])
      rw [hticks, asCountdown_of_nonneg hlt hnonneg, Option.some_inj]
      omega
    · have hticks := h.left t p hold hk (by omega) n hn
      rw [ht.packs.occupies.closed n (hs.board.mem_unavailable_of_pos hticks (by omega)), hticks]
  rw [ht.passes.ticksOf_of_turn hplaced hone hkind hcount (by omega), Option.some_inj]
  omega

end Step

theorem Reachable.clear [WordSource σ] {rng : σ} (hc : c.Numbered) (hb : b.Sound)
    (hzero : ∀ id basis t, b.ticksOf (.qubit id basis) = some t → t = 0)
    (hpos : 1 ≤ conf.turnTicks) (hlt : conf.turnTicks < 2 ^ 32) (h : Reachable conf c b rng s) :
    ∃ done, s.Sound conf c rng done ∧ s.Logs conf c done ∧ s.Clear conf :=
  h.induct (fun done s => s.Logs conf c done ∧ s.Clear conf) hc hb
    (fun _ hstarts => ⟨hstarts.logs, hstarts.clear hzero⟩)
    fun _ _ _ _ _ hs ⟨hl, h⟩ hleft ht hs' =>
      ⟨hl.step hc hs hleft ht hs', h.step hc hpos hlt hs hl ht⟩

end Run

/-- On a board of a layout, parts of which may be left unused, the trees of a run do not overlap, at no
moment of the run and not in its schedule, and they are entered under ticks that are 32-bit numbers. -/
theorem schedule_no_overlap {σ : Type} [WordSource σ] (rng : σ) {l : Layout} {b : Board}
    (hb : Board.ofLayout l = .ok b) (unused : List Node) {c : Circuit} (hc : c.Numbered)
    {conf : Configuration} (hpos : 1 ≤ conf.turnTicks) (hlt : conf.turnTicks < 2 ^ 32) :
    (∀ s : Run σ, Run.Reachable conf c (b.removeNodes unused) rng s →
      NoOverlap conf.turnTicks s.log ∧ ∀ t ∈ s.log.keys, t < countLimit) ∧
    ∀ r, c.schedule conf (b.removeNodes unused) rng = .ok r →
      NoOverlap conf.turnTicks r.1.ticks ∧ ∀ t ∈ r.1.ticks.keys, t < countLimit := by
  have hunused := (Board.ofLayout_spec hb).1.removeNodes unused
  have hzero : ∀ id basis t, (b.removeNodes unused).ticksOf (.qubit id basis) = some t → t = 0 :=
    fun _ _ _ => Board.ticksOf_qubit_of_ofLayout hb
  have hreach : ∀ s : Run σ, Run.Reachable conf c (b.removeNodes unused) rng s →
      NoOverlap conf.turnTicks s.log ∧ ∀ t ∈ s.log.keys, t < countLimit := by
    intro s hs
    obtain ⟨done, hsound, hlogs, hclear⟩ := hs.clear hc hunused hzero hpos hlt
    exact ⟨hclear.overlap, fun t ht => (hlogs.earlier t ht).trans hsound.counts.tick⟩
  refine ⟨hreach, fun r hr => ?_⟩
  obtain ⟨s, hs, -, rfl⟩ := (Circuit.schedule_ends hc hunused conf rng).of_ok hr
  exact hreach s hs

/-- While the first patch of the row turns, no other tree meets its boundary or its bus tile. -/
theorem turningCircuit_schedule_no_overlap : ∃ b, Board.ofLayout rowLayout = .ok b ∧
    ∃ r, turningCircuit.schedule {} (b.removeNodes []) (⟨[0], 0⟩ : CyclicWords) = .ok r ∧
      NoOverlap 3 r.1.ticks := by
  obtain ⟨b, hb, r, hr⟩ := turningCircuit_schedule_ok
  have hschedules := (schedule_no_overlap (⟨[0], 0⟩ : CyclicWords) hb [] turningCircuit_numbered
    (by decide : 1 ≤ ({} : Configuration).turnTicks) (by decide)).2
  exact ⟨b, hb, r, hr, (hschedules r hr).1⟩

end LatticeSurgery
