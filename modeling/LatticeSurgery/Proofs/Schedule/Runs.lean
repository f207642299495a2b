import LatticeSurgery.Proofs.Schedule.Tick

/-!
# Runs

The states of a run are those that ticks reach from its start (`Run.Reachable`), and what every tick
keeps is true of all of them (`Run.Reachable.induct`). A tick in which something is done, an idle
tick and a wait for a refill each lower the potential of the state, so a run is over before its bound
on the number of ticks is reached (`Run.loop_fault`), unless a count leaves the range of 32-bit numbers
before.
-/

namespace LatticeSurgery

open Ordered WordSource

namespace Run

variable {σ : Type} [WordSource σ] {conf : Configuration} {c : Circuit} {b : Board} {rng : σ}
  {done : Finset Nat} {s s' : Run σ} {ps : List Packed}

/-! ## The states of a run -/

/-- What is true before the first tick. -/
structure Starts (conf : Configuration) (b : Board) (s : Run σ) : Prop where
  setsUp : Factories.SetsUp conf.tickReplenish b s.factories s.board
  log : s.log = ∅
  idleTicks : s.idleTicks = 0
  fails : ∀ reason, s.packer.fails.get reason = 0

/-- A run starts unless its factories are to hold no magic states or refills take too long. -/
theorem start_ends (hc : c.Numbered) (hb : b.Sound) (conf : Configuration) (rng : σ) :
    Ends (start conf c b rng)
      (fun _ => conf.magicStatesPerFactory = 0 ∨ ¬ conf.tickReplenish + 1 < 2 ^ 31)
      fun s => Starts conf b s ∧ s.Sound conf c rng ∅ := by
  unfold start
  refine Ends.bind (Factories.setUp_ends hb conf.tickReplenish conf.magicStatesPerFactory) ?_
  rintro ⟨factories, b'⟩ hset
  have htracks := hc.tracks_start conf.dependencyRule
  have hclock : factories.tick < countLimit := by
    rw [hset.tick]
    decide
  refine ⟨⟨hset, rfl, rfl, fun reason => ?_⟩,
    { board := hset.sound
      packer := ⟨PathCache.sound_empty, TreeCache.sound_empty⟩
      turnTicks := by
        dsimp only [Packer.new]
      cache := PackingCache.sound_empty
      rng := Keeps.refl rng
      replenishTicks := hset.replenishTicks
      placed := hset.placed
      cycling := hset.cycling
      tracks := htracks
      candidates := fun j => htracks.mem_unblocked
      counts := ⟨hclock, Nat.zero_le _, Nat.zero_le _⟩ }⟩
  cases reason <;> rfl

/-- The states of a run between two ticks. -/
inductive Reachable (conf : Configuration) (c : Circuit) (b : Board) (rng : σ) : Run σ → Prop
  /-- The state before the first tick. -/
  | start {s : Run σ} (h : Run.start conf c b rng = .ok s) : Reachable conf c b rng s
  /-- The state after one more tick. -/
  | step {s s' : Run σ} (h : Reachable conf c b rng s) (hleft : s.candidates.isEmpty = false)
    (hstep : s.step conf c = .ok s') : Reachable conf c b rng s'

/-- What is true at the start and kept by every tick is true in every state of a run. -/
theorem Reachable.induct (inv : Finset Nat → Run σ → Prop) (hc : c.Numbered) (hb : b.Sound)
    (hstart : ∀ s, Starts conf b s → inv ∅ s)
    (hstep : ∀ done s ps b' s', s.Sound conf c rng done → inv done s →
      s.candidates.isEmpty = false → Ticks conf c s ps b' s' →
      s'.Sound conf c rng (done ∪ (indices ps).toFinset) → inv (done ∪ (indices ps).toFinset) s')
    (h : Reachable conf c b rng s) : ∃ done, s.Sound conf c rng done ∧ inv done s := by
  induction h with
  | start h =>
    obtain ⟨hstarts, hsound⟩ := (start_ends hc hb conf rng).of_ok h
    exact ⟨∅, hsound, hstart _ hstarts⟩
  | step _ hleft hnext ih =>
    obtain ⟨done, hsound, hinv⟩ := ih
    obtain ⟨ps, b', hticks, hsound'⟩ := (step_ends hc hsound).of_ok hnext
    exact ⟨_, hsound', hstep done _ ps b' _ hsound hinv hleft hticks hsound'⟩

/-- A run that goes on stays among its states, and it is over when nothing is left to do. -/
theorem Reachable.of_loop {steps : Nat} (h : Reachable conf c b rng s)
    (hloop : s.loop conf c steps = .ok s') :
    Reachable conf c b rng s' ∧ s'.candidates.isEmpty = true := by
  induction steps generalizing s with
  | zero =>
    unfold loop at hloop
    split at hloop
    · next hempty =>
      cases hloop
      exact ⟨h, hempty⟩
    · cases hloop
  | succ steps ih =>
    unfold loop at hloop
    split at hloop
    · next hempty =>
      cases hloop
      exact ⟨h, hempty⟩
    · next hleft =>
      split at hloop
      · cases hloop
      · next hstep => exact ih (h.step (Bool.not_eq_true _ ▸ hleft) hstep) hloop

/-! ## The number of ticks -/

/-- How many ticks that are not waits for a refill there can still be, if the rotations of `done`
are done. -/
def ticksLeft (conf : Configuration) (c : Circuit) (done : Finset Nat) (s : Run σ) : Nat :=
  (c.rotations.length - done.card) * (conf.maxIdleTicks + 1) + (conf.maxIdleTicks - s.idleTicks)

/-- How many ticks there can still be, if the rotations of `done` are done. -/
def potential (conf : Configuration) (c : Circuit) (done : Finset Nat) (s : Run σ) : Nat :=
  ticksLeft conf c done s * (conf.tickReplenish + 2) + s.factories.wait s.board

theorem Sound.card_le (h : s.Sound conf c rng done) : done.card ≤ c.rotations.length := by
  rw [← Finset.card_range c.rotations.length]
  exact Finset.card_le_card fun i hi => Finset.mem_range.2 (h.tracks.bound i hi)

section Ticks

variable (hc : c.Numbered) (h : s.Sound conf c rng done) (ht : Ticks conf c s ps b s')
  (h' : s'.Sound conf c rng (done ∪ (indices ps).toFinset))

include h in
theorem Ticks.disjoint (hc : c.Numbered) (ht : Ticks conf c s ps b s') :
    Disjoint done (indices ps).toFinset := by
  refine Finset.disjoint_right.2 fun i hi => ?_
  obtain ⟨p, hp, rfl⟩ := List.mem_map.1 (List.mem_toFinset.1 hi)
  exact ((h.candidates _).1 (ht.mem_candidates hc hp).1).2.1

include hc h ht h'

/-- Either there are fewer ticks left that are not waits, or the tick was a wait, in which nothing was
packed, and the next refill is nearer. -/
theorem Ticks.ticksLeft_lt_or (hrange : conf.tickReplenish + 1 < 2 ^ 31) :
    ticksLeft conf c (done ∪ (indices ps).toFinset) s' < ticksLeft conf c done s ∨
      (ticksLeft conf c (done ∪ (indices ps).toFinset) s' = ticksLeft conf c done s ∧
        s'.packer = s.packer ∧ s'.factories.wait s'.board < s.factories.wait s.board) := by
  have hcard := h'.card_le
  rw [Finset.card_union_of_disjoint (ht.disjoint h hc)] at hcard
  unfold ticksLeft
  rw [Finset.card_union_of_disjoint (ht.disjoint h hc)]
  rcases ht.idle with ⟨hne, hidle⟩ | ⟨rfl, hidle, hle⟩ | ⟨rfl, hidle, hgroups, rfl, hpacker, hready⟩
  · -- a rotation is done
    left
    obtain ⟨p, hp⟩ := List.exists_mem_of_ne_nil ps hne
    have hpos : 0 < (indices ps).toFinset.card :=
      Finset.card_pos.2 ⟨p.rotation.index, List.mem_toFinset.2 (List.mem_map_of_mem hp)⟩
    have hfewer : c.rotations.length - (done.card + (indices ps).toFinset.card) + 1 ≤
        c.rotations.length - done.card := by omega
    have hmul := Nat.mul_le_mul_right (conf.maxIdleTicks + 1) hfewer
    rw [Nat.succ_mul] at hmul
    omega
  · left
    simp only [indices, List.map_nil, List.toFinset_nil, Finset.card_empty, Nat.add_zero]
    omega
  · right
    refine ⟨by simp [indices, hidle], hpacker, ?_⟩
    have hcycling := h.cycling hrange
    rw [Factories.wait_congr ht.groups]
    exact hcycling.wait_lt h.placed hgroups hready ht.passes

/-- Every tick lowers the potential. -/
theorem Ticks.potential_lt (hrange : conf.tickReplenish + 1 < 2 ^ 31) :
    potential conf c (done ∪ (indices ps).toFinset) s' < potential conf c done s := by
  have hwait : s'.factories.wait s'.board ≤ conf.tickReplenish + 1 := by
    rw [← h'.replenishTicks]
    exact (h'.cycling hrange).wait_le
  unfold potential
  rcases ht.ticksLeft_lt_or hc h h' hrange with hlt | ⟨heq, -, hlt⟩
  · have hmul := Nat.mul_le_mul_right (conf.tickReplenish + 2) hlt
    rw [Nat.succ_mul] at hmul
    omega
  · rw [heq]
    omega

/-- A count that leaves its range after a tick does so before it, with one more tick to go. -/
theorem RunsOut.before {ticks : Nat} {e : Fault} (hrange : conf.tickReplenish + 1 < 2 ^ 31)
    (hout : RunsOut c s' ticks (ticksLeft conf c (done ∪ (indices ps).toFinset) s' + 1) e) :
    RunsOut c s (ticks + 1) (ticksLeft conf c done s + 1) e := by
  obtain ⟨he, hclock | ⟨reason, hfails⟩⟩ := hout
  · rw [ht.tick] at hclock
    exact ⟨he, Or.inl (by omega)⟩
  · refine ⟨he, Or.inr ⟨reason, ?_⟩⟩
    rcases ht.ticksLeft_lt_or hc h h' hrange with hlt | ⟨heq, hpacker, -⟩
    · -- the failures of the tick take the place of the tick that is no longer left
      have hgrows := ht.fails reason
      have hmul : c.rotations.length * (ticksLeft conf c (done ∪ (indices ps).toFinset) s' + 1) ≤
          c.rotations.length * ticksLeft conf c done s := Nat.mul_le_mul_left _ hlt
      rw [Nat.mul_succ]
      omega
    · rwa [heq, hpacker] at hfails

end Ticks

/-- At the start, the potential is below the bound on the number of ticks. -/
theorem Starts.potential_lt (hstarts : Starts conf b s) (h : s.Sound conf c rng ∅)
    (hrange : conf.tickReplenish + 1 < 2 ^ 31) :
    potential conf c ∅ s < stepBound conf c := by
  have hwait : s.factories.wait s.board ≤ conf.tickReplenish + 1 := by
    rw [← h.replenishTicks]
    exact (h.cycling hrange).wait_le
  unfold potential ticksLeft stepBound
  rw [hstarts.idleTicks, Finset.card_empty, Nat.sub_zero, Nat.sub_zero, Nat.succ_mul,
    ← Nat.add_assoc, Nat.succ_mul]
  omega

omit [WordSource σ] in
/-- From the start, the clock needs as many ticks as it has numbers, and the failures as many packings
and rotations. -/
theorem Starts.limit_le_of_runsOut {ticks : Nat} {e : Fault} (hstarts : Starts conf b s)
    (hout : RunsOut c s ticks (ticksLeft conf c ∅ s + 1) e) : e = .countOutOfRange ∧
      (countLimit ≤ ticks ∨
        countLimit ≤ c.rotations.length * ((c.rotations.length + 1) * (conf.maxIdleTicks + 1))) := by
  have hleft : ticksLeft conf c ∅ s + 1 = (c.rotations.length + 1) * (conf.maxIdleTicks + 1) := by
    unfold ticksLeft
    rw [hstarts.idleTicks, Finset.card_empty, Nat.sub_zero, Nat.sub_zero, Nat.succ_mul, Nat.add_assoc]
  obtain ⟨he, hclock | ⟨reason, hfails⟩⟩ := hout
  · rw [hstarts.setsUp.tick, Nat.zero_add] at hclock
    exact ⟨he, Or.inl hclock⟩
  · rw [hstarts.fails, Nat.zero_add, hleft] at hfails
    exact ⟨he, Or.inr hfails⟩

/-- A run that may go on for longer than the potential of its state stops with a fault only through a
draw or because a count leaves its range, unless its configuration is out of range. -/
theorem loop_fault {steps : Nat} {e : Fault} (hc : c.Numbered) (h : s.Sound conf c rng done)
    (hturn : conf.turnTicks < 2 ^ 31) (hrange : conf.tickReplenish + 1 < 2 ^ 31)
    (hsteps : potential conf c done s < steps) (hloop : s.loop conf c steps = .error (.fault e)) :
    CanCause rng e ∨ RunsOut c s steps (ticksLeft conf c done s + 1) e := by
  induction steps generalizing s done with
  | zero => omega
  | succ steps ih =>
    unfold loop at hloop
    split at hloop
    · cases hloop
    · split at hloop
      · next hstep =>
        cases hloop
        have hcause := (step_ends hc h).of_error hstep hturn hrange
        exact hcause.imp_right fun hout => hout.mono (by omega) (by omega)
      · next hstep =>
        obtain ⟨ps, b', hticks, h'⟩ := (step_ends hc h).of_ok hstep
        have hlt := hticks.potential_lt hc h h' hrange
        have hcause := ih h' (by omega) hloop
        exact hcause.imp_right fun hout => RunsOut.before hc h hticks h' hrange hout

/-- When nothing is left to do, everything is done. -/
theorem Sound.isDone (hc : c.Numbered) (h : s.Sound conf c rng done)
    (hempty : s.candidates.isEmpty = true) : s.progress.isDone = true :=
  h.tracks.isDone_of_no_free (hc.orders conf.dependencyRule).lt fun j hj =>
    SortedSet.isEmpty_iff.1 hempty j ((h.candidates j).2 hj)

theorem Reachable.sound (hc : c.Numbered) (hb : b.Sound) (h : Reachable conf c b rng s) :
    ∃ done, s.Sound conf c rng done := by
  obtain ⟨done, hsound, -⟩ := h.induct (fun _ _ => True) hc hb (fun _ _ => trivial)
    fun _ _ _ _ _ _ _ _ _ _ => trivial
  exact ⟨done, hsound⟩

end Run

/-- A schedule is read off the last state of a run, in which nothing is left to do. A configuration
that is in range gives rise to no fault, but a draw may, and so may a run that is too long for 32-bit
counts. -/
theorem Circuit.schedule_ends {σ : Type} [WordSource σ] {c : Circuit} (hc : c.Numbered) {b : Board}
    (hb : b.Sound) (conf : Configuration) (rng : σ) :
    Ends (c.schedule conf b rng)
      (Halt.FaultsOnly fun e => 1 ≤ conf.magicStatesPerFactory → conf.turnTicks < 2 ^ 31 →
        conf.tickReplenish + 1 < 2 ^ 31 →
          Excuses rng e ∨ e = .countOutOfRange ∧ (countLimit ≤ Run.stepBound conf c ∨
            countLimit ≤
              c.rotations.length * ((c.rotations.length + 1) * (conf.maxIdleTicks + 1))))
      fun r => ∃ s : Run σ, Run.Reachable conf c b rng s ∧ s.candidates.isEmpty = true ∧
        r = (s.schedule, s.board) := by
  unfold Circuit.schedule
  split
  · trivial
  · have hstart := Run.start_ends hc hb conf rng
    cases hs₀ : Run.start conf c b rng with
    | error e =>
      intro hfactory _ hrange
      rcases hstart.of_error hs₀ with hzero | hout
      · omega
      · exact absurd hrange hout
    | ok s₀ =>
      obtain ⟨hstarts, hsound₀⟩ := hstart.of_ok hs₀
      show Ends (s₀.loop conf c (Run.stepBound conf c) >>= fun s =>
        if s.progress.isDone then pure (s.schedule, s.board)
        else throw (.fault .rotationsLeftOver)) _ _
      cases hloop : s₀.loop conf c (Run.stepBound conf c) with
      | error e =>
        cases e with
        | refused e => trivial
        | fault e =>
          intro _ hturn hrange
          have hcause := Run.loop_fault hc hsound₀ hturn hrange
            (hstarts.potential_lt hsound₀ hrange) hloop
          exact hcause.imp CanCause.excuses hstarts.limit_le_of_runsOut
      | ok s =>
        obtain ⟨hreach, hempty⟩ := (Run.Reachable.start hs₀).of_loop hloop
        obtain ⟨done, hsound⟩ := hreach.sound hc hb
        show Ends (if s.progress.isDone then _ else _) _ _
        rw [if_pos (hsound.isDone hc hempty)]
        exact ⟨s, hreach, hempty, rfl⟩

end LatticeSurgery
