import LatticeSurgery.Proofs.Schedule.Completeness

/-!
# The loop of a run stops

`Run.Goes` is the loop without a bound on its ticks: it lists the states in which a tick begins and
says how the loop ends. Every tick lowers the potential of the state, so the loop of a run ends within
`Run.stepBound` ticks, with everything done or for want of progress (`schedule_loop_stops`). A loop that
goes on for long enough may also stop because a count leaves the range of 32-bit numbers (`Goes.fault`).
-/

namespace LatticeSurgery

open Ordered WordSource

namespace Run

variable {σ : Type} [WordSource σ] {conf : Configuration} {c : Circuit} {b : Board} {rng : σ}
  {s s' s₀ : Run σ} {ss : List (Run σ)} {r : Except (Halt ScheduleError) (Run σ)} {steps : Nat}
  {done : Finset Nat}

/-! ## The loop -/

/-- The loop goes through ticks that begin in the given states, one after the other, and ends with the
given result. -/
inductive Goes (conf : Configuration) (c : Circuit) :
    Run σ → List (Run σ) → Except (Halt ScheduleError) (Run σ) → Prop
  /-- Nothing is left to do. -/
  | stops {s : Run σ} (hempty : s.candidates.isEmpty = true) : Goes conf c s [] (.ok s)
  /-- The loop ends in a tick. -/
  | halts {s : Run σ} {e : Halt ScheduleError} (hleft : s.candidates.isEmpty = false)
    (hstep : s.step conf c = .error e) : Goes conf c s [s] (.error e)
  /-- One more tick. -/
  | ticks {s s' : Run σ} {ss : List (Run σ)} {r : Except (Halt ScheduleError) (Run σ)}
    (hleft : s.candidates.isEmpty = false) (hstep : s.step conf c = .ok s')
    (hrest : Goes conf c s' ss r) : Goes conf c s (s :: ss) r

/-- The states in which the ticks of the bounded loop begin. -/
def tickStarts (conf : Configuration) (c : Circuit) : Nat → Run σ → List (Run σ)
  | 0, _ => []
  | steps + 1, s =>
    if s.candidates.isEmpty then []
    else
      match s.step conf c with
      | .error _ => [s]
      | .ok s' => s :: tickStarts conf c steps s'

/-- The ticks of the loop begin in states of the run. -/
theorem Reachable.of_mem_tickStarts
    (h : Reachable conf c b rng s) (hs' : s' ∈ tickStarts conf c steps s) :
    Reachable conf c b rng s' := by
  induction steps generalizing s with
  | zero => cases hs'
  | succ steps ih =>
    unfold tickStarts at hs'
    split at hs'
    · cases hs'
    · next hleft =>
      rw [Bool.not_eq_true] at hleft
      cases hstep : s.step conf c with
      | error e =>
        rw [hstep] at hs'
        rwa [List.mem_singleton.1 hs']
      | ok s₁ =>
        rw [hstep] at hs'
        rcases List.mem_cons.1 hs' with rfl | hmem
        · exact h
        · exact ih (h.step hleft hstep) hmem

/-- A bounded loop that does not run into its bound goes as the loop without a bound. -/
theorem goes_of_loop (hloop : s.loop conf c steps = r) (hr : r ≠ .error (.fault .outOfSteps)) :
    Goes conf c s (tickStarts conf c steps s) r := by
  induction steps generalizing s with
  | zero =>
    unfold loop at hloop
    split at hloop
    · next hempty =>
      subst hloop
      exact .stops hempty
    · exact absurd hloop.symm hr
  | succ steps ih =>
    unfold loop at hloop
    unfold tickStarts
    split at hloop
    · next hempty =>
      rw [if_pos hempty]
      subst hloop
      exact .stops hempty
    · next hleft =>
      rw [if_neg hleft]
      rw [Bool.not_eq_true] at hleft
      cases hstep : s.step conf c with
      | error e =>
        rw [hstep] at hloop
        subst hloop
        exact .halts hleft hstep
      | ok s' =>
        rw [hstep] at hloop
        exact .ticks hleft hstep (ih hloop)

/-- The loop goes in one way only. -/
theorem Goes.unique {ss' : List (Run σ)} {r' : Except (Halt ScheduleError) (Run σ)}
    (h : Goes conf c s ss r) (h' : Goes conf c s ss' r') : ss' = ss ∧ r' = r := by
  induction h generalizing ss' r' with
  | stops hempty =>
    cases h' with
    | stops => exact ⟨rfl, rfl⟩
    | halts hleft => simp [hempty] at hleft
    | ticks hleft => simp [hempty] at hleft
  | halts hleft hstep =>
    cases h' with
    | stops hempty => simp [hempty] at hleft
    | halts _ hstep' =>
      rw [hstep] at hstep'
      cases hstep'
      exact ⟨rfl, rfl⟩
    | ticks _ hstep' =>
      rw [hstep] at hstep'
      cases hstep'
  | ticks hleft hstep _ ih =>
    cases h' with
    | stops hempty => simp [hempty] at hleft
    | halts _ hstep' =>
      rw [hstep] at hstep'
      cases hstep'
    | ticks _ hstep' hrest' =>
      rw [hstep] at hstep'
      cases hstep'
      obtain ⟨rfl, rfl⟩ := ih hrest'
      exact ⟨rfl, rfl⟩

/-! ## How a tick ends -/

/-- The three parts of a tick. -/
theorem exists_of_step_ok (h : s.step conf c = .ok s') : ∃ f s₁, s.fill conf c = .ok f ∧
    countIdle conf f = .ok s₁ ∧ s₁.advance f.assigned = .ok s' := by
  unfold step at h
  obtain ⟨f, hfill, h⟩ := exists_of_bind_eq_ok h
  obtain ⟨s₁, hcount, hadvance⟩ := exists_of_bind_eq_ok h
  exact ⟨f, s₁, eq_ok_of_orHalt hfill, hcount, eq_ok_of_orHalt hadvance⟩

/-- A tick is refused only when its idle ticks are counted. -/
theorem exists_fill_of_refused {e : ScheduleError} (h : s.step conf c = .error (.refused e)) :
    ∃ f, s.fill conf c = .ok f ∧ countIdle conf f = .error (.refused e) := by
  unfold step at h
  obtain ⟨f, hfill, h⟩ := exists_of_orHalt_bind_refused h
  exact ⟨f, hfill, refused_of_bind_orHalt h⟩

omit [WordSource σ] in
/-- A tick is refused for want of progress: nothing is done in it, it is no wait, and there were as
many idle ticks before as are put up with. -/
theorem countIdle_refused {f : Filled σ} {e : ScheduleError}
    (h : countIdle conf f = .error (.refused e)) :
    e = .noProgress f.run.factories.tick (f.run.idleTicks + 1) ∧ f.assigned = [] ∧
      (f.waiting && !f.run.factories.groups.isEmpty) = false ∧
      conf.maxIdleTicks < f.run.idleTicks + 1 := by
  unfold countIdle at h
  dsimp only at h
  split at h
  · next hassigned =>
    split at h
    · cases h
    · next hwait =>
      obtain ⟨idle, hcount, h⟩ := exists_of_orHalt_bind_refused h
      obtain ⟨rfl, -⟩ := (countPlus_ends f.run.idleTicks 1).of_ok hcount
      by_cases hidle : conf.maxIdleTicks < f.run.idleTicks + 1
      · rw [if_pos hidle] at h
        cases h
        exact ⟨rfl, List.isEmpty_iff.1 hassigned, by simpa using hwait, hidle⟩
      · rw [if_neg hidle] at h
        cases h
  · cases h

/-! ## The end of the loop -/

/-- Everything is done, or nothing was done for too many ticks. -/
def Settled (r : Except (Halt ScheduleError) (Run σ)) : Prop :=
  (∃ s, r = .ok s ∧ s.progress.isDone = true) ∨
    ∃ tick idleTicks, r = .error (.refused (.noProgress tick idleTicks))

/-- A loop is refused for want of progress only. -/
theorem noProgress_of_loop {e : ScheduleError} (hloop : s.loop conf c steps = .error (.refused e)) :
    ∃ tick idleTicks, e = .noProgress tick idleTicks := by
  induction steps generalizing s with
  | zero =>
    unfold loop at hloop
    split at hloop <;> cases hloop
  | succ steps ih =>
    unfold loop at hloop
    split at hloop
    · cases hloop
    · split at hloop
      · next hstep =>
        cases hloop
        obtain ⟨f, -, hcount⟩ := exists_fill_of_refused hstep
        exact ⟨_, _, (countIdle_refused hcount).1⟩
      · exact ih hloop

/-- A circuit on known patches that is refused has its loop refused. -/
theorem exists_loop_of_refused {e : ScheduleError} (hknown : unknownQubit? b c = none)
    (h : c.schedule conf b rng = .error (.refused e)) :
    ∃ s, start conf c b rng = .ok s ∧ s.loop conf c (stepBound conf c) = .error (.refused e) := by
  unfold Circuit.schedule at h
  rw [hknown] at h
  cases hs : start conf c b rng with
  | error e =>
    rw [hs] at h
    cases h
  | ok s =>
    rw [hs] at h
    refine ⟨s, rfl, ?_⟩
    replace h : (s.loop conf c (stepBound conf c) >>= fun s =>
      if s.progress.isDone then pure (s.schedule, s.board)
      else throw (.fault .rotationsLeftOver)) = .error (.refused e) := h
    cases hloop : s.loop conf c (stepBound conf c) with
    | error e =>
      rw [hloop] at h
      cases h
      rfl
    | ok s' =>
      rw [hloop] at h
      replace h : (if s'.progress.isDone then (pure (s'.schedule, s'.board) :
        Except (Halt ScheduleError) (Schedule × Board))
        else throw (.fault .rotationsLeftOver)) = _ := h
      split at h <;> cases h

/-- A loop in range that stops with a fault has met a draw that causes it, or it has gone on for so
long that a count has left its range. -/
theorem Goes.fault {e : Fault} (hc : c.Numbered) (h : s.Sound conf c rng done)
    (hturn : conf.turnTicks < 2 ^ 31) (hrange : conf.tickReplenish + 1 < 2 ^ 31)
    (hgoes : Goes conf c s ss r) (hr : r = .error (.fault e)) :
    CanCause rng e ∨ RunsOut c s ss.length (ticksLeft conf c done s + 1) e := by
  induction hgoes generalizing done with
  | stops hempty => cases hr
  | halts hleft hstep =>
    cases hr
    have hcause := (step_ends hc h).of_error hstep hturn hrange
    exact hcause.imp_right fun hout => hout.mono (Nat.le_refl 1) (Nat.le_add_left 1 _)
  | ticks hleft hstep hrest ih =>
    obtain ⟨ps, b', hticks, h'⟩ := (step_ends hc h).of_ok hstep
    exact (ih h' hr).imp_right fun hout => RunsOut.before hc h hticks h' hrange hout

/-- A circuit is scheduled by the end of its loop. -/
theorem schedule_of_loop (hknown : unknownQubit? b c = none) (hs : start conf c b rng = .ok s)
    (hdone : ∀ s', s.loop conf c (stepBound conf c) = .ok s' → s'.progress.isDone = true) :
    c.schedule conf b rng =
      (s.loop conf c (stepBound conf c)).map fun s => (s.schedule, s.board) := by
  unfold Circuit.schedule
  rw [hknown, hs]
  show (s.loop conf c (stepBound conf c) >>= fun s =>
    if s.progress.isDone then pure (s.schedule, s.board)
    else throw (.fault .rotationsLeftOver)) = _
  cases hloop : s.loop conf c (stepBound conf c) with
  | error e => rfl
  | ok s' =>
    show (if s'.progress.isDone then _ else _) = _
    rw [if_pos (hdone s' hloop)]
    rfl

end Run

end LatticeSurgery
