import LatticeSurgery.Proofs.Schedule.Loop

/-!
# Waits for a refill

A tick waits for a refill when nothing but π/8 rotations could be done, no magic state is ready on the
board, and there is a factory that makes them (`Run.awaitsRefill`). A run that gives up has been idle
for one tick more than it puts up with, and a wait is not counted as idle, unless a storage is consumed
on the board: the packer is then asked all the same, since it may reset the storage
(`no_progress_iff`).
-/

namespace LatticeSurgery

open Ordered WordSource

namespace Run

variable {σ : Type} [WordSource σ] {conf : Configuration} {c : Circuit} {b : Board} {rng : σ}
  {s s' : Run σ} {pre ss : List (Run σ)}

/-! ## Ticks in which nothing is done -/

/-- What is done in the tick that begins in a state. -/
def assigned (conf : Configuration) (c : Circuit) (s : Run σ) : List Packed :=
  match s.fill conf c with
  | .ok f => f.assigned
  | .error _ => []

/-- The ticks in a row, from the last one back, in which nothing was done. -/
def idleStretch (conf : Configuration) (c : Circuit) (ss : List (Run σ)) : List (Run σ) :=
  ss.reverse.takeWhile fun s => (s.assigned conf c).isEmpty

/-- All candidates are π/8 rotations, no magic state is ready, neither on its own nor in a storage, and
there is a factory. -/
def awaitsRefill (c : Circuit) (s : Run σ) : Bool :=
  onlyPi8 (rotationsOf c s.candidates.toList) && (s.board.withStatus .magic .ready).isEmpty &&
    (s.board.withStatus .storage .ready).isEmpty && !s.factories.groups.isEmpty

/-- A storage has given its magic state away and was not reset yet. -/
def hasConsumed (s : Run σ) : Bool := !(s.board.withStatus .storage .consumed).isEmpty

/-- The ticks in a row in which nothing was done, apart from the waits for a refill. -/
def idleOutsideWaits (conf : Configuration) (c : Circuit) (ss : List (Run σ)) : List (Run σ) :=
  (idleStretch conf c ss).filter fun s => !s.awaitsRefill c

/-- The ticks in a row that were counted as idle: a wait counts when a storage is consumed. -/
def countedIdle (conf : Configuration) (c : Circuit) (ss : List (Run σ)) : List (Run σ) :=
  (idleStretch conf c ss).filter fun s => !s.awaitsRefill c || s.hasConsumed

theorem idleStretch_append (pre : List (Run σ)) (s : Run σ) : idleStretch conf c (pre ++ [s]) =
    if s.assigned conf c = [] then s :: idleStretch conf c pre else [] := by
  unfold idleStretch
  rw [List.reverse_append, List.reverse_singleton, List.singleton_append, List.takeWhile_cons]
  by_cases h : s.assigned conf c = []
  · rw [if_pos h, if_pos (List.isEmpty_iff.2 h)]
  · rw [if_neg h, if_neg (by rwa [List.isEmpty_iff])]

theorem countedIdle_of_busy (h : s.assigned conf c ≠ []) : countedIdle conf c (pre ++ [s]) = [] := by
  rw [countedIdle, idleStretch_append, if_neg h, List.filter_nil]

theorem length_countedIdle_of_idle (h : s.assigned conf c = []) :
    (countedIdle conf c (pre ++ [s])).length = (countedIdle conf c pre).length +
      if s.awaitsRefill c && !s.hasConsumed then 0 else 1 := by
  rw [countedIdle, idleStretch_append, if_pos h, List.filter_cons]
  cases s.awaitsRefill c <;> cases s.hasConsumed <;> simp [countedIdle]

/-! ## Filling a tick -/

omit [WordSource σ] in
theorem eq_of_rotationsAt {l : List Nat} {rs : List Rotation} (h : rotationsAt c l = .ok rs) :
    rs = rotationsOf c l := by
  induction l generalizing rs with
  | nil =>
    cases h
    rfl
  | cons i is ih =>
    unfold rotationsAt at h
    unfold rotationsOf
    rw [List.filterMap_cons]
    split at h
    · cases h
    · next r hr =>
      rw [hr]
      cases hrest : rotationsAt c is with
      | error e =>
        rw [hrest] at h
        cases h
      | ok rest =>
        rw [hrest] at h
        cases h
        exact congrArg (r :: ·) (ih hrest)

omit [WordSource σ] in
theorem onlyPi8_arrange (order : PackingOrder) (rs : List Rotation) :
    onlyPi8 (arrange order rs) = onlyPi8 rs :=
  List.Perm.all_eq (arrange_perm order rs)

theorem isEmpty_union (a b : SortedSet Node) : (a ∪ b).isEmpty = (a.isEmpty && b.isEmpty) := by
  rw [Bool.eq_iff_iff, Bool.and_eq_true, SortedSet.isEmpty_iff, SortedSet.isEmpty_iff,
    SortedSet.isEmpty_iff]
  simp only [SortedSet.mem_union, not_or]
  exact forall_and

theorem idleTicks_packOrReuse {available : SortedSet Node} {rotations : List Rotation}
    {r : List Packed × Run σ} (h : s.packOrReuse available rotations = .ok r) :
    r.2.idleTicks = s.idleTicks := by
  unfold packOrReuse at h
  dsimp only at h
  split at h
  · obtain ⟨packed, -, h⟩ := exists_of_bind_eq_ok h
    cases h
    rfl
  · obtain ⟨hits, -, h⟩ := exists_of_bind_eq_ok h
    obtain ⟨committed, -, h⟩ := exists_of_bind_eq_ok h
    cases h
    rfl

/-- A tick passes as a wait exactly when a refill is waited for and no storage is consumed. -/
theorem fill_spec {f : Filled σ} (h : s.fill conf c = .ok f) :
    f.run.idleTicks = s.idleTicks ∧
      (f.waiting && !f.run.factories.groups.isEmpty) = (s.awaitsRefill c && !s.hasConsumed) := by
  unfold fill at h
  obtain ⟨rotations, hrotations, h⟩ := exists_of_bind_eq_ok h
  obtain rfl := eq_of_rotationsAt hrotations
  set available := s.board.withStatus .magic .ready ∪ s.board.withStatus .storage .ready
    with havailable
  set s₀ : Run σ := { s with factories := (s.factories.takeStock s.board).2 } with hs₀
  replace h : (if (!s.hasConsumed && available.isEmpty && onlyPi8 (offered conf c s)) = true then
      (pure ⟨[], true, s₀⟩ : Except Fault (Filled σ))
    else s₀.packOrReuse available (offered conf c s) >>= fun r => pure ⟨r.1, false, r.2⟩) =
      .ok f := h
  have hwait : (s.awaitsRefill c && !s.hasConsumed) =
      ((!s.hasConsumed && available.isEmpty && onlyPi8 (offered conf c s)) &&
        !s.factories.groups.isEmpty) := by
    rw [awaitsRefill, havailable, isEmpty_union, offered, onlyPi8_arrange]
    ac_rfl
  rw [hwait]
  split at h
  · next hskip =>
    cases h
    rw [hskip, hs₀, (Factories.takeStock_setup s.factories s.board).groups]
    exact ⟨rfl, rfl⟩
  · next hskip =>
    rw [Bool.not_eq_true] at hskip
    obtain ⟨r, hpack, h⟩ := exists_of_bind_eq_ok h
    have hidle : r.2.idleTicks = s₀.idleTicks := idleTicks_packOrReuse hpack
    cases h
    rw [hskip]
    exact ⟨hidle, rfl⟩

/-! ## Counting idle ticks -/

omit [WordSource σ] in
theorem idleTicks_advance {ps : List Packed} (h : s.advance ps = .ok s') :
    s'.idleTicks = s.idleTicks := by
  unfold advance at h
  obtain ⟨r, -, h⟩ := exists_of_bind_eq_ok h
  obtain ⟨t, -, h⟩ := exists_of_bind_eq_ok h
  cases h
  rfl

/-- The idle ticks of a state are those that were counted before it, and they are put up with. -/
structure CountsUpTo (conf : Configuration) (c : Circuit) (pre : List (Run σ)) (s : Run σ) :
    Prop where
  count : s.idleTicks = (countedIdle conf c pre).length
  le : s.idleTicks ≤ conf.maxIdleTicks

/-- A tick keeps the count. -/
theorem CountsUpTo.step (h : CountsUpTo conf c pre s) (hstep : s.step conf c = .ok s') :
    CountsUpTo conf c (pre ++ [s]) s' := by
  obtain ⟨f, s₁, hfill, hcount, hadvance⟩ := exists_of_step_ok hstep
  obtain ⟨hidle, hwaiting⟩ := fill_spec hfill
  have hassigned : s.assigned conf c = f.assigned := by
    rw [assigned, hfill]
  have hafter : s'.idleTicks = s₁.idleTicks := idleTicks_advance hadvance
  unfold countIdle at hcount
  dsimp only at hcount
  split at hcount
  · next hempty =>
    have hlength : (countedIdle conf c (pre ++ [s])).length = _ :=
      length_countedIdle_of_idle (hassigned.trans (List.isEmpty_iff.1 hempty))
    rw [← hwaiting, ← h.count] at hlength
    split at hcount
    · next hwait =>
      cases hcount
      rw [if_pos hwait] at hlength
      have hle := h.le
      exact ⟨by omega, by omega⟩
    · next hwait =>
      rw [if_neg hwait] at hlength
      obtain ⟨idle, hplus, hcount⟩ := exists_of_bind_eq_ok hcount
      obtain ⟨rfl, -⟩ := (countPlus_ends _ _).of_ok (eq_ok_of_orHalt hplus)
      split at hcount
      · cases hcount
      · next hle =>
        cases hcount
        dsimp only at hafter
        exact ⟨by omega, by omega⟩
  · next hbusy =>
    cases hcount
    have hsome : s.assigned conf c ≠ [] := by
      rwa [hassigned, Ne, ← List.isEmpty_iff]
    refine ⟨?_, ?_⟩
    · rw [countedIdle_of_busy hsome, hafter]
      rfl
    · rw [hafter]
      exact Nat.zero_le _

/-- A loop that ends for want of progress counted one idle tick more than are put up with. -/
theorem Goes.counted {tick idleTicks : Nat} (h : CountsUpTo conf c pre s)
    (hgoes : Goes conf c s ss (.error (.refused (.noProgress tick idleTicks)))) :
    idleTicks = conf.maxIdleTicks + 1 ∧ (countedIdle conf c (pre ++ ss)).length = idleTicks := by
  generalize hr : (.error (.refused (.noProgress tick idleTicks)) :
    Except (Halt ScheduleError) (Run σ)) = r at hgoes
  induction hgoes generalizing pre with
  | stops hempty => cases hr
  | @halts s e hleft hstep =>
    cases hr
    obtain ⟨f, hfill, hcount⟩ := exists_fill_of_refused hstep
    obtain ⟨heq, hempty, hwait, hmore⟩ := countIdle_refused hcount
    obtain ⟨hidle, hwaiting⟩ := fill_spec hfill
    cases heq
    have hassigned : s.assigned conf c = [] := by
      rw [assigned, hfill]
      exact hempty
    have hlength : (countedIdle conf c (pre ++ [s])).length = _ :=
      length_countedIdle_of_idle hassigned
    rw [← hwaiting, hwait, ← h.count] at hlength
    have hle := h.le
    rw [hlength, hidle]
    rw [hidle] at hmore
    exact ⟨by omega, rfl⟩
  | ticks hleft hstep hrest ih =>
    have hnext := ih (h.step hstep) hr
    rwa [List.append_assoc] at hnext

/-! ## The run -/

/-- What is counted are the idle ticks outside of waits, and the waits during which a storage is
consumed. -/
theorem length_countedIdle (ss : List (Run σ)) : (countedIdle conf c ss).length =
    (idleOutsideWaits conf c ss).length +
      ((idleStretch conf c ss).filter fun s => s.awaitsRefill c && s.hasConsumed).length := by
  unfold countedIdle idleOutsideWaits
  induction idleStretch conf c ss with
  | nil => rfl
  | cons s ss ih =>
    simp only [List.filter_cons]
    cases s.awaitsRefill c <;> cases s.hasConsumed <;> simp <;> omega

/-- When one idle tick more was counted than is put up with, no wait among them means that the ticks
outside of waits are too many as well. -/
theorem lt_idleOutsideWaits_iff (h : (countedIdle conf c ss).length = conf.maxIdleTicks + 1) :
    conf.maxIdleTicks < (idleOutsideWaits conf c ss).length ↔
      ∀ s ∈ idleStretch conf c ss, s.awaitsRefill c = true → s.hasConsumed = false := by
  rw [length_countedIdle] at h
  have hnone : conf.maxIdleTicks < (idleOutsideWaits conf c ss).length ↔
      ((idleStretch conf c ss).filter fun s => s.awaitsRefill c && s.hasConsumed).length = 0 := by
    omega
  rw [hnone, List.length_eq_zero_iff, List.filter_eq_nil_iff]
  simp only [Bool.and_eq_true, not_and, Bool.not_eq_true]

/-- A circuit that is not scheduled for want of progress has its loop end so. -/
theorem exists_loop_of_noProgress {tick idleTicks : Nat}
    (h : c.schedule conf b rng = .error (.refused (.noProgress tick idleTicks))) :
    ∃ s, start conf c b rng = .ok s ∧
      s.loop conf c (stepBound conf c) = .error (.refused (.noProgress tick idleTicks)) := by
  refine exists_loop_of_refused ?_ h
  unfold Circuit.schedule at h
  split at h
  · cases h
  · assumption

theorem countsUpTo_start (hs : start conf c b rng = .ok s) : CountsUpTo conf c [] s := by
  unfold start at hs
  obtain ⟨factories, -, hs⟩ := exists_of_bind_eq_ok hs
  cases hs
  exact ⟨rfl, Nat.zero_le _⟩

end Run

/-- A circuit that is not scheduled for want of progress was idle for one tick more than is put up with,
waits for a refill with a consumed storage on the board included. So its idle ticks outside of waits
exceed what is put up with exactly when there was no such wait since the last tick in which something
was done. -/
theorem no_progress_iff {σ : Type} [WordSource σ] {c : Circuit} {conf : Configuration} {b : Board}
    {rng : σ} {tick idleTicks : Nat}
    (h : c.schedule conf b rng = .error (.refused (.noProgress tick idleTicks))) :
    ∃ s ss, Run.start conf c b rng = .ok s ∧
      Run.Goes conf c s ss (.error (.refused (.noProgress tick idleTicks))) ∧
      idleTicks = conf.maxIdleTicks + 1 ∧ (Run.countedIdle conf c ss).length = idleTicks ∧
      (conf.maxIdleTicks < (Run.idleOutsideWaits conf c ss).length ↔
        ∀ s ∈ Run.idleStretch conf c ss, s.awaitsRefill c = true → s.hasConsumed = false) := by
  obtain ⟨s, hs, hloop⟩ := Run.exists_loop_of_noProgress h
  have hgoes := Run.goes_of_loop hloop (by simp)
  obtain ⟨hidle, hlength⟩ := hgoes.counted (Run.countsUpTo_start hs)
  rw [List.nil_append] at hlength
  exact ⟨s, _, hs, hgoes, hidle, hlength, Run.lt_idleOutsideWaits_iff (hlength.trans hidle)⟩

/-- A data patch, a magic state and a storage at a row of bus tiles. -/
def storingRow : Layout where
  bus := SortedSet.ofList [⟨0, 0⟩, ⟨1, 0⟩, ⟨2, 0⟩]
  data := SortedSet.ofList [⟨0, 1⟩]
  magic := SortedSet.ofList [⟨1, -1⟩]
  zero := ∅
  storage := SortedSet.ofList [⟨2, -1⟩]

/-- Magic states are stored but storages are never reset, and one idle tick is put up with. -/
def storingOnly : Configuration :=
  { tickReplenish := 1, maxIdleTicks := 1, storeMagicStates := .beforePacking }

/-- A circuit of rotations of the first qubit as X. -/
def repeated (kind : RotationKind) (n : Nat) : Circuit :=
  Circuit.ofRotations "repeated"
    ((List.range n).map fun i => ⟨i, kind, .plus, SortedSet.ofList [0], ∅, ∅⟩) 1

/-- The states in which the ticks of the loop begin, if a circuit is not scheduled in the row for want
of progress. -/
def stuckInRow (c : Circuit) : Option (List (Run CyclicWords)) :=
  match Board.ofLayout storingRow with
  | .error _ => none
  | .ok b =>
    match Run.unknownQubit? b c, Run.start storingOnly c b ⟨[0], 0⟩ with
    | none, .ok s =>
      match s.loop storingOnly c (Run.stepBound storingOnly c) with
      | .error (.refused _) => some (Run.tickStarts storingOnly c (Run.stepBound storingOnly c) s)
      | _ => none
    | _, _ => none

theorem exists_of_stuckInRow {c : Circuit} {ss : List (Run CyclicWords)}
    (h : stuckInRow c = some ss) : ∃ b s tick idleTicks, Board.ofLayout storingRow = .ok b ∧
      c.schedule storingOnly b (⟨[0], 0⟩ : CyclicWords) =
        .error (.refused (.noProgress tick idleTicks)) ∧
        Run.start storingOnly c b (⟨[0], 0⟩ : CyclicWords) = .ok s ∧
          Run.Goes storingOnly c s ss (.error (.refused (.noProgress tick idleTicks))) := by
  unfold stuckInRow at h
  split at h
  · cases h
  · next b hb =>
    split at h
    · next s hknown hs =>
      split at h
      · next e hloop =>
        cases h
        obtain ⟨tick, idleTicks, rfl⟩ := Run.noProgress_of_loop hloop
        refine ⟨b, s, tick, idleTicks, hb, ?_, hs, Run.goes_of_loop hloop (by simp)⟩
        rw [Run.schedule_of_loop hknown hs (fun s' hok => by rw [hloop] at hok; cases hok), hloop]
        rfl
      · cases h
    · cases h

/-- Without a zero state, the first π/4 rotation is not done although no tick is a wait, so the idle
ticks outside of waits exceed what is put up with. -/
theorem storingRow_idle_outside_waits : ∃ b s ss tick idleTicks,
    Board.ofLayout storingRow = .ok b ∧
      (repeated .pi4 1).schedule storingOnly b (⟨[0], 0⟩ : CyclicWords) =
        .error (.refused (.noProgress tick idleTicks)) ∧
        Run.start storingOnly (repeated .pi4 1) b (⟨[0], 0⟩ : CyclicWords) = .ok s ∧
          Run.Goes storingOnly (repeated .pi4 1) s ss
            (.error (.refused (.noProgress tick idleTicks))) ∧
            storingOnly.maxIdleTicks <
              (Run.idleOutsideWaits storingOnly (repeated .pi4 1) ss).length := by
  have hrun : (stuckInRow (repeated .pi4 1)).any (fun ss => ss.all fun s => !s.hasConsumed) = true := by
    decide +kernel
  obtain ⟨ss, hfound⟩ : ∃ ss, stuckInRow (repeated .pi4 1) = some ss := ⟨_, rfl⟩
  rw [hfound, Option.any_some] at hrun
  obtain ⟨b, s, tick, idleTicks, hb, hschedule, hs, hgoes⟩ := exists_of_stuckInRow hfound
  obtain ⟨s', ss', hs', hgoes', -, -, hiff⟩ := no_progress_iff hschedule
  obtain rfl : s = s' := Except.ok.inj (hs.symm.trans hs')
  obtain ⟨rfl, -⟩ := hgoes.unique hgoes'
  refine ⟨b, s, ss', tick, idleTicks, hb, hschedule, hs, hgoes, hiff.2 fun s hs _ => ?_⟩
  have hmem : s ∈ ss' := List.mem_reverse.1 ((List.takeWhile_sublist _).subset hs)
  simpa using List.all_eq_true.1 hrun s hmem

/-- With a consumed storage on the board, a run gives up although it does nothing but wait for a
refill. -/
theorem storingRow_gives_up_waiting : ∃ b s ss tick idleTicks, Board.ofLayout storingRow = .ok b ∧
    (repeated .pi8 3).schedule storingOnly b (⟨[0], 0⟩ : CyclicWords) =
      .error (.refused (.noProgress tick idleTicks)) ∧
      Run.start storingOnly (repeated .pi8 3) b (⟨[0], 0⟩ : CyclicWords) = .ok s ∧
        Run.Goes storingOnly (repeated .pi8 3) s ss
          (.error (.refused (.noProgress tick idleTicks))) ∧
          ¬ storingOnly.maxIdleTicks <
            (Run.idleOutsideWaits storingOnly (repeated .pi8 3) ss).length := by
  have hrun : (stuckInRow (repeated .pi8 3)).any (fun ss =>
      (Run.idleOutsideWaits storingOnly (repeated .pi8 3) ss).isEmpty) = true := by decide +kernel
  obtain ⟨ss, hfound⟩ : ∃ ss, stuckInRow (repeated .pi8 3) = some ss := ⟨_, rfl⟩
  rw [hfound, Option.any_some] at hrun
  obtain ⟨b, s, tick, idleTicks, hb, hschedule, hs, hgoes⟩ := exists_of_stuckInRow hfound
  refine ⟨b, s, ss, tick, idleTicks, hb, hschedule, hs, hgoes, ?_⟩
  rw [List.isEmpty_iff.1 hrun]
  exact Nat.not_lt_zero _

end LatticeSurgery
