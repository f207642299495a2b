import LatticeSurgery.Packing.Packer
import LatticeSurgery.Proofs.Endings

/-!
# Counting failures

The outcome of a rotation is entered in either round of a tick: its packing is added to the others, or
its failure is counted. Nothing else can go wrong in this than that a count of failures leaves the range
of 32-bit numbers (`FailCounts.Overruns`). As each rotation raises one of the counts by one at most, this
takes a count that is closer to the end of the range than there are rotations.

What a round that goes on does at a rotation is said once (`FirstRound.Step`, `cases_of_secondRound`).
-/

namespace LatticeSurgery

variable {c c' : FailCounts} {k l : Nat} {e : Fault} {outcome : Outcome} {p : Packed}

namespace FailCounts

/-- None of the counts is raised by more than `more`. -/
def GrowsBy (c : FailCounts) (more : Nat) (c' : FailCounts) : Prop :=
  ∀ reason, c'.get reason ≤ c.get reason + more

/-- One of the counts leaves its range if it is raised by `more`. -/
def Overruns (c : FailCounts) (more : Nat) (e : Fault) : Prop :=
  e = .countOutOfRange ∧ ∃ reason, countLimit ≤ c.get reason + more

theorem GrowsBy.refl (c : FailCounts) : c.GrowsBy 0 c := fun _ => Nat.le_refl _

theorem GrowsBy.trans {c'' : FailCounts} (h : c.GrowsBy k c') (h' : c'.GrowsBy l c'') :
    c.GrowsBy (k + l) c'' := by
  intro reason
  have hfirst := h reason
  have hsecond := h' reason
  omega

theorem GrowsBy.mono (h : c.GrowsBy k c') (hkl : k ≤ l) : c.GrowsBy l c' := by
  intro reason
  have hgrows := h reason
  omega

theorem Overruns.mono (h : c.Overruns k e) (hkl : k ≤ l) : c.Overruns l e := by
  obtain ⟨he, reason, hreason⟩ := h
  exact ⟨he, reason, by omega⟩

/-- What a later count cannot take, the earlier one cannot take on top of what happened since. -/
theorem Overruns.of_growsBy (h : c'.Overruns l e) (hgrows : c.GrowsBy k c') : c.Overruns (k + l) e := by
  obtain ⟨he, reason, hreason⟩ := h
  have hle := hgrows reason
  exact ⟨he, reason, by omega⟩

/-- A failure raises the count for its reason by one, unless that one is at the end of its range. -/
theorem record_ends (c : FailCounts) (r : FailReason) :
    Ends (c.record r) (c.Overruns 1)
      fun c' => ∀ reason, c'.get reason = c.get reason + if reason = r then 1 else 0 := by
  refine Ends.bind ((countPlus_ends (c.get r) 1).mono (fun e he => ?_) fun _ h => h) ?_
  · exact ⟨he.1, r, he.2⟩
  · rintro n ⟨rfl, -⟩ reason
    rw [get_set]
    by_cases hreason : reason = r
    · rw [if_pos hreason, if_pos hreason, hreason]
    · rw [if_neg hreason, if_neg hreason, Nat.add_zero]

theorem foldlM_countPlus_ends (ns : List Nat) (n : Nat) (hn : n < countLimit) :
    Ends (ns.foldlM countPlus n)
      (fun e => e = .countOutOfRange ∧ countLimit ≤ n + ns.foldr (· + ·) 0)
      fun m => m = n + ns.foldr (· + ·) 0 ∧ m < countLimit := by
  induction ns generalizing n with
  | nil => exact ⟨rfl, hn⟩
  | cons more ns ih =>
    rw [List.foldlM_cons, List.foldr_cons, ← Nat.add_assoc]
    refine Ends.bind ((countPlus_ends n more).mono (fun e he => ?_) fun _ h => h) ?_
    · exact ⟨he.1, Nat.le_trans he.2 (Nat.le_add_right _ _)⟩
    · rintro m ⟨rfl, hm⟩
      exact ih _ hm

theorem sum_le_of_get_le (h : ∀ reason, c.get reason ≤ c'.get reason) : c.sum ≤ c'.sum := by
  simp only [sum, FailReason.all, List.map_cons, List.map_nil, List.foldr_cons, List.foldr_nil]
  have h₁ := h .qubitCannotTurn
  have h₂ := h .qubitDisconnected
  have h₃ := h .steinerTreeNotFound
  have h₄ := h .noResourceInSubgraph
  have h₅ := h .noPathToMagicState
  have h₆ := h .noPathToZeroState
  omega

/-- The counts are added up to their sum, unless the sum is out of range. -/
theorem total_ends (c : FailCounts) :
    Ends c.total (fun e => e = .countOutOfRange ∧ countLimit ≤ c.sum)
      fun n => n = c.sum ∧ n < countLimit := by
  have hends := foldlM_countPlus_ends (FailReason.all.map c.get) 0 (by decide)
  rw [Nat.zero_add] at hends
  exact hends

theorem total_of_lt (h : c.sum < countLimit) : c.total = .ok c.sum := by
  have hends := c.total_ends
  cases htotal : c.total with
  | ok n => exact congrArg Except.ok (hends.of_ok htotal).1
  | error e => exact absurd h (Nat.not_lt.2 (hends.of_error htotal).2)

end FailCounts

/-! ## Outcomes -/

namespace Outcome

/-- The packing of an outcome, if it has one. -/
def packings : Outcome → List Packed
  | packed p => [p]
  | _ => []

/-- Whether the outcome is a failure for the reason. -/
def isFailed (reason : FailReason) : Outcome → Bool
  | failed r => decide (r = reason)
  | _ => false

/-- The counts after the outcome. -/
def count (c : FailCounts) : Outcome → Except Fault FailCounts
  | failed reason => c.record reason
  | _ => .ok c

@[simp]
theorem mem_packings : p ∈ outcome.packings ↔ outcome = .packed p := by
  cases outcome <;> simp [packings, eq_comm]

theorem packings_eq_nil (h : ∀ p, outcome ≠ .packed p) : outcome.packings = [] := by
  cases outcome with
  | packed p => exact absurd rfl (h p)
  | failed reason => rfl
  | deferred => rfl

theorem count_ends (c : FailCounts) (outcome : Outcome) :
    Ends (outcome.count c) (c.Overruns 1)
      fun c' => ∀ reason, c'.get reason = c.get reason + if outcome.isFailed reason then 1 else 0 := by
  cases outcome with
  | packed p => exact fun _ => rfl
  | deferred => exact fun _ => rfl
  | failed r =>
    refine (c.record_ends r).mono (fun _ h => h) fun c' hc' reason => ?_
    rw [hc' reason]
    by_cases hr : r = reason
    · rw [isFailed, if_pos hr.symm, if_pos (decide_eq_true hr)]
    · rw [isFailed, if_neg (Ne.symm hr), if_neg (by simpa using hr)]

theorem growsBy_of_count (h : outcome.count c = .ok c') : c.GrowsBy 1 c' := by
  intro reason
  rw [(outcome.count_ends c).of_ok h reason]
  split <;> omega

end Outcome

/-! ## Entering an outcome -/

/-- The desk when an outcome is entered: what is packed takes its nodes out of the working copy, and the
failures are counted anew. -/
def Desk.enter (outcome : Outcome) (fails : FailCounts) (d : Desk) : Desk :=
  { d with
    working :=
      match outcome with
      | .packed p => d.working.removeNodes p.tree.nodes
      | _ => d.working
    packer := { d.packer with fails := fails } }

namespace Packer

variable {σ : Type} {s s' : FirstRound σ} {packed packed' : List Packed} {d d' : Desk}

theorem FirstRound.settle_eq (outcome : Outcome) (s : FirstRound σ) :
    FirstRound.settle outcome s = (outcome.count s.fails).map fun fails =>
      { s with packed := s.packed ++ outcome.packings, fails := fails } := by
  cases outcome with
  | packed p => rfl
  | deferred => simp [FirstRound.settle, Outcome.count, Outcome.packings, Except.map]
  | failed reason =>
    simp only [Outcome.packings, List.append_nil]
    rfl

/-- An outcome is entered unless one of the counts is at the end of its range. -/
theorem FirstRound.settle_ends (outcome : Outcome) (s : FirstRound σ) :
    Ends (FirstRound.settle outcome s) (s.fails.Overruns 1) fun s' =>
      ∃ fails, s.fails.GrowsBy 1 fails ∧
        s' = { s with packed := s.packed ++ outcome.packings, fails := fails } := by
  rw [FirstRound.settle_eq]
  refine (outcome.count_ends s.fails).and_eq_ok.map fun fails hfails => ?_
  exact ⟨fails, Outcome.growsBy_of_count hfails.2, rfl⟩

theorem FirstRound.exists_of_settle (h : FirstRound.settle outcome s = .ok s') :
    ∃ fails, outcome.count s.fails = .ok fails ∧
      s' = { s with packed := s.packed ++ outcome.packings, fails := fails } := by
  rw [FirstRound.settle_eq] at h
  obtain ⟨fails, hcount, heq⟩ := exists_of_map_eq_ok h
  exact ⟨fails, hcount, heq.symm⟩

theorem settle_eq (outcome : Outcome) (packed : List Packed) (d : Desk) :
    settle outcome packed d = (outcome.count d.packer.fails).map fun fails =>
      (packed ++ outcome.packings, d.enter outcome fails) := by
  cases outcome with
  | packed p => rfl
  | deferred => simp [settle, Outcome.count, Outcome.packings, Except.map, Desk.enter]
  | failed reason =>
    simp only [Outcome.packings, List.append_nil]
    rfl

theorem settle_ends (outcome : Outcome) (packed : List Packed) (d : Desk) :
    Ends (settle outcome packed d) (d.packer.fails.Overruns 1) fun s =>
      ∃ fails, d.packer.fails.GrowsBy 1 fails ∧
        s = (packed ++ outcome.packings, d.enter outcome fails) := by
  rw [settle_eq]
  refine (outcome.count_ends d.packer.fails).and_eq_ok.map fun fails hfails => ?_
  exact ⟨fails, Outcome.growsBy_of_count hfails.2, rfl⟩

theorem exists_of_settle (h : settle outcome packed d = .ok (packed', d')) :
    ∃ fails, outcome.count d.packer.fails = .ok fails ∧ packed' = packed ++ outcome.packings ∧
      d' = d.enter outcome fails := by
  rw [settle_eq] at h
  obtain ⟨fails, hcount, heq⟩ := exists_of_map_eq_ok h
  cases heq
  exact ⟨fails, hcount, rfl, rfl⟩

/-! ## Going on with a round -/

/-- What the first round does at a rotation. -/
inductive FirstRound.Step [WordSource σ] (turnTicks : Int) (busy : SortedSet Nat) (magicFree : Bool)
    (r : Rotation) : FirstRound σ → FirstRound σ → Prop
  | defer {s : FirstRound σ} (htriage : triage busy magicFree r = .defer) :
    Step turnTicks busy magicFree r s s
  | alone {s : FirstRound σ} {tree : Tree} (htriage : triage busy magicFree r = .alone tree) :
    Step turnTicks busy magicFree r s { s with packed := s.packed ++ [⟨r, tree, none⟩] }
  | route {s : FirstRound σ} (htriage : triage busy magicFree r = .route) :
    Step turnTicks busy magicFree r s { s with remaining := s.remaining ++ [r] }
  | turn {s : FirstRound σ} {outcome : Outcome} {b : Board} {f : Factories} {rng : σ}
    {fails : FailCounts} (htriage : triage busy magicFree r = .turn)
    (hturn : packTurn turnTicks r s.board s.factories s.rng = .ok (outcome, b, f, rng))
    (hcount : outcome.count s.fails = .ok fails) :
    Step turnTicks busy magicFree r s
      { s with
        packed := s.packed ++ outcome.packings, board := b, factories := f, fails := fails, rng := rng }

/-- The first round goes on after each rotation. -/
theorem FirstRound.exists_step [WordSource σ] {turnTicks : Int} {busy : SortedSet Nat}
    {magicFree : Bool} {r : Rotation} {rs : List Rotation}
    (h : firstRound turnTicks busy magicFree (r :: rs) s = .ok s') :
    ∃ s₁, Step turnTicks busy magicFree r s s₁ ∧
      firstRound turnTicks busy magicFree rs s₁ = .ok s' := by
  unfold firstRound at h
  cases htriage : triage busy magicFree r with
  | defer =>
    rw [htriage] at h
    exact ⟨s, .defer htriage, h⟩
  | alone tree =>
    rw [htriage] at h
    exact ⟨_, .alone htriage, h⟩
  | route =>
    rw [htriage] at h
    exact ⟨_, .route htriage, h⟩
  | turn =>
    rw [htriage] at h
    obtain ⟨⟨outcome, b, f, rng⟩, hturn, h⟩ := exists_of_bind_eq_ok h
    obtain ⟨s₁, hsettle, h⟩ := exists_of_bind_eq_ok h
    obtain ⟨fails, hcount, rfl⟩ := FirstRound.exists_of_settle hsettle
    exact ⟨_, .turn htriage hturn hcount, h⟩

/-- The second round passes over a rotation that needs a magic state when none is left. Otherwise it
enters the outcome of routing the rotation and goes on. -/
theorem cases_of_secondRound {r : Rotation} {rs : List Rotation} {result : List Packed × Desk}
    (h : secondRound (r :: rs) packed d = .ok result) :
    ((r.kind = .pi8 ∧ d.stock.magic.isEmpty = true) ∧ secondRound rs packed d = .ok result) ∨
      (¬ (r.kind = .pi8 ∧ d.stock.magic.isEmpty = true) ∧ ∃ outcome d₁ fails,
        packRotation r d = .ok (outcome, d₁) ∧ outcome.count d₁.packer.fails = .ok fails ∧
          secondRound rs (packed ++ outcome.packings) (d₁.enter outcome fails) = .ok result) := by
  unfold secondRound at h
  by_cases hskip : r.kind = .pi8 ∧ d.stock.magic.isEmpty = true
  · rw [if_pos hskip] at h
    exact Or.inl ⟨hskip, h⟩
  · rw [if_neg hskip] at h
    obtain ⟨⟨outcome, d₁⟩, hrotation, h⟩ := exists_of_bind_eq_ok h
    obtain ⟨⟨packed₁, d₂⟩, hsettle, h⟩ := exists_of_bind_eq_ok h
    obtain ⟨fails, hcount, rfl, rfl⟩ := exists_of_settle hsettle
    exact Or.inr ⟨hskip, outcome, d₁, fails, hrotation, hcount, h⟩

end Packer

end LatticeSurgery
