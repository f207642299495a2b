import LatticeSurgery.Proofs.Packing.Queries
import LatticeSurgery.Proofs.Packing.Rounds
import LatticeSurgery.Proofs.Packing.Soundness

/-!
# One outcome for each rotation

A tick goes through its rotations in two rounds (`Packer.FirstStep`, `Packer.SecondStep`). The first one
leaves some of them to the second one, and every other rotation has one outcome in one of the rounds:
it is packed, or one counter is raised by one, or it is put off, and this only if it has no boundary, if
one of its patches is busy, or if it is a π/8 rotation for which no magic state is left
(`Packer.pack_accounts`).

What is left of the magic states follows from the outcomes: each π/8 rotation that is packed takes one of
them, and nothing else does (`Packer.Reports`).
-/

namespace LatticeSurgery

open Ordered WordSource

/-! ## Outcomes -/

namespace Outcome

/-- The rotation is packed with this magic state or storage. -/
def Takes (o : Outcome) (n : Node) : Prop :=
  ∃ p, o = .packed p ∧ p.resource = some (Packer.magicResource n)

/-- What the outcome for a rotation enters: its packing is added, or its failure is counted. -/
structure Enters (o : Outcome) (r : Rotation) (packed packed' : List Packed)
    (fails fails' : FailCounts) : Prop where
  packed : packed' = packed ++ o.packings
  own : ∀ p ∈ o.packings, p.rotation = r
  fails : o.count fails = .ok fails'

variable {o : Outcome} {n : Node} {p : Packed}

theorem not_takes (h : ∀ p, o ≠ .packed p) : ¬ o.Takes n := fun ⟨p, hp, _⟩ => h p hp

theorem takes_packed : (packed p).Takes n ↔ p.resource = some (Packer.magicResource n) :=
  ⟨fun ⟨_, hp, hn⟩ => Outcome.packed.inj hp ▸ hn, fun hn => ⟨p, rfl, hn⟩⟩

/-- An outcome is a packing, or a failure for one reason, or neither. -/
theorem sum_isFailed (o : Outcome) : (FailReason.all.map fun reason =>
    if o.isFailed reason then 1 else 0).sum + o.packings.length ≤ 1 := by
  cases o with
  | packed p => exact le_of_eq rfl
  | deferred => exact Nat.zero_le 1
  | failed r => cases r <;> exact le_of_eq rfl

end Outcome

namespace Packer

variable {σ : Type} [WordSource σ] {b b' b₀ : Board} {f f' : Factories} {rng rng' : σ} {p : Packer}
  {r : Rotation} {rs rotations : List Rotation} {d d' : Desk} {outcome : Outcome}
  {packed packed' : List Packed} {turnTicks : Int}

/-! ## Routing a rotation -/

theorem magicResource_injective {n m : Node} (h : magicResource n = magicResource m) : n = m := by
  unfold magicResource at h
  split at h <;> split at h <;> cases h <;> rfl

/-- What routing a rotation reports: whatever is packed is the rotation, nothing is counted yet, and of
the magic states only the one that is taken is gone. -/
structure Reports (r : Rotation) (o : Outcome) (d d' : Desk) : Prop where
  own : ∀ p, o = .packed p → p.rotation = r
  fails : d'.packer.fails = d.packer.fails
  magic : ∀ n, n ∈ d'.stock.magic ↔ n ∈ d.stock.magic ∧ ¬ o.Takes n

theorem reports_unpacked (h : ∀ p, outcome ≠ .packed p) : Reports r outcome d d :=
  ⟨fun p hp => absurd hp (h p), rfl, fun _ => (and_iff_left (Outcome.not_takes h)).symm⟩

theorem Reports.of_same {d₁ : Desk} (h : Reports r outcome d₁ d')
    (hfails : d₁.packer.fails = d.packer.fails) (hstock : d₁.stock = d.stock) :
    Reports r outcome d d' :=
  ⟨h.own, hfails ▸ h.fails, hstock ▸ h.magic⟩

/-- A packing without a magic state takes none. -/
theorem reports_packed {q : Packed} (hq : q.rotation = r)
    (hresource : ∀ n, q.resource ≠ some (magicResource n)) (hfails : d'.packer.fails = d.packer.fails)
    (hmagic : d'.stock.magic = d.stock.magic) : Reports r (.packed q) d d' := by
  refine ⟨fun p hp => Outcome.packed.inj hp ▸ hq, hfails, fun n => ?_⟩
  rw [hmagic, Outcome.takes_packed, and_iff_left (hresource n)]

theorem magicResource_ne_zeroState (n : Node) (id : Nat) :
    some (Resource.zeroState id) ≠ some (magicResource n) := by
  unfold magicResource
  split <;> simp

/-- Of the resource states, one that is taken leaves the stock. -/
theorem Supplies.reports (h : Supplies r d outcome d') : Reports r outcome d d' := by
  cases h with
  | failed => exact reports_unpacked (by simp)
  | deferred => exact reports_unpacked (by simp)
  | magic =>
    refine ⟨fun p hp => Outcome.packed.inj hp ▸ rfl, rfl, fun n => ?_⟩
    rw [SortedSet.mem_erase, Outcome.takes_packed, Option.some.injEq]
    refine and_congr_right fun _ => not_congr ⟨fun heq => heq ▸ rfl, magicResource_injective⟩
  | zero => exact reports_packed rfl (fun n => magicResource_ne_zeroState n _) rfl rfl

/-- Connecting boundaries counts nothing. -/
theorem reports_of_connectQubits {terminals : List Node} {found : Option Tree}
    (h : connectQubits r terminals d = .ok (found, d')) :
    d'.packer.fails = d.packer.fails ∧ d'.stock = d.stock := by
  obtain ⟨packer, hsame, rfl⟩ := frame_of_connectQubits h
  exact ⟨hsame.fails, rfl⟩

theorem Finishes.reports {qubits : Option Tree} {anchor : Node} (hkind : r.kind ≠ .turn)
    (h : Finishes r qubits anchor d outcome d') : Reports r outcome d d' ∧ outcome ≠ .deferred := by
  cases h with
  | measured => exact ⟨reports_packed rfl (by simp) rfl rfl, by simp⟩
  | beside _ _ h => exact ⟨(supplies_of_packBesideZeroState h).reports, by simp⟩
  | resource hmeasured h =>
    have hsupplies := supplies_of_packResource h
    refine ⟨hsupplies.reports, ?_⟩
    rintro rfl
    cases hsupplies with | deferred hk => exact hk.elim hmeasured hkind

/-- A rotation is put off in the second round only if it has no boundary. -/
theorem reports_of_packRotation (hkind : r.kind ≠ .turn)
    (h : packRotation r d = .ok (outcome, d')) :
    Reports r outcome d d' ∧ (outcome = .deferred ↔ r.activeNodes.toList = []) := by
  cases routing_of_packRotation h with
  | deferred hnone => exact ⟨reports_unpacked (by simp), by simp [hnone]⟩
  | shut hsome => exact ⟨reports_unpacked (by simp), by simp [hsome]⟩
  | single hnodes h =>
    obtain ⟨hreports, hnot⟩ := h.reports hkind
    exact ⟨hreports, by simp [hnot, hnodes]⟩
  | unconnected hseveral hconnect =>
    have hsome : r.activeNodes.toList ≠ [] := List.ne_nil_of_length_pos (by omega)
    obtain ⟨hfails, hstock⟩ := reports_of_connectQubits hconnect
    exact ⟨(reports_unpacked (by simp)).of_same hfails hstock, by simp [hsome]⟩
  | connected hseveral _ hconnect h =>
    have hsome : r.activeNodes.toList ≠ [] := List.ne_nil_of_length_pos (by omega)
    obtain ⟨hfails, hstock⟩ := reports_of_connectQubits hconnect
    obtain ⟨hreports, hnot⟩ := h.reports hkind
    exact ⟨hreports.of_same hfails hstock, by simp [hnot, hsome]⟩

/-- Of the turns that are packed at once, one is put off only if it has no boundary. -/
theorem reports_of_packTurn (h : packTurn turnTicks r b f rng = .ok (outcome, b', f', rng')) :
    (∀ q, outcome = .packed q → q.rotation = r) ∧ (∀ n, ¬ outcome.Takes n) ∧
      (outcome = .deferred ↔ r.activeNodes.toList = []) := by
  unfold packTurn at h
  split at h
  · next hnone =>
    cases h
    exact ⟨by simp, fun n => Outcome.not_takes (by simp), by simp [hnone]⟩
  · next edge rest hnodes =>
    dsimp only at h
    obtain ⟨⟨drawn, rng₁⟩, -, h⟩ := exists_of_bind_eq_ok h
    cases drawn with
    | none =>
      cases h
      exact ⟨by simp, fun n => Outcome.not_takes (by simp), by simp [hnodes]⟩
    | some bus =>
      obtain ⟨⟨b₁, f₁⟩, -, h⟩ := exists_of_bind_eq_ok h
      cases h
      refine ⟨fun q hq => Outcome.packed.inj hq ▸ rfl, fun n => ?_, by simp [hnodes]⟩
      rw [Outcome.takes_packed]
      unfold magicResource
      split <;> simp

/-! ## Rounds, step by step -/

/-- A round goes through rotations one by one; `Step r v s s'` says what it does at one of them, with
the value `v` that belongs to the rotation. -/
inductive Passes {V S : Type} (Step : Rotation → V → S → S → Prop) : List (Rotation × V) → S → S → Prop
  /-- There are no rotations left. -/
  | nil (s : S) : Passes Step [] s s
  /-- A rotation, and the rotations after it. -/
  | cons {r : Rotation} {v : V} {vs : List (Rotation × V)} {s s₁ s' : S} (hstep : Step r v s s₁)
      (rest : Passes Step vs s₁ s') : Passes Step ((r, v) :: vs) s s'

/-- How a round enters outcomes, if each of its steps enters one. -/
theorem Passes.enters {V S : Type} {Step : Rotation → V → S → S → Prop} {vs : List (Rotation × V)}
    {s s' : S} (h : Passes Step vs s s') (outcomeOf : V → Outcome) (packedOf : S → List Packed)
    (failsOf : S → FailCounts) (hstep : ∀ r v s s', Step r v s s' →
      (outcomeOf v).Enters r (packedOf s) (packedOf s') (failsOf s) (failsOf s')) :
    packedOf s' = packedOf s ++ vs.flatMap (fun e => (outcomeOf e.2).packings) ∧
    (∀ e ∈ vs, ∀ p ∈ (outcomeOf e.2).packings, p.rotation = e.1) ∧
    ∀ reason, (failsOf s').get reason = (failsOf s).get reason +
      vs.countP fun e => (outcomeOf e.2).isFailed reason := by
  induction h with
  | nil s => simp
  | @cons r v vs s s₁ s' hone _ ih =>
    obtain ⟨hpacked, hown, hfails⟩ := ih
    have henters := hstep r v s s₁ hone
    refine ⟨?_, List.forall_mem_cons.2 ⟨henters.own, hown⟩, fun reason => ?_⟩
    · rw [hpacked, henters.packed, List.flatMap_cons, List.append_assoc]
    · rw [hfails, ((outcomeOf v).count_ends _).of_ok henters.fails, List.countP_cons]
      exact (Nat.add_assoc _ _ _).trans (congrArg _ (Nat.add_comm _ _))

/-! ### The first round -/

variable {busy : SortedSet Nat} {magicFree : Bool} {s s' : FirstRound σ} {v : Option Outcome}

/-- The first round at one rotation: the rotation is left for the second round (`none`), or it has an
outcome. -/
structure FirstStep (turnTicks : Int) (busy : SortedSet Nat) (magicFree : Bool) (r : Rotation)
    (v : Option Outcome) (s s' : FirstRound σ) : Prop where
  /-- It is the first round that does this. -/
  step : firstRound turnTicks busy magicFree [r] s = .ok s'
  remaining : s'.remaining = s.remaining ++ if v.isNone then [r] else []
  enters : (v.getD .deferred).Enters r s.packed s'.packed s.fails s'.fails
  /-- What is to be routed is left for the second round. -/
  routed : v = none ↔ triage busy magicFree r = .route
  /-- What is put off, and what cannot turn because it has no boundary. -/
  deferred : v = some .deferred ↔ triage busy magicFree r = .defer ∨
    triage busy magicFree r = .turn ∧ r.activeNodes.toList = []
  /-- No magic state is taken. -/
  untaken : ∀ n, ¬ (v.getD .deferred).Takes n

theorem firstRound_cons_eq_ok : firstRound turnTicks busy magicFree (r :: rs) s = .ok s' ↔
    ∃ s₁, firstRound turnTicks busy magicFree [r] s = .ok s₁ ∧
      firstRound turnTicks busy magicFree rs s₁ = .ok s' := by
  rw [firstRound, firstRound]
  cases triage busy magicFree r with
  | defer => simp [firstRound]
  | alone tree => simp [firstRound]
  | route => simp [firstRound]
  | turn =>
    cases packTurn turnTicks r s.board s.factories s.rng with
    | error e => simp [bind, Except.bind]
    | ok t =>
      simp only [bind, Except.bind, firstRound]
      cases FirstRound.settle t.1 _ <;> simp

/-- At each rotation, the first round does one of these things. -/
theorem exists_firstStep (h : firstRound turnTicks busy magicFree [r] s = .ok s') :
    ∃ v, FirstStep turnTicks busy magicFree r v s s' := by
  obtain ⟨s₁, hstep, hrest⟩ := FirstRound.exists_step h
  cases hrest
  cases hstep with
  | defer htriage =>
    exact ⟨some .deferred, h, by simp, ⟨by simp [Outcome.packings], by simp, rfl⟩,
      by simp [htriage], by simp [htriage], fun n => Outcome.not_takes (by simp)⟩
  | @alone tree htriage =>
    refine ⟨some (.packed ⟨r, tree, none⟩), h, by simp, ⟨rfl, by simp, rfl⟩, by simp [htriage],
      by simp [htriage], fun n => ?_⟩
    exact Outcome.takes_packed.not.2 (by simp)
  | route htriage =>
    exact ⟨none, h, rfl, ⟨by simp [Outcome.packings], by simp, rfl⟩, by simp [htriage],
      by simp [htriage], fun n => Outcome.not_takes (by simp)⟩
  | @turn outcome _ _ _ _ htriage hturn hcount =>
    obtain ⟨hown, huntaken, hdeferred⟩ := reports_of_packTurn hturn
    exact ⟨some outcome, h, by simp, ⟨rfl, fun p hp => hown p (Outcome.mem_packings.1 hp), hcount⟩,
      by simp [htriage], by simp [htriage, hdeferred], huntaken⟩

theorem exists_firstPasses (h : firstRound turnTicks busy magicFree rs s = .ok s') :
    ∃ verdicts, verdicts.map Prod.fst = rs ∧
      Passes (FirstStep turnTicks busy magicFree) verdicts s s' := by
  induction rs generalizing s with
  | nil =>
    cases h
    exact ⟨[], rfl, .nil _⟩
  | cons r rs ih =>
    obtain ⟨s₁, hone, hrest⟩ := firstRound_cons_eq_ok.1 h
    obtain ⟨v, hstep⟩ := exists_firstStep hone
    obtain ⟨verdicts, rfl, hpasses⟩ := ih hrest
    exact ⟨(r, v) :: verdicts, rfl, .cons hstep hpasses⟩

/-- The rotations that the first round leaves for the second one. -/
theorem remaining_of_passes {verdicts : List (Rotation × Option Outcome)}
    (h : Passes (FirstStep turnTicks busy magicFree) verdicts s s') :
    s'.remaining = s.remaining ++ (verdicts.filter fun e => e.2.isNone).map Prod.fst := by
  induction h with
  | nil s => simp
  | @cons r v vs s s₁ s' hstep _ ih =>
    rw [ih, hstep.remaining, List.append_assoc]
    cases v <;> simp

/-! ### The second round -/

/-- The second round at one rotation. -/
structure SecondStep (r : Rotation) (o : Outcome) (s s' : List Packed × Desk) : Prop where
  /-- It is the second round that does this. -/
  step : secondRound [r] s.1 s.2 = .ok s'
  enters : o.Enters r s.1 s'.1 s.2.packer.fails s'.2.packer.fails
  /-- The rotation is put off if it has no boundary, or if it needs a magic state and none is left. -/
  deferred : o = .deferred ↔ r.activeNodes.toList = [] ∨ r.kind = .pi8 ∧ ∀ n, n ∉ s.2.stock.magic
  /-- The magic states that are left. -/
  magic : ∀ n, n ∈ s'.2.stock.magic ↔ n ∈ s.2.stock.magic ∧ ¬ o.Takes n

theorem secondRound_cons_eq_ok : secondRound (r :: rs) packed d = .ok (packed', d') ↔
    ∃ s₁ : List Packed × Desk, secondRound [r] packed d = .ok s₁ ∧
      secondRound rs s₁.1 s₁.2 = .ok (packed', d') := by
  rw [secondRound, secondRound]
  split
  · simp [secondRound]
  · cases packRotation r d with
    | error e => simp [bind, Except.bind]
    | ok t =>
      simp only [bind, Except.bind, secondRound]
      cases settle t.1 packed t.2 <;> simp

/-- At each rotation that is routed, the second round has an outcome. -/
theorem exists_secondStep (hkind : r.kind ≠ .turn) {s' : List Packed × Desk}
    (h : secondRound [r] packed d = .ok s') : ∃ o, SecondStep r o (packed, d) s' := by
  rcases cases_of_secondRound h with ⟨hnone, hrest⟩ | ⟨hsome, outcome, d₁, fails, hrotation, hcount,
    hrest⟩
  · cases hrest
    refine ⟨.deferred, h, ⟨by simp [Outcome.packings], by simp, rfl⟩, ?_,
      fun n => (and_iff_left (Outcome.not_takes (by simp))).symm⟩
    exact iff_of_true rfl (Or.inr ⟨hnone.1, SortedSet.isEmpty_iff.1 hnone.2⟩)
  · cases hrest
    obtain ⟨hreports, hdeferred⟩ := reports_of_packRotation hkind hrotation
    have hstock : ¬ (r.kind = .pi8 ∧ ∀ n, n ∉ d.stock.magic) :=
      mt (And.imp_right SortedSet.isEmpty_iff.2) hsome
    rw [hreports.fails] at hcount
    refine ⟨outcome, h, ⟨rfl, fun p hp => hreports.own p (Outcome.mem_packings.1 hp), hcount⟩, ?_,
      hreports.magic⟩
    rw [hdeferred, or_iff_left hstock]

theorem exists_secondPasses (hkind : ∀ r ∈ rs, r.kind ≠ .turn)
    (h : secondRound rs packed d = .ok (packed', d')) :
    ∃ routed, routed.map Prod.fst = rs ∧ Passes SecondStep routed (packed, d) (packed', d') := by
  induction rs generalizing packed d with
  | nil =>
    cases h
    exact ⟨[], rfl, .nil _⟩
  | cons r rs ih =>
    obtain ⟨hk, hkind⟩ := List.forall_mem_cons.1 hkind
    obtain ⟨⟨packed₁, d₁⟩, hone, hrest⟩ := secondRound_cons_eq_ok.1 h
    obtain ⟨o, hstep⟩ := exists_secondStep hk hone
    obtain ⟨routed, rfl, hpasses⟩ := ih hkind hrest
    exact ⟨(r, o) :: routed, rfl, .cons hstep hpasses⟩

/-! ## Both rounds -/

/-- The entries of a tick: what the first round leaves open is filled in by the second one, in order. -/
inductive Fills : List (Rotation × Option Outcome) → List (Rotation × Outcome) →
    List (Rotation × Outcome) → Prop
  /-- There are no rotations left. -/
  | nil : Fills [] [] []
  /-- The first round has the outcome. -/
  | settled {verdicts routed entries} {r : Rotation} {o : Outcome}
      (rest : Fills verdicts routed entries) :
      Fills ((r, some o) :: verdicts) routed ((r, o) :: entries)
  /-- The second round has it. -/
  | routed {verdicts routed entries} {r : Rotation} {o : Outcome}
      (rest : Fills verdicts routed entries) :
      Fills ((r, none) :: verdicts) ((r, o) :: routed) ((r, o) :: entries)

variable {verdicts : List (Rotation × Option Outcome)} {routed entries : List (Rotation × Outcome)}

theorem exists_fills (h : routed.map Prod.fst = (verdicts.filter fun e => e.2.isNone).map Prod.fst) :
    ∃ entries, Fills verdicts routed entries ∧ entries.map Prod.fst = verdicts.map Prod.fst := by
  induction verdicts generalizing routed with
  | nil =>
    obtain rfl := List.map_eq_nil_iff.1 h
    exact ⟨[], .nil, rfl⟩
  | cons e verdicts ih =>
    obtain ⟨r, v⟩ := e
    cases v with
    | some o =>
      obtain ⟨entries, hfills, hmap⟩ := ih h
      exact ⟨(r, o) :: entries, .settled hfills, congrArg (r :: ·) hmap⟩
    | none =>
      cases routed with
      | nil => cases h
      | cons e routed =>
        obtain ⟨r', o⟩ := e
        obtain ⟨rfl, hrest⟩ := List.cons.inj h
        obtain ⟨entries, hfills, hmap⟩ := ih hrest
        exact ⟨(r', o) :: entries, .routed hfills, congrArg (r' :: ·) hmap⟩

/-- The packings of the entries are those of both rounds, -/
theorem Fills.packings_perm (h : Fills verdicts routed entries) :
    ((verdicts.flatMap fun e => (e.2.getD .deferred).packings) ++
      routed.flatMap fun e => e.2.packings).Perm (entries.flatMap fun e => e.2.packings) := by
  induction h with
  | nil => exact .refl _
  | settled _ ih =>
    rw [List.flatMap_cons, List.flatMap_cons, List.append_assoc]
    exact ih.append_left _
  | routed _ ih =>
    rw [List.flatMap_cons, List.flatMap_cons, List.flatMap_cons]
    exact List.perm_append_comm_assoc .. |>.trans (ih.append_left _)

theorem Fills.forall_mem (h : Fills verdicts routed entries) {P : Rotation → Outcome → Prop}
    (hfirst : ∀ e ∈ verdicts, P e.1 (e.2.getD .deferred)) (hsecond : ∀ e ∈ routed, P e.1 e.2) :
    ∀ e ∈ entries, P e.1 e.2 := by
  induction h with
  | nil => exact hsecond
  | settled _ ih =>
    obtain ⟨hone, hfirst⟩ := List.forall_mem_cons.1 hfirst
    exact List.forall_mem_cons.2 ⟨hone, ih hfirst hsecond⟩
  | routed _ ih =>
    obtain ⟨hone, hsecond⟩ := List.forall_mem_cons.1 hsecond
    exact List.forall_mem_cons.2 ⟨hone, ih (List.forall_mem_cons.1 hfirst).2 hsecond⟩

/-- and so are their failures. -/
theorem Fills.countP_eq (h : Fills verdicts routed entries) (reason : FailReason) :
    entries.countP (fun e => e.2.isFailed reason) =
      verdicts.countP (fun e => (e.2.getD .deferred).isFailed reason) +
        routed.countP fun e => e.2.isFailed reason := by
  induction h with
  | nil => rfl
  | settled _ ih =>
    rw [List.countP_cons, List.countP_cons, ih]
    exact Nat.add_right_comm _ _ _
  | routed _ ih =>
    rw [List.countP_cons, List.countP_cons, List.countP_cons, ih]
    exact Nat.add_assoc _ _ _

/-! ### Rotations that are put off -/

/-- Why a rotation is put off: it has no boundary, or one of its patches is busy, or it is a π/8 rotation
and no magic state is left. -/
def PutOff (b : Board) (r : Rotation) (left : Node → Prop) : Prop :=
  r.activeNodes.toList = [] ∨ ¬ FreeOn b r ∨ r.kind = .pi8 ∧ ∀ n, ¬ left n

variable {left left' : Node → Prop} {o : Outcome}

theorem putOff_congr (h : ∀ n, left n ↔ left' n) : PutOff b r left ↔ PutOff b r left' := by
  rw [funext fun n => propext (h n)]

theorem triage_defer_iff : triage busy magicFree r = .defer ↔
    r.activeQubits.disjoint busy = false ∨ r.kind = .pi8 ∧ magicFree = false := by
  unfold triage
  dsimp only
  cases hfree : r.activeQubits.disjoint busy <;> cases hk : r.kind <;> cases magicFree <;> simp
  all_goals split <;> simp

/-- The first round puts off what has to be put off. -/
theorem FirstStep.deferred_iff (h : FirstStep turnTicks b.busyQubits magicFree r (some o) s s')
    (hleft : magicFree = false → ∀ n, ¬ left n) : o = .deferred ↔ PutOff b r left := by
  have hroute : triage b.busyQubits magicFree r ≠ .route := fun hroute => by cases h.routed.2 hroute
  have hdeferred := h.deferred
  rw [Option.some.injEq] at hdeferred
  rw [hdeferred]
  constructor
  · rintro (hdefer | ⟨-, hnone⟩)
    · rcases triage_defer_iff.1 hdefer with hbusy | ⟨hk, hmagic⟩
      · exact Or.inr (Or.inl fun hfree => by rw [freeOn_iff.1 hfree] at hbusy; cases hbusy)
      · exact Or.inr (Or.inr ⟨hk, hleft hmagic⟩)
    · exact Or.inl hnone
  · intro hputOff
    cases htriage : triage b.busyQubits magicFree r with
    | defer => exact Or.inl rfl
    | route => exact absurd htriage hroute
    | alone tree =>
      obtain ⟨hk, hfree, n, hnodes, -⟩ := triage_alone htriage
      rcases hputOff with hnone | hbusy | ⟨hk', -⟩
      · cases hnodes.symm.trans hnone
      · exact absurd (freeOn_iff.2 hfree) hbusy
      · cases hk.symm.trans hk'
    | turn =>
      obtain ⟨hk, hfree⟩ := triage_turn htriage
      rcases hputOff with hnone | hbusy | ⟨hk', -⟩
      · exact Or.inr ⟨rfl, hnone⟩
      · exact absurd (freeOn_iff.2 hfree) hbusy
      · cases hk.symm.trans hk'

/-- So does the second round, with the magic states that are left to it. -/
theorem SecondStep.deferred_iff {t t' : List Packed × Desk} (h : SecondStep r o t t')
    (hroute : triage b.busyQubits magicFree r = .route) :
    o = .deferred ↔ PutOff b r (· ∈ t.2.stock.magic) := by
  have hfree := freeOn_iff.2 (disjoint_of_triage_route hroute)
  rw [h.deferred, PutOff, or_iff_right (not_not.2 hfree)]

/-- Exactly the rotations that have to be put off have neither a packing nor a failure. A magic state is
left for a rotation if no rotation before it has taken it. -/
theorem Fills.deferred_iff {t t' : List Packed × Desk} (h : Fills verdicts routed entries)
    (hfirst : Passes (FirstStep turnTicks b.busyQubits magicFree) verdicts s s')
    (hsecond : Passes SecondStep routed t t')
    (hleft : magicFree = false → ∀ n, n ∉ t.2.stock.magic)
    {before after : List (Rotation × Outcome)} (hentries : entries = before ++ (r, o) :: after) :
    o = .deferred ↔ PutOff b r fun n => n ∈ t.2.stock.magic ∧ ∀ e ∈ before, ¬ e.2.Takes n := by
  induction h generalizing s t before with
  | nil => simp at hentries
  | settled _ ih =>
    cases hfirst with | cons hstep hfirst =>
    cases before with
    | nil =>
      cases hentries
      rw [hstep.deferred_iff hleft]
      exact putOff_congr fun n => by simp
    | cons e before =>
      obtain ⟨rfl, hrest⟩ := List.cons.inj hentries
      rw [ih hfirst hsecond hleft hrest]
      refine putOff_congr fun n => and_congr_right fun _ => ?_
      rw [List.forall_mem_cons]
      exact (and_iff_right (hstep.untaken n)).symm
  | routed _ ih =>
    cases hfirst with | cons hstep hfirst =>
    cases hsecond with | cons hstep' hsecond =>
    cases before with
    | nil =>
      cases hentries
      rw [hstep'.deferred_iff (hstep.routed.1 rfl)]
      exact putOff_congr fun n => by simp
    | cons e before =>
      obtain ⟨rfl, hrest⟩ := List.cons.inj hentries
      rw [ih hfirst hsecond (fun hmagic n hn => hleft hmagic n ((hstep'.magic n).1 hn).1) hrest]
      refine putOff_congr fun n => ?_
      rw [hstep'.magic, List.forall_mem_cons, and_assoc]

/-! ### A tick -/

/-- The account of a tick that begins on the board `b₀`, when the storages have been seen to: one entry
for each rotation. -/
structure Accounts (p : Packer) (b b₀ : Board) (f : Factories) (rng : σ)
    (entries : List (Rotation × Outcome)) (result : Result σ) : Prop where
  /-- The entries are what the two rounds did, step by step. -/
  rounds : ∃ verdicts routed first d d', Fills verdicts routed entries ∧
    p.opening (entries.map Prod.fst) b f rng = .ok (first, d) ∧
    Passes (FirstStep p.turnTicks b₀.busyQubits (!(stockOf b₀).magic.isEmpty)) verdicts
      ⟨[], [], b₀, f, p.fails, rng⟩ first ∧
    Passes SecondStep routed (first.packed, d) (result.packed, d') ∧ result.packer = d'.packer
  /-- What is returned are the packings of the entries, each of its own rotation. -/
  packed : result.packed.Perm (entries.flatMap fun e => e.2.packings)
  own : ∀ e ∈ entries, ∀ q ∈ e.2.packings, q.rotation = e.1
  /-- A counter is raised by the number of entries that failed for its reason. -/
  fails : ∀ reason, result.packer.fails.get reason = p.fails.get reason +
    entries.countP fun e => e.2.isFailed reason
  /-- Exactly the rotations that have to be put off are neither packed nor counted. -/
  deferred : ∀ before r o after, entries = before ++ (r, o) :: after → (o = .deferred ↔
    PutOff b r fun n => n ∈ (stockOf b₀).magic ∧ ∀ e ∈ before, ¬ e.2.Takes n)

/-- A tick that is packed has an account. -/
theorem exists_accounts {result : Result σ} (hb : b.Sound)
    (h : p.pack rotations b f rng = .ok result) : ∃ b₀ entries,
      p.runStorages .beforePacking b = .ok b₀ ∧ entries.map Prod.fst = rotations ∧
        Accounts p b b₀ f rng entries result := by
  rw [pack_eq_opening] at h
  obtain ⟨⟨first, d⟩, hopening, h⟩ := exists_of_bind_eq_ok h
  obtain ⟨⟨packed, d'⟩, hsecond, h⟩ := exists_of_bind_eq_ok h
  obtain ⟨b₂, -, h⟩ := exists_of_bind_eq_ok h
  cases h
  have hopened := hopening
  unfold opening at hopened
  obtain ⟨b₀, hbefore, hopened⟩ := exists_of_bind_eq_ok hopened
  dsimp only at hopened
  obtain ⟨first', hfirst, hopened⟩ := exists_of_bind_eq_ok hopened
  cases hopened
  obtain ⟨hoccupies, hspares⟩ := (runStorages_ends p .beforePacking hb).of_ok hbefore
  -- the rounds, step by step
  obtain ⟨verdicts, rfl, hpasses⟩ := exists_firstPasses hfirst
  have hremaining := remaining_of_passes hpasses
  rw [List.nil_append] at hremaining
  have hkind : ∀ r ∈ first.remaining, r.kind ≠ .turn := fun r hr =>
    kind_of_triage_route (triage_of_mem_remaining hfirst (by simp) r hr)
  obtain ⟨routed, hrouted, hpasses'⟩ := exists_secondPasses hkind hsecond
  obtain ⟨entries, hfills, hmap⟩ := exists_fills (hrouted.trans hremaining)
  -- what the two of them enter
  obtain ⟨hpacked, hown, hfails⟩ := hpasses.enters (·.getD .deferred) FirstRound.packed FirstRound.fails
    fun _ _ _ _ hstep => hstep.enters
  obtain ⟨hpacked', hown', hfails'⟩ := hpasses'.enters id Prod.fst (·.2.packer.fails)
    fun _ _ _ _ hstep => hstep.enters
  refine ⟨b₀, entries, hbefore, hmap, ⟨⟨verdicts, routed, first, _, d', hfills, hmap ▸ hopening, hpasses,
    hpasses', rfl⟩, ?_, ?_, ?_, fun before r o after hentries => ?_⟩⟩
  · have hall : packed = (verdicts.flatMap fun e => (e.2.getD .deferred).packings) ++
        routed.flatMap fun e => e.2.packings := hpacked'.trans (congrArg (· ++ _) hpacked)
    exact hall ▸ hfills.packings_perm
  · exact hfills.forall_mem (P := fun r o => ∀ q ∈ o.packings, q.rotation = r) hown hown'
  · intro reason
    rw [hfails', hfails, hfills.countP_eq, ← Nat.add_assoc]
    rfl
  · rw [hfills.deferred_iff hpasses hpasses' (fun hmagic => ?_) hentries, PutOff, PutOff,
      freeOn_congr hb hoccupies.sound hspares]
    rw [Bool.not_eq_false'] at hmagic
    exact SortedSet.isEmpty_iff.1 hmagic

/-- The sum of the counters is raised by the number of failures, so failures and packings together are
not more than the rotations. -/
theorem Accounts.total_le {result : Result σ} (h : Accounts p b b₀ f rng entries result) :
    result.packer.fails.sum + result.packed.length ≤ p.fails.sum + entries.length := by
  have hsum : ∀ entries : List (Rotation × Outcome),
      (FailReason.all.map fun reason => entries.countP fun e => e.2.isFailed reason).sum +
        (entries.flatMap fun e => e.2.packings).length ≤ entries.length := by
    intro entries
    induction entries with
    | nil => exact le_of_eq rfl
    | cons e entries ih =>
      have hone := e.2.sum_isFailed
      simp only [List.countP_cons, List.sum_map_add, List.flatMap_cons, List.length_append,
        List.length_cons]
      omega
  have htotal : result.packer.fails.sum = p.fails.sum +
      (FailReason.all.map fun reason => entries.countP fun e => e.2.isFailed reason).sum := by
    simp only [FailCounts.sum, FailReason.all, List.map_cons, List.map_nil, List.foldr_cons,
      List.foldr_nil, List.sum_cons, List.sum_nil, h.fails]
    omega
  rw [htotal, h.packed.length_eq]
  have := hsum entries
  omega

/-- In a tick, each rotation is packed once, or raises one counter by one, or is put off and leaves the
counters as they are, and the last is the case exactly if it has no boundary, a busy patch, or is a π/8
rotation without a magic state. So no counter falls, and the counters grow by no more than the number of
rotations that are not packed; if the counters afterwards have a total, so have those before. The tick
stops only if a draw fails, if turns take a negative number of ticks, or if a counter has no room left for
as many failures as there are rotations. -/
theorem pack_accounts {l : Layout} {p : Packer} (hp : Packer.Used l p) {b : Board}
    (hb : Board.Stage l b) (f : Factories) (rng : σ) (rotations : List Rotation) :
    Ends (p.pack rotations b f rng) (p.Stops rng rotations) fun r =>
      (∃ b₀ entries, p.runStorages .beforePacking b = .ok b₀ ∧ entries.map Prod.fst = rotations ∧
        Accounts p b b₀ f rng entries r) ∧
      (∀ reason, p.fails.get reason ≤ r.packer.fails.get reason) ∧
      r.packer.fails.sum + r.packed.length ≤ p.fails.sum + rotations.length ∧
      ∀ total', r.packer.fails.total = .ok total' → ∃ total, p.fails.total = .ok total ∧
        total' + r.packed.length ≤ total + rotations.length := by
  have hends := pack_ends hp.sound hb.sound f rng rotations
  cases hr : p.pack rotations b f rng with
  | error e => exact hends.of_error hr
  | ok r =>
    obtain ⟨b₀, entries, hbefore, rfl, haccounts⟩ := exists_accounts hb.sound hr
    have hlength : (entries.map Prod.fst).length = entries.length := List.length_map _
    have hsum := haccounts.total_le
    rw [← hlength] at hsum
    have hmono : ∀ reason, p.fails.get reason ≤ r.packer.fails.get reason := fun reason =>
      haccounts.fails reason ▸ Nat.le_add_right _ _
    refine ⟨⟨b₀, entries, hbefore, rfl, haccounts⟩, hmono, hsum, fun total' htotal' => ?_⟩
    obtain ⟨rfl, hlt⟩ := (FailCounts.total_ends _).of_ok htotal'
    exact ⟨p.fails.sum, FailCounts.total_of_lt ((FailCounts.sum_le_of_get_le hmono).trans_lt hlt), hsum⟩

/-- Two rotations by π/8, and a turn on a boundary that is not beside the bus. -/
def contestedRotations : List Rotation :=
  [⟨0, .pi8, .plus, SortedSet.ofList [0, 1], ∅, ∅⟩, ⟨1, .pi8, .plus, SortedSet.ofList [2], ∅, ∅⟩,
    ⟨2, .turn, .plus, SortedSet.ofList [2], ∅, ∅⟩]

/-- The first rotation gets the only magic state, the second one is put off, and the turn fails. -/
theorem contestedRotations_pack_accounts : ∃ b, Board.ofLayout benchLayout = .ok b ∧
    ∃ r entries, (Packer.new 3 .never .never).pack contestedRotations b benchFactories
      (⟨[0], 0⟩ : CyclicWords) = .ok r ∧ entries.map Prod.fst = contestedRotations ∧
      Accounts (Packer.new 3 .never .never) b b benchFactories (⟨[0], 0⟩ : CyclicWords) entries r ∧
      r.packed.map (·.rotation.index) = [0] ∧ r.packer.fails = { qubitCannotTurn := 1 } := by
  have hrun : (Board.ofLayout benchLayout).toOption.any (fun b =>
      ((Packer.new 3 .never .never).pack contestedRotations b benchFactories
        (⟨[0], 0⟩ : CyclicWords)).toOption.any fun r =>
          decide (r.packed.map (·.rotation.index) = [0] ∧
            r.packer.fails = { qubitCannotTurn := 1 })) = true := by
    decide +kernel
  obtain ⟨b, hb, hrun⟩ := exists_of_any_toOption hrun
  obtain ⟨r, hr, hrun⟩ := exists_of_any_toOption hrun
  have hends : Ends _ _ _ := pack_accounts (l := benchLayout) (.new 3 .never .never) (.ofLayout hb)
    benchFactories (⟨[0], 0⟩ : CyclicWords) contestedRotations
  obtain ⟨⟨b₀, entries, hbefore, hmap, haccounts⟩, -, -⟩ := hends.of_ok hr
  rw [runStorages_never rfl rfl (by simp)] at hbefore
  obtain rfl := Except.ok.inj hbefore
  exact ⟨b, hb, r, entries, hr, hmap, haccounts, of_decide_eq_true hrun⟩

end Packer

end LatticeSurgery
