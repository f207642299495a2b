import LatticeSurgery.Proofs.Circuit.Preparation
import LatticeSurgery.Proofs.Placement.Policies

/-!
# Problems that reach the scheduler

What the reader, the board of the layout, the placement, the elimination of Y and the insertion of turns
hand on to each other fits together: a circuit from a text that gets a placement reaches the scheduler in
the form on which the scheduler relies (`prepare_schedulable`).
-/

namespace LatticeSurgery

open WordSource

/-- A circuit on which the scheduler can rely is not refused for an unknown patch. -/
theorem Circuit.Schedulable.schedule_ne_unknownQubit {σ : Type} [WordSource σ] {c : Circuit}
    {nonCorner : SortedSet Nat} {b : Board} (h : c.Schedulable nonCorner b) (conf : Configuration)
    (s : σ) (i q : Nat) : c.schedule conf b s ≠ .error (.refused (.unknownQubit i q)) := by
  have hknown : Run.unknownQubit? b c = none := by
    refine List.findSome?_eq_none_iff.2 fun r hr => ?_
    rw [Option.map_eq_none_iff, List.find?_eq_none]
    intro q hq
    rw [h.known r hr q hq .X]
    exact Bool.false_ne_true
  intro hrefused
  obtain ⟨s', -, hloop⟩ := Run.exists_loop_of_refused hknown hrefused
  obtain ⟨tick, idleTicks, heq⟩ := Run.noProgress_of_loop hloop
  cases heq

namespace Problem

variable {σ : Type} [WordSource σ] {P : σ → Prop} {s s' : σ} {p : Problem} {b b' : Board}
  {c : Circuit} {placement : Placement}

/-- A proper circuit that gets a placement on the board of a layout consists of proper rotations on
patches of the board that is left. -/
theorem placed_spec (hP : Ranged P) (hs : P s) (hp : p.circuit.Proper)
    (hb : Board.ofLayout p.layout = .ok b)
    (h : p.circuit.choosePlacement b p.policy p.patches s = .ok (placement, c, b', s')) :
    ∀ r ∈ c.rotations, r.Proper ∧
      ∀ q ∈ r.activeQubits, ∀ basis, b'.graph.hasNode (.qubit q basis) = true := by
  obtain ⟨hplaces, rfl, rfl⟩ := Circuit.choosePlacement_spec hP hs hp.lt h
  have hget : ∀ q < p.circuit.numQubits, ∃ patch, placement.patches.get? q = some patch ∧
      placement.patches.getD q q = patch := by
    intro q hq
    obtain ⟨patch, hpatch⟩ := hplaces.total q hq
    exact ⟨patch, hpatch, by rw [SortedMap.getD, hpatch, Option.getD_some]⟩
  have hinj : ∀ q < p.circuit.numQubits, ∀ q' < p.circuit.numQubits,
      placement.patches.getD q q = placement.patches.getD q' q' → q = q' := by
    intro q hq q' hq' heq
    obtain ⟨patch, hpatch, hq⟩ := hget q hq
    obtain ⟨patch', hpatch', hq'⟩ := hget q' hq'
    obtain rfl : patch = patch' := hq.symm.trans (heq.trans hq')
    exact hplaces.injective q q' patch hpatch hpatch'
  intro r hr
  obtain ⟨hproper, hactive⟩ := hp.place hinj r hr
  refine ⟨hproper, fun q hq basis => ?_⟩
  obtain ⟨q₀, hlt, rfl⟩ := hactive q hq
  obtain ⟨patch, hpatch, heq⟩ := hget q₀ hlt
  rw [heq]
  exact Board.hasNode_removeNodes_unusedNodes
    (Board.hasNode_of_mem_facings hb (hplaces.mem q₀ patch hpatch) basis)
    (SortedSet.mem_ofList.2 (SortedMap.mem_values_iff.2 ⟨q₀, hpatch⟩))

/-- What is scheduled is the circuit that is prepared, on the board that is left. -/
theorem solveWith_eq (hb : Board.ofLayout p.layout = .ok b)
    (h : p.circuit.choosePlacement b p.policy p.patches s = .ok (placement, c, b', s')) :
    p.solveWith s = (((prepare c placement.nonCorner b').schedule p.conf b' s').mapError
      (Halt.map .schedule)).map fun r =>
        ⟨placement, prepare c placement.nonCorner b', r.1, r.1.report r.2⟩ := by
  unfold solveWith
  rw [hb]
  show (Except.mapError (Halt.map fun r : Placement.Refusal => ProblemError.placement r.error) _
    >>= _) = _
  rw [h]
  rfl

/-- A circuit from a text that gets a placement is prepared so that the scheduler can rely on it:
rotations are numbered by their places, there is no Y, both boundaries of every patch are on the board,
and a patch with one boundary at the bus is used through one operator at a time. Without the turns it is
the circuit on patches without Y. The problem is never refused for an unknown patch. -/
theorem prepare_schedulable (hP : Ranged P) (hs : P s) {name text : String} {splitY : Bool}
    (hp : Circuit.ofText name text splitY = .ok p.circuit) (hb : Board.ofLayout p.layout = .ok b)
    (h : p.circuit.choosePlacement b p.policy p.patches s = .ok (placement, c, b', s')) :
    (prepare c placement.nonCorner b').Schedulable placement.nonCorner b' ∧
      Circuit.renumber ((prepare c placement.nonCorner b').rotations.filter fun r =>
        !decide (r.kind = .turn)) =
        ((p.circuit.place placement.patches).withoutY placement.nonCorner).rotations ∧
      ∀ i q, p.solveWith s ≠ .error (.refused (.schedule (.unknownQubit i q))) := by
  have hplaced := placed_spec hP hs (Circuit.proper_ofText hp) hb h
  have hschedulable : (prepare c placement.nonCorner b').Schedulable placement.nonCorner b' :=
    Circuit.schedulable_prepare (fun r hr => (hplaced r hr).1) fun r hr => (hplaced r hr).2
  refine ⟨hschedulable, ?_, fun i q hrefused => ?_⟩
  · obtain ⟨-, rfl, -⟩ := Circuit.choosePlacement_spec hP hs (Circuit.proper_ofText hp).lt h
    exact Circuit.renumber_filter_prepare fun r hr => (hplaced r hr).1
  · rw [solveWith_eq hb h] at hrefused
    cases hrun : (prepare c placement.nonCorner b').schedule p.conf b' s' with
    | ok r =>
      rw [hrun] at hrefused
      cases hrefused
    | error e =>
      rw [hrun] at hrefused
      cases e with
      | fault e => cases hrefused
      | refused e =>
        cases hrefused
        exact hschedulable.schedule_ne_unknownQubit p.conf s' i q hrun

/-- A rotation with a Y, and a measurement that needs other boundaries. -/
def pairText : String := "Rotate 1: YX\nMeasure +: ZX"

/-- In the row the two rotations become two π/4 rotations, three turns and themselves. -/
theorem pairText_prepare_schedulable : ∃ c b placement c' b' s',
    Circuit.ofText "pair" pairText false = .ok c ∧ Board.ofLayout rowLayout = .ok b ∧
      c.choosePlacement b .clusterCrossing none (⟨[0], 0⟩ : CyclicWords) =
        .ok (placement, c', b', s') ∧
      (prepare c' placement.nonCorner b').rotations.length = 7 ∧
      (prepare c' placement.nonCorner b').Schedulable placement.nonCorner b' := by
  have hrun : (Circuit.ofText "pair" pairText false).toOption.any (fun c =>
      (Board.ofLayout rowLayout).toOption.any fun b =>
        (c.choosePlacement b .clusterCrossing none (⟨[0], 0⟩ : CyclicWords)).toOption.any fun r =>
          (prepare r.2.1 r.1.nonCorner r.2.2.1).rotations.length == 7) = true := by
    decide +kernel
  obtain ⟨c, hc, hrun⟩ := exists_of_any_toOption hrun
  obtain ⟨b, hb, hrun⟩ := exists_of_any_toOption hrun
  obtain ⟨⟨placement, c', b', s'⟩, h, hrun⟩ := exists_of_any_toOption hrun
  exact ⟨c, b, placement, c', b', s', hc, hb, h, beq_iff_eq.1 hrun,
    (prepare_schedulable (CyclicWords.ranged (by decide)) rfl (p := ⟨c, rowLayout, .clusterCrossing,
      none, {}⟩) hc hb h).1⟩

end Problem

end LatticeSurgery
