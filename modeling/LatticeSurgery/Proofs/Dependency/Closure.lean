import LatticeSurgery.Proofs.Dependency.Reordering

/-!
# What the trimmed rule orders

The trimmed rule stops listing at the first identical rotation, and asks only once whether rotations of
two shapes commute. Together with what follows from them, its blockers still order exactly the rotations
of which the earlier one holds the later one back: the pairs that do not commute, which the full rule
lists, and the pairs of identical rotations (`trimmed_rule_closure`).
-/

namespace LatticeSurgery

open Relation Blockers

/-- The rotation `i` stands before the rotation `j` and holds it back: they do not commute, or they are
the same operation on the same qubits. -/
def Circuit.HoldsBack (c : Circuit) (i j : Nat) : Prop :=
  i < j ∧ ∃ r s, c.rotations[i]? = some r ∧ c.rotations[j]? = some s ∧ r.HoldsBack s

namespace Circuit.Numbered

variable {c : Circuit} (hc : c.Numbered)

include hc

theorem getElem?_index {r : Rotation} (hr : r ∈ c.rotations) : c.rotations[r.index]? = some r := by
  obtain ⟨i, hi⟩ := List.mem_iff_getElem?.1 hr
  rwa [hc i r hi]

/-- Pairs of rotations by their places. -/
theorem pairs_iff {rel : Rotation → Rotation → Prop} {i j : Nat} : Pairs rel c.rotations i j ↔
    i < j ∧ ∃ r s, c.rotations[i]? = some r ∧ c.rotations[j]? = some s ∧ rel r s := by
  constructor
  · intro h
    refine ⟨h.lt hc.increasing, ?_⟩
    obtain ⟨r, s, hsub, hrs, rfl, rfl⟩ := h
    exact ⟨r, s, hc.getElem?_index (hsub.subset List.mem_cons_self),
      hc.getElem?_index (hsub.subset (by simp)), hrs⟩
  · rintro ⟨hij, r, s, hr, hs, hrs⟩
    refine ⟨r, s, ?_, hrs, (hc i r hr).symm, (hc j s hs).symm⟩
    obtain ⟨hi, rfl⟩ := List.getElem?_eq_some_iff.1 hr
    obtain ⟨hj, rfl⟩ := List.getElem?_eq_some_iff.1 hs
    have hall : c.rotations.Pairwise fun r s => [r, s].Sublist c.rotations :=
      List.pairwise_iff_forall_sublist.2 fun hsub => hsub
    exact List.pairwise_iff_getElem.1 hall i j hi hj hij

/-- A rotation waits only for rotations that hold it back. -/
theorem holdsBack_of_blocks {i j : Nat}
    (h : (DependencyRule.fullTrimmed.blockers c.rotations).Blocks i j) : c.HoldsBack i j := by
  rcases Dependency.pairs_of_trimmedFrom Dependency.right_empty h with h | h
  · exact hc.pairs_iff.1 h
  · exact absurd h (not_blocks_empty i j)

/-- A rotation that is held back waits, if not directly then through identical rotations. -/
theorem chain_of_holdsBack {i j : Nat} (h : c.HoldsBack i j) :
    TransGen (DependencyRule.fullTrimmed.blockers c.rotations).Blocks i j := by
  obtain ⟨r, s, hsub, hrs, rfl, rfl⟩ := hc.pairs_iff.2 h
  exact List.pairwise_iff_forall_sublist.1
    (Dependency.trimmedFrom_pairwise c.rotations Dependency.right_empty ∅) hsub hrs

/-- What the full rule lists does not commute. -/
theorem holdsBack_of_blocks_full {i j : Nat}
    (h : (DependencyRule.full.blockers c.rotations).Blocks i j) : c.HoldsBack i j := by
  rcases Dependency.blocks_noncommutingFrom.1 h with h | h
  · exact hc.pairs_iff.1 (h.mono fun _ _ => Or.inl)
  · exact absurd h (not_blocks_empty i j)

end Circuit.Numbered

/-- The blockers of the trimmed rule order exactly what is held back, and so all that the full rule
orders. -/
theorem trimmed_rule_closure {c : Circuit} (hc : c.Numbered) (i j : Nat) :
    (TransGen (Progress.ofCircuit c .fullTrimmed).blockers.Blocks i j ↔ TransGen c.HoldsBack i j) ∧
      (TransGen (Progress.ofCircuit c .full).blockers.Blocks i j →
        TransGen (Progress.ofCircuit c .fullTrimmed).blockers.Blocks i j) := by
  have hstart (rule : DependencyRule) :
      (Progress.ofCircuit c rule).blockers.Blocks = (rule.blockers c.rotations).Blocks :=
    funext₂ fun _ _ => propext Progress.blocks_ofCircuit
  rw [hstart, hstart]
  refine ⟨⟨TransGen.mono (fun _ _ => hc.holdsBack_of_blocks) i j,
    TransGen.closed (fun _ _ => hc.chain_of_holdsBack) i j⟩,
    TransGen.closed (fun _ _ h => ?_) i j⟩
  exact hc.chain_of_holdsBack (hc.holdsBack_of_blocks_full h)

/-- X on qubit 0 twice, then ZZ, and X on qubit 0 once more. -/
def echoCircuit : Circuit :=
  Circuit.ofRotations "echo"
    [⟨0, .pi8, .plus, SortedSet.ofList [0], ∅, ∅⟩, ⟨1, .pi8, .minus, SortedSet.ofList [0], ∅, ∅⟩,
      ⟨2, .pi8, .plus, ∅, ∅, SortedSet.ofList [0, 1]⟩, ⟨3, .pi8, .plus, SortedSet.ofList [0], ∅, ∅⟩]
    2

/-- The third rotation does not commute with the first, and comes after it. -/
theorem echoCircuit_trimmed_closure : echoCircuit.Numbered ∧ echoCircuit.HoldsBack 0 2 ∧
    TransGen (Progress.ofCircuit echoCircuit .fullTrimmed).blockers.Blocks 0 2 := by
  have hc : echoCircuit.Numbered := by
    intro i r hr
    match i, hr with
    | 0, hr | 1, hr | 2, hr | 3, hr => cases hr; rfl
  have hheld : echoCircuit.HoldsBack 0 2 := ⟨by decide, _, _, rfl, rfl, Or.inl (by decide)⟩
  exact ⟨hc, hheld, (trimmed_rule_closure hc 0 2).1.2 (.single hheld)⟩

end LatticeSurgery
