import LatticeSurgery.Proofs.Dependency.Closure

/-!
# What the last writers order

The rule of last writers names at most one blocker for each qubit of a rotation. Together with what
follows from them, its blockers still order exactly the rotations that share a qubit, of which there are
quadratically many pairs; and among the π/8 rotations alone, exactly those of them that share a qubit
(`last_writers_closure`).
-/

namespace LatticeSurgery

open Relation Blockers

/-- The rotation `i` stands before the rotation `j` and shares a qubit with it. -/
def Circuit.Shares (c : Circuit) (i j : Nat) : Prop :=
  i < j ∧ ∃ r s, c.rotations[i]? = some r ∧ c.rotations[j]? = some s ∧ r.triviallyCommutes s = false

/-- The π/8 rotation `i` stands before the π/8 rotation `j` and shares a qubit with it. -/
def Circuit.SharesPi8 (c : Circuit) (i j : Nat) : Prop :=
  c.Shares i j ∧ i ∈ c.indicesOf .pi8 ∧ j ∈ c.indicesOf .pi8

namespace Dependency

/-- The chains of last writers are the chains of rotations that share a qubit. -/
theorem transGen_lastWriters {rs : List Rotation} (hrs : Increasing rs) (i j : Nat) :
    TransGen (lastWriters rs).Blocks i j ↔
      TransGen (Pairs (fun r s => r.triviallyCommutes s = false) rs) i j := by
  refine ⟨TransGen.mono (fun i j h => ?_) i j, TransGen.closed (fun i j h => ?_) i j⟩
  · exact (pairs_of_lastWritersFrom [] (by simp) h).resolve_right (not_blocks_empty i j)
  · obtain ⟨r, s, hsub, hshared, rfl, rfl⟩ := h
    exact List.pairwise_iff_forall_sublist.1 (lastWritersFrom_shared hrs ∅ ∅) hsub hshared

end Dependency

namespace Circuit.Numbered

variable {c : Circuit} (hc : c.Numbered)

include hc

theorem mem_indicesOf {kind : RotationKind} {i : Nat} {r : Rotation}
    (hr : c.rotations[i]? = some r) : i ∈ c.indicesOf kind ↔ r.kind = kind := by
  rw [indicesOf, SortedSet.mem_ofList, List.mem_map]
  constructor
  · rintro ⟨s, hs, rfl⟩
    rw [List.mem_filter] at hs
    rw [hc.getElem?_index hs.1] at hr
    cases hr
    exact of_decide_eq_true hs.2
  · intro hkind
    exact ⟨r, List.mem_filter.2 ⟨List.mem_of_getElem? hr, decide_eq_true hkind⟩, hc i r hr⟩

/-- The pairs of π/8 rotations that share a qubit, by their places in the circuit. -/
theorem pairs_pi8_iff {i j : Nat} :
    Pairs (fun r s => r.triviallyCommutes s = false)
      (c.rotations.filter fun r => decide (r.kind = .pi8)) i j ↔ c.SharesPi8 i j := by
  rw [pairs_filter, hc.pairs_iff]
  constructor
  · rintro ⟨hij, r, s, hr, hs, hshared, hkr, hks⟩
    exact ⟨⟨hij, r, s, hr, hs, hshared⟩, (hc.mem_indicesOf hr).2 (of_decide_eq_true hkr),
      (hc.mem_indicesOf hs).2 (of_decide_eq_true hks)⟩
  · rintro ⟨⟨hij, r, s, hr, hs, hshared⟩, hi, hj⟩
    exact ⟨hij, r, s, hr, hs, hshared, decide_eq_true ((hc.mem_indicesOf hr).1 hi),
      decide_eq_true ((hc.mem_indicesOf hs).1 hj)⟩

/-- A π/8 rotation waits only for π/8 rotations with which it shares a qubit. -/
theorem sharesPi8_of_blocks {i j : Nat} (h : (Progress.ofPi8 c).blockers.Blocks i j) :
    c.SharesPi8 i j := by
  refine hc.pairs_pi8_iff.1 ?_
  exact (Dependency.pairs_of_lastWritersFrom [] (by simp) (Progress.blocks_start.1 h)).resolve_right
    (not_blocks_empty i j)

end Circuit.Numbered

/-- The last writers order exactly the rotations that share a qubit, and the last writers among the π/8
rotations exactly those of them that do; there, every blocker is a π/8 rotation. -/
theorem last_writers_closure {c : Circuit} (hc : c.Numbered) (i j : Nat) :
    (TransGen (Progress.ofCircuit c .trivialCommute).blockers.Blocks i j ↔ TransGen c.Shares i j) ∧
      (TransGen (Progress.ofPi8 c).blockers.Blocks i j ↔ TransGen c.SharesPi8 i j) ∧
      ((Progress.ofPi8 c).blockers.Blocks i j →
        i ∈ c.indicesOf .pi8 ∧ j ∈ c.indicesOf .pi8) := by
  have hstart (indices : List Nat) (b : Blockers) :
      (Progress.start indices b).blockers.Blocks = b.Blocks :=
    funext₂ fun _ _ => propext Progress.blocks_start
  have hshares : Pairs (fun r s => r.triviallyCommutes s = false) c.rotations = c.Shares :=
    funext₂ fun _ _ => propext hc.pairs_iff
  have hsharesPi8 : Pairs (fun r s => r.triviallyCommutes s = false)
      (c.rotations.filter fun r => decide (r.kind = .pi8)) = c.SharesPi8 :=
    funext₂ fun _ _ => propext hc.pairs_pi8_iff
  refine ⟨?_, ?_, fun h => (hc.sharesPi8_of_blocks h).2⟩
  · rw [Progress.ofCircuit, hstart, ← hshares]
    exact Dependency.transGen_lastWriters hc.increasing i j
  · rw [Progress.ofPi8, hstart, ← hsharesPi8]
    exact Dependency.transGen_lastWriters (hc.increasing.filter _) i j

/-- A π/8 rotation on qubits 0 and 1, a π/4 rotation on 1 and 2, and two π/8 rotations on 0 and 2 and on
1 and 2. -/
def chainedCircuit : Circuit :=
  Circuit.ofRotations "chained"
    [⟨0, .pi8, .plus, SortedSet.ofList [0, 1], ∅, ∅⟩, ⟨1, .pi4, .plus, ∅, ∅, SortedSet.ofList [1, 2]⟩,
      ⟨2, .pi8, .plus, SortedSet.ofList [0, 2], ∅, ∅⟩, ⟨3, .pi8, .plus, ∅, ∅, SortedSet.ofList [1, 2]⟩]
    3

theorem chainedCircuit_numbered : chainedCircuit.Numbered := by
  intro i r hr
  match i, hr with
  | 0, hr | 1, hr | 2, hr | 3, hr => cases hr; rfl

/-- The first and the last rotation share qubit 1, of which the second is the latest writer: they are
ordered through it, and among the π/8 rotations too, where the second one is left out. -/
theorem chainedCircuit_writers_closure : chainedCircuit.Numbered ∧
    chainedCircuit.Shares 0 3 ∧ chainedCircuit.SharesPi8 0 3 ∧
    ¬ (Progress.ofCircuit chainedCircuit .trivialCommute).blockers.Blocks 0 3 ∧
    TransGen (Progress.ofCircuit chainedCircuit .trivialCommute).blockers.Blocks 0 3 ∧
    (Progress.ofPi8 chainedCircuit).blockers.Blocks 0 3 ∧
    TransGen (Progress.ofPi8 chainedCircuit).blockers.Blocks 0 3 := by
  have hc := chainedCircuit_numbered
  have hshares : chainedCircuit.Shares 0 3 := ⟨by decide, _, _, rfl, rfl, by decide⟩
  have hpi8 : chainedCircuit.SharesPi8 0 3 := ⟨hshares, by decide, by decide⟩
  obtain ⟨hrule, hamong, -⟩ := last_writers_closure hc 0 3
  refine ⟨hc, hshares, hpi8, ?_, hrule.2 (.single hshares), ?_, hamong.2 (.single hpi8)⟩
  · unfold Blocks
    decide
  · unfold Blocks
    decide

end LatticeSurgery
