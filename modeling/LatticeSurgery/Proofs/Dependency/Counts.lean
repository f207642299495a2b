import LatticeSurgery.Proofs.Dependency.Sharing

/-!
# The counts along a run

A progress is completed set by set, with whatever sets. As long as no call fails, the rotations that it
still counts are those of no call so far, each with the number of its blockers that no call has completed
yet; a further call reports exactly what it releases, and it fails exactly if one of its rotations is
obstructed (`counts_exact`).
-/

namespace LatticeSurgery

open Blockers

namespace Progress

/-- The start of a progress through a circuit, with the rotations that it covers. -/
inductive Starts (c : Circuit) : (Nat → Prop) → Progress → Prop
  /-- Every rotation, under a rule. -/
  | all (rule : DependencyRule) : Starts c (· < c.rotations.length) (ofCircuit c rule)
  /-- The π/8 rotations alone. -/
  | pi8 : Starts c (· ∈ c.indicesOf .pi8) (ofPi8 c)

/-- Sets of rotations are completed, call by call. -/
inductive Calls : Progress → List (SortedSet Nat) → Progress → Prop
  /-- No call. -/
  | nil (p : Progress) : Calls p [] p
  /-- A call, and the calls after it. -/
  | cons {p p' q : Progress} {s freed : SortedSet Nat} {calls : List (SortedSet Nat)}
      (hok : p.complete s = .ok (p', freed)) (rest : Calls p' calls q) : Calls p (s :: calls) q

/-- The rotations of some calls. -/
def called (calls : List (SortedSet Nat)) : Finset Nat :=
  (calls.flatMap SortedSet.toList).toFinset

theorem called_cons (s : SortedSet Nat) (calls : List (SortedSet Nat)) :
    called (s :: calls) = s.toList.toFinset ∪ called calls := by
  rw [called, List.flatMap_cons, List.toFinset_append]
  rfl

theorem called_concat (calls : List (SortedSet Nat)) (s : SortedSet Nat) :
    called (calls ++ [s]) = called calls ∪ s.toList.toFinset := by
  rw [called, List.flatMap_append, List.flatMap_singleton, List.toFinset_append]
  rfl

variable {p q p₀ : Progress} {b b' : Blockers} {known : Nat → Prop} {done : Finset Nat}
  {calls : List (SortedSet Nat)} {c : Circuit}

/-- Counts depend on what waits for what only. -/
theorem Counts.congr (h : p.Counts b known done) (hb : ∀ j, b'.of j = b.of j) :
    p.Counts b' known done := by
  have hblocks : ∀ i j, b'.Blocks i j ↔ b.Blocks i j := fun i j => by
    rw [Blocks, Blocks, hb]
  have hcount : ∀ j, b'.openCount done j = b.openCount done j := fun j => by
    rw [openCount, openCount, hb]
  refine ⟨fun j n => ?_, fun i j => ?_, fun i j hij => h.closed i j ((hblocks i j).1 hij)⟩
  · rw [h.pending, hcount]
  · rw [h.dependents, hblocks]

/-- A progress that starts counts all blockers. -/
theorem Starts.counts (hc : c.Numbered) (h : Starts c known p₀) :
    p₀.Counts p₀.blockers known ∅ := by
  cases h with
  | all rule => exact (hc.tracks_start rule).counts.congr fun j => of_foldl_insert_of
  | pi8 =>
    set indices := (c.rotations.filter fun r => decide (r.kind = .pi8)).map Rotation.index
    have hnodup : indices.Nodup := by
      have hincreasing : Increasing (c.rotations.filter fun r => decide (r.kind = .pi8)) :=
        hc.increasing.filter _
      exact List.pairwise_map.2 (hincreasing.imp fun hlt => hlt.ne)
    have hknown : (· ∈ c.indicesOf .pi8) = (· ∈ indices) :=
      funext fun i => propext SortedSet.mem_ofList
    rw [hknown]
    exact (start_counts hnodup _).congr fun j => of_foldl_insert_of

/-- Calls that succeed add their rotations to what is done. -/
theorem Calls.counts (h : p.Calls calls q) (hp : p.Counts b known done) :
    q.Counts b known (done ∪ called calls) := by
  induction h generalizing done with
  | nil p => simpa [called] using hp
  | cons hok _ ih =>
    rw [called_cons, ← Finset.union_assoc]
    exact ih ((hp.complete _).of_ok hok).2.1

/-- As long as calls succeed, a progress covers exactly the rotations of no call, each with the number of
its blockers that no call has completed. A call succeeds if none of its rotations is obstructed, and then
reports the rotations that it releases; otherwise it stops at the first one that is obstructed. -/
theorem counts_exact (hc : c.Numbered) (hstart : Starts c known p₀) (h : p₀.Calls calls p) :
    (∀ j, j ∈ p.pending.keys ↔ known j ∧ j ∉ called calls) ∧
    (∀ j n, p.pending.get? j = some n → n = p₀.blockers.openCount (called calls) j) ∧
    ∀ s : SortedSet Nat,
      (∀ p' freed, p.complete s = .ok (p', freed) → ∀ j, j ∈ freed ↔
        p₀.blockers.Released known (called calls) (called (calls ++ [s])) j) ∧
      ((∃ r, p.complete s = .ok r) ↔
        ∀ i ∈ s, ¬ p₀.blockers.Obstructed known (called calls) s.toList i) ∧
      ∀ e, p.complete s = .error e → ∃ i ∈ s,
        p₀.blockers.Obstructed known (called calls) s.toList i ∧
        (∀ j ∈ s, j < i → ¬ p₀.blockers.Obstructed known (called calls) s.toList j) ∧
        e = .notSchedulable i := by
  have hcounts := h.counts (hstart.counts hc)
  rw [Finset.empty_union] at hcounts
  refine ⟨fun j => ?_, fun j n hn => ((hcounts.pending j n).1 hn).2.2, fun s => ?_⟩
  · rw [SortedMap.mem_keys_iff]
    simp only [hcounts.pending, exists_and_left, exists_eq, and_true]
  · have hcall := hcounts.complete s
    refine ⟨fun p' freed hok j => ?_, ⟨fun ⟨r, hok⟩ => (hcall.of_ok hok).1, fun hclear => ?_⟩,
      fun e he => hcall.of_error he⟩
    · rw [called_concat]
      exact (hcall.of_ok hok).2.2 j
    · cases hs : p.complete s with
      | ok r => exact ⟨r, rfl⟩
      | error e =>
        obtain ⟨i, hi, hobstructed, -⟩ := hcall.of_error hs
        exact absurd hobstructed (hclear i hi)

/-- Among the π/8 rotations of the chained circuit, the second one is completed together with the first
one, for which it waits. This releases the second and the third one, and only the third one is left; the
second one is in the way of another call. -/
theorem chainedCircuit_counts : chainedCircuit.Numbered ∧
    ∃ p freed, (ofPi8 chainedCircuit).complete (SortedSet.ofList [0, 2]) = .ok (p, freed) ∧
      freed.toList = [2, 3] ∧ (∀ j, j ∈ freed ↔ (ofPi8 chainedCircuit).blockers.Released
        (· ∈ chainedCircuit.indicesOf .pi8) (called []) (called [SortedSet.ofList [0, 2]]) j) ∧
      p.pending.keys = [3] ∧ (∀ j, j ∈ p.pending.keys ↔
        j ∈ chainedCircuit.indicesOf .pi8 ∧ j ∉ called [SortedSet.ofList [0, 2]]) ∧
      ¬ ∃ r, p.complete (SortedSet.ofList [2, 3]) = .ok r := by
  have hc := chainedCircuit_numbered
  obtain ⟨p, freed, hok, hfreed, hkeys⟩ : ∃ p freed,
      (ofPi8 chainedCircuit).complete (SortedSet.ofList [0, 2]) = .ok (p, freed) ∧
        freed.toList = [2, 3] ∧ p.pending.keys = [3] := ⟨_, _, rfl, by decide, by decide⟩
  have hstart := counts_exact hc .pi8 (.nil (ofPi8 chainedCircuit))
  have hafter := counts_exact hc .pi8 (.cons hok (.nil p))
  refine ⟨hc, p, freed, hok, hfreed, (hstart.2.2 _).1 p freed hok, hkeys, hafter.1, fun hr => ?_⟩
  exact (hafter.2.2 _).2.1.1 hr 2 (by decide) (Or.inr (Or.inl (by decide)))

end Progress

end LatticeSurgery
