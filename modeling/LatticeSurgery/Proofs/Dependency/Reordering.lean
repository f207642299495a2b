import LatticeSurgery.Proofs.Dependency.Progress
import Mathlib.Data.List.Perm.Basic

/-!
# Reordering a circuit

Completing a circuit set by set lists its rotations in a new order. The dependency rules are sound
when every such order is as good as the order of the circuit: when it becomes that order by
exchanging neighbours that commute (`ReflTransGen Exchange`).

A list becomes the circuit when each of its inversions commutes: the first rotation of the circuit
is moved to the front, and the rest follows by induction. An inversion that does not commute would
be the completion of a rotation before one of its chain of blockers, which `Progress.Tracks`
excludes.
-/

namespace LatticeSurgery

open Relation Blockers

/-- The number of each rotation of a circuit is its place. -/
def Circuit.Numbered (c : Circuit) : Prop :=
  ∀ (i : Nat) (r : Rotation), c.rotations[i]? = some r → r.index = i

namespace Circuit.Numbered

variable {c : Circuit}

theorem index_getElem (hc : c.Numbered) {i : Nat} (h : i < c.rotations.length) :
    c.rotations[i].index = i :=
  hc i _ (List.getElem?_eq_getElem h)

theorem map_index (hc : c.Numbered) :
    c.rotations.map Rotation.index = List.range c.rotations.length := by
  refine List.ext_getElem (by simp) fun i h₁ h₂ => ?_
  rw [List.getElem_map, List.getElem_range]
  exact hc.index_getElem _

theorem increasing (hc : c.Numbered) : Increasing c.rotations := by
  rw [Increasing, List.pairwise_iff_getElem]
  intro i j hi hj hij
  rwa [hc.index_getElem hi, hc.index_getElem hj]

/-- The blockers of a circuit order its rotations. -/
theorem orders (hc : c.Numbered) (rule : DependencyRule) :
    (rule.blockers c.rotations).Orders c.rotations :=
  rule.orders hc.increasing

theorem tracks_start (hc : c.Numbered) (rule : DependencyRule) :
    (Progress.ofCircuit c rule).Tracks (rule.blockers c.rotations) c.rotations.length ∅ := by
  rw [Progress.ofCircuit, hc.map_index]
  exact Progress.start_tracks _ _

/-- Of two rotations that do not commute, the later one has a chain of blockers from the earlier
one. -/
theorem chain_of_noncommuting (hc : c.Numbered) (rule : DependencyRule) {i j : Nat}
    {r s : Rotation} (hr : c.rotations[i]? = some r) (hs : c.rotations[j]? = some s) (hij : i < j)
    (h : r.commutes s = false) : TransGen (rule.blockers c.rotations).Blocks i j := by
  obtain ⟨hi, rfl⟩ := List.getElem?_eq_some_iff.1 hr
  obtain ⟨hj, rfl⟩ := List.getElem?_eq_some_iff.1 hs
  have hchain := List.pairwise_iff_getElem.1 (hc.orders rule).chain i j hi hj hij h
  rwa [hc.index_getElem hi, hc.index_getElem hj] at hchain

/-- Under the rule of last writers, of two rotations that share a qubit, the later one has a chain of
blockers from the earlier one. -/
theorem chain_of_shared (hc : c.Numbered) {i j : Nat} {r s : Rotation}
    (hr : c.rotations[i]? = some r) (hs : c.rotations[j]? = some s) (hij : i < j)
    (h : r.activeQubits.disjoint s.activeQubits = false) :
    TransGen (DependencyRule.trivialCommute.blockers c.rotations).Blocks i j := by
  obtain ⟨hi, rfl⟩ := List.getElem?_eq_some_iff.1 hr
  obtain ⟨hj, rfl⟩ := List.getElem?_eq_some_iff.1 hs
  have hchain := List.pairwise_iff_getElem.1
    (Dependency.lastWritersFrom_shared hc.increasing ∅ ∅) i j hi hj hij h
  rwa [hc.index_getElem hi, hc.index_getElem hj] at hchain

end Circuit.Numbered

/-! ## Exchanging neighbours that commute -/

/-- Two neighbours that commute are exchanged. -/
inductive Exchange : List Rotation → List Rotation → Prop
  /-- The exchange of `a` and `b`. -/
  | swap (front back : List Rotation) (a b : Rotation) (h : a.commutes b = true) :
      Exchange (front ++ a :: b :: back) (front ++ b :: a :: back)

theorem Exchange.cons {l m : List Rotation} (h : Exchange l m) (r : Rotation) :
    Exchange (r :: l) (r :: m) := by
  obtain ⟨front, back, a, b, hab⟩ := h
  exact Exchange.swap (r :: front) back a b hab

theorem exchanges_cons {l m : List Rotation} (h : ReflTransGen Exchange l m) (r : Rotation) :
    ReflTransGen Exchange (r :: l) (r :: m) := by
  induction h with
  | refl => exact .refl
  | tail _ hstep ih => exact ih.tail (hstep.cons r)

/-- A rotation moves to the front past rotations with which it commutes. -/
theorem exchanges_move_front {r : Rotation} {front : List Rotation} (back : List Rotation)
    (h : ∀ a ∈ front, a.commutes r = true) :
    ReflTransGen Exchange (front ++ r :: back) (r :: (front ++ back)) := by
  induction front with
  | nil => exact .refl
  | cons a front ih =>
    have hrest := ih fun b hb => h b (List.mem_cons_of_mem _ hb)
    exact (exchanges_cons hrest a).tail
      (Exchange.swap [] (front ++ back) a r (h a List.mem_cons_self))

/-- A list each of whose inversions commutes becomes the list in order. -/
theorem exchanges_of_inversions_commute {target l : List Rotation} (htarget : Increasing target)
    (hperm : l.Perm target)
    (hl : l.Pairwise fun a b => b.index < a.index → a.commutes b = true) :
    ReflTransGen Exchange l target := by
  induction target generalizing l with
  | nil => rw [hperm.eq_nil]
  | cons r rest ih =>
    obtain ⟨hr, hrest⟩ := List.pairwise_cons.1 htarget
    obtain ⟨front, back, rfl⟩ := List.append_of_mem (hperm.mem_iff.2 List.mem_cons_self)
    have hperm' : (front ++ back).Perm rest :=
      (List.perm_middle.symm.trans hperm).cons_inv
    have hpairs := List.pairwise_append.1 hl
    have hcommutes : ∀ a ∈ front, a.commutes r = true := fun a ha =>
      hpairs.2.2 a ha r List.mem_cons_self
        (hr a (hperm'.mem_iff.1 (List.mem_append_left back ha)))
    have hsub : (front ++ back).Sublist (front ++ r :: back) :=
      List.Sublist.append_left (List.sublist_cons_self r back) front
    exact (exchanges_move_front back hcommutes).trans
      (exchanges_cons (ih hrest hperm' (hl.sublist hsub)) r)

/-! ## Completing a circuit call by call -/

namespace Progress

/-- Calls of `complete`, each with rotations that are unblocked before the call, listed in any
order. -/
inductive Completes : Progress → List (List Nat) → Progress → Prop
  /-- No call. -/
  | nil (p : Progress) : Completes p [] p
  /-- A call, and the calls after it. -/
  | cons {p p' q : Progress} {call : List Nat} {freed : SortedSet Nat} {calls : List (List Nat)}
      (hnodup : call.Nodup) (hunblocked : ∀ i ∈ call, i ∈ p.unblocked)
      (hok : p.complete (SortedSet.ofList call) = .ok (p', freed)) (rest : Completes p' calls q) :
      Completes p (call :: calls) q

variable {p q : Progress} {b : Blockers} {n : Nat} {done : Finset Nat} {calls : List (List Nat)}

theorem toFinset_toList_ofList (l : List Nat) :
    (SortedSet.ofList l).toList.toFinset = l.toFinset := by
  ext i
  simp [SortedSet.mem_toList]

/-- What the calls list: every rotation once, none that was done before, and none after a rotation
that it is to be done before. -/
theorem Completes.spec (h : p.Completes calls q) (hp : p.Tracks b n done) :
    q.Tracks b n (done ∪ calls.flatten.toFinset) ∧ calls.flatten.Nodup ∧
      (∀ i ∈ calls.flatten, i < n ∧ i ∉ done) ∧
      calls.flatten.Pairwise fun i j => ¬ TransGen b.Blocks j i := by
  induction h generalizing done with
  | nil p => simpa using hp
  | @cons p p' q call freed calls hnodup hunblocked hok _ ih =>
    have hfree : ∀ i ∈ call, b.Free n done i := fun i hi => hp.mem_unblocked.1 (hunblocked i hi)
    obtain ⟨p₁, freed₁, hok₁, htracks, -⟩ := hp.complete (s := SortedSet.ofList call) fun i hi =>
      hfree i (SortedSet.mem_ofList.1 hi)
    rw [hok₁] at hok
    cases hok
    rw [toFinset_toList_ofList] at htracks
    obtain ⟨hq, hrest, hnew, hpairs⟩ := ih htracks
    have hlater : ∀ j ∈ calls.flatten, j ∉ done ∧ j ∉ call := fun j hj => by
      simpa using (hnew j hj).2
    refine ⟨?_, ?_, ?_, ?_⟩
    · rw [List.flatten_cons, List.toFinset_append, ← Finset.union_assoc]
      exact hq
    · rw [List.flatten_cons, List.nodup_append']
      exact ⟨hnodup, hrest, fun j hj hj' => (hlater j hj').2 hj⟩
    · intro i hi
      rw [List.flatten_cons, List.mem_append] at hi
      rcases hi with hi | hi
      · exact ⟨(hfree i hi).1, (hfree i hi).2.1⟩
      · exact ⟨(hnew i hi).1, (hlater i hi).1⟩
    · rw [List.flatten_cons, List.pairwise_append]
      refine ⟨List.Pairwise.imp_of_mem (fun hi hj _ hchain =>
        hp.not_free_of_chain hchain (hfree _ hj).2.1 (hfree _ hi)) hnodup, hpairs, ?_⟩
      intro i hi j hj hchain
      exact hp.not_free_of_chain hchain (hlater j hj).1 (hfree i hi)

end Progress

theorem filterMap_range_getElem? {α : Type} (l : List α) :
    (List.range l.length).filterMap (fun i => l[i]?) = l := by
  induction l with
  | nil => rfl
  | cons a l ih =>
    simp only [List.length_cons, List.range_succ_eq_map, List.filterMap_cons,
      List.getElem?_cons_zero, List.filterMap_map]
    exact congrArg (a :: ·) ih

/-- Whatever rule orders a circuit, and in whatever sets of unblocked rotations it is completed, the
order in which the rotations are completed, with the rotations of a set in any order, becomes the
order of the circuit by exchanging neighbours that commute. -/
theorem completion_order_exchanges_to_circuit {c : Circuit} (hc : c.Numbered)
    (rule : DependencyRule) {calls : List (List Nat)} {q : Progress}
    (h : (Progress.ofCircuit c rule).Completes calls q) (hdone : q.isDone = true) :
    ReflTransGen Exchange (calls.flatten.filterMap fun i => c.rotations[i]?) c.rotations := by
  obtain ⟨hq, hnodup, hnew, hpairs⟩ := h.spec (hc.tracks_start rule)
  have hperm : calls.flatten.Perm (List.range c.rotations.length) := by
    refine (List.perm_ext_iff_of_nodup hnodup List.nodup_range).2 fun i => ?_
    rw [List.mem_range]
    refine ⟨fun hi => (hnew i hi).1, fun hi => ?_⟩
    simpa using hq.mem_of_isDone hdone hi
  refine exchanges_of_inversions_commute hc.increasing ?_ ?_
  · have hmap := hperm.filterMap fun i => c.rotations[i]?
    rwa [filterMap_range_getElem?] at hmap
  · refine hpairs.filterMap _ fun i j hij r hr s hs hlt => ?_
    rw [hc i r hr, hc j s hs] at hlt
    by_contra hnot
    refine hij (hc.chain_of_noncommuting rule hs hr hlt ?_)
    rw [Rotation.commutes_comm]
    simpa using hnot

/-- X on qubit 0, XX, ZZ, and X on qubit 0 again: the second rotation commutes with all others, and
the third one with neither of the outer ones. -/
def crossedCircuit : Circuit :=
  Circuit.ofRotations "crossed"
    [⟨0, .pi4, .plus, SortedSet.ofList [0], ∅, ∅⟩, ⟨1, .pi8, .plus, SortedSet.ofList [0, 1], ∅, ∅⟩,
      ⟨2, .pi4, .plus, ∅, ∅, SortedSet.ofList [0, 1]⟩, ⟨3, .pi4, .plus, SortedSet.ofList [0], ∅, ∅⟩]
    2

/-- Leaving the second rotation to the end, and listing it last or last but one, is a reordering. -/
theorem crossedCircuit_completion_order_exchanges :
    crossedCircuit.Numbered ∧
      ∃ q, (Progress.ofCircuit crossedCircuit .full).Completes [[0], [2], [3, 1]] q ∧
        q.isDone = true ∧
        ReflTransGen Exchange
          ([0, 2, 3, 1].filterMap fun i => crossedCircuit.rotations[i]?) crossedCircuit.rotations := by
  have hc : crossedCircuit.Numbered := by
    intro i r hr
    match i, hr with
    | 0, hr | 1, hr | 2, hr | 3, hr => cases hr; rfl
  have h : ∃ q, (Progress.ofCircuit crossedCircuit .full).Completes [[0], [2], [3, 1]] q ∧
      q.isDone = true := by
    refine ⟨_, .cons ?_ ?_ rfl (.cons ?_ ?_ rfl (.cons ?_ ?_ rfl (.nil _))), ?_⟩ <;> decide
  obtain ⟨q, hq, hdone⟩ := h
  exact ⟨hc, q, hq, hdone, completion_order_exchanges_to_circuit hc .full hq hdone⟩

end LatticeSurgery
