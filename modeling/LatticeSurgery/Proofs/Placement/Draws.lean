import LatticeSurgery.Proofs.Circuit.Affinity
import LatticeSurgery.Proofs.Placement.Policies
import LatticeSurgery.Proofs.Random.Conclusive
import Mathlib.Algebra.Order.BigOperators.Group.List

/-!
# No policy breaks down

With random words from a conclusive source every policy comes to a result, unless the patches that are
given cannot be used (`Placement.choosePatches_ends`). Seeds are drawn by their flips, whose sum has to be
a number of 32 bits. On the way no policy asks for something that is not there (`Placement.Guarded`).
-/

namespace LatticeSurgery

open WordSource

/-- The flips of all qubits of a circuit together. -/
def CircuitStats.totalFlips (stats : CircuitStats) : Nat :=
  (stats.byFlips.map fun q => (stats.of q).flips).sum

namespace Placement

variable {σ : Type} [WordSource σ] {P : σ → Prop} {s s' : σ} {c : Circuit} {b : Board}
  {stats : CircuitStats} {qubits : List Nat}

/-! ## Drawing -/

theorem takeRandom_ends {α : Type} (hP : Conclusive P) (hs : P s) (l : List α) :
    Ends (takeRandom l s) (fun _ => False) fun r => P r.2 := by
  cases l with
  | nil => exact hs
  | cons a l =>
    obtain ⟨⟨i, t⟩, hi⟩ := hP.below64 s hs (a :: l).length (Nat.succ_pos _)
    have ht : P t := (Draw.below64_ranged hP.toRanged hs (Nat.succ_pos _) hi).2
    unfold takeRandom
    rw [hi]
    exact ht

/-- A seed that is drawn is one of the qubits. -/
theorem drawSeed_lt (hP : Conclusive P) (hs : P s) (hqubits : qubits ≠ []) {i : Nat}
    (h : drawSeed stats qubits s = .ok (i, s')) : i < qubits.length := by
  obtain ⟨⟨r, t⟩, hr, h⟩ := exists_of_bind_eq_ok h
  cases r with
  | some i =>
    cases h
    rw [← List.length_map (fun q => (stats.of q).flips)]
    exact Draw.weighted_lt hP hs hr
  | none =>
    have ht := Draw.weighted_ranged hP.toRanged hs hr
    exact (Draw.below64_ranged hP.toRanged ht (List.length_pos_iff.2 hqubits) h).1

theorem drawSeed_ends (hP : Conclusive P) (hs : P s) (hqubits : qubits ≠ [])
    (hflips : (qubits.map fun q => (stats.of q).flips).sum < Nat.pow 2 32) :
    Ends (drawSeed stats qubits s) (fun _ => False) fun r => P r.2 := by
  obtain ⟨⟨r, t⟩, hr⟩ := hP.weighted s hs _ hflips
  have ht : P t := Draw.weighted_ranged hP.toRanged hs hr
  unfold drawSeed
  rw [hr]
  cases r with
  | some i => exact ht
  | none =>
    obtain ⟨⟨i, t'⟩, hi⟩ := hP.below64 t ht qubits.length (List.length_pos_iff.2 hqubits)
    show Ends (Draw.below64 qubits.length t) _ _
    rw [hi]
    exact (Draw.below64_ranged hP.toRanged ht (List.length_pos_iff.2 hqubits) hi).2

/-! ## Crossings -/

theorem fillCrossing_ends (hP : Conclusive P) (hs : P s) (seed : Nat) (qs crossing : List Nat)
    (cl : Clustering) :
    Ends (fillCrossing stats seed qs crossing cl s) (fun _ => False) fun r => P r.2 := by
  induction qs generalizing crossing cl s with
  | nil => exact hs
  | cons q qs ih =>
    unfold fillCrossing
    split
    · exact ih hs crossing cl
    · refine Ends.bind (takeRandom_ends hP hs crossing) ?_
      rintro ⟨r, t⟩ ht
      cases r with
      | none => exact ht
      | some r => exact ih ht r.2 (cl.give q r.1)

/-- The seeds that are left weigh no more than all of them. -/
theorem seedCrossings_ends (hP : Conclusive P) (hs : P s) (rounds : Nat)
    (crossings : List (List Nat)) {cl : Clustering}
    (hflips : (cl.seeds.map fun q => (stats.of q).flips).sum < Nat.pow 2 32) :
    Ends (seedCrossings stats rounds crossings cl s) (fun _ => False) fun r => P r.2 := by
  have hless : ∀ {seeds seeds' : List Nat}, seeds'.Sublist seeds →
      (seeds'.map fun q => (stats.of q).flips).sum ≤ (seeds.map fun q => (stats.of q).flips).sum :=
    fun h => (h.map _).sum_le_sum fun _ _ => Nat.zero_le _
  induction rounds generalizing crossings cl s with
  | zero => exact hs
  | succ rounds ih =>
    unfold seedCrossings
    split
    · exact hs
    · next hgo =>
      rw [Bool.or_eq_true, not_or, List.isEmpty_iff, List.isEmpty_iff] at hgo
      refine Ends.bind (drawSeed_ends hP hs hgo.2 hflips) ?_
      rintro ⟨i, t⟩ ht
      dsimp only
      split
      · exact ht
      · next seed _ =>
        refine Ends.bind (takeRandom_ends hP ht crossings) ?_
        rintro ⟨r, t'⟩ ht'
        cases r with
        | none => exact ht'
        | some r =>
          refine Ends.bind (takeRandom_ends hP ht' r.1) ?_
          rintro ⟨r', t''⟩ ht''
          cases r' with
          | none => exact ih ht'' r.2 ((hless (List.eraseIdx_sublist _ _)).trans_lt hflips)
          | some r' =>
            refine Ends.bind
              (fillCrossing_ends hP ht'' seed stats.byFlips r'.2 (cl.give seed r'.1)).and_eq_ok ?_
            rintro ⟨cl', t₃⟩ ⟨ht₃, hfill⟩
            have hseeds := (seeds_fillCrossing hfill).trans List.filter_sublist
            exact ih ht₃ r.2 ((hless hseeds).trans_lt hflips)

/-! ## The qubits that are left -/

theorem placeRest_ends (hP : Conclusive P) (hs : P s) (qs corners sides : List Nat)
    (m : SortedMap Nat Nat) :
    Ends (placeRest qs corners sides m s) (fun _ => False) fun _ => True := by
  induction qs generalizing corners sides m s with
  | nil => trivial
  | cons q qs ih =>
    unfold placeRest
    split
    · exact ih hs corners sides m
    · refine Ends.bind (takeRandom_ends hP hs corners) ?_
      rintro ⟨r, t⟩ ht
      cases r with
      | some r => exact ih ht r.2 sides (m.insert q r.1)
      | none =>
        refine Ends.bind (takeRandom_ends hP ht sides) ?_
        rintro ⟨r', t'⟩ ht'
        cases r' with
        | some r' => exact ih ht' corners r'.2 (m.insert q r'.1)
        | none => exact ih ht' corners sides m

theorem cluster_ends (hP : Conclusive P) (hs : P s) (hflips : stats.totalFlips < Nat.pow 2 32)
    (b : Board) : Ends (cluster stats b s) (fun _ => False) fun _ => True := by
  unfold cluster
  refine Ends.bind (seedCrossings_ends hP hs _ _ hflips) ?_
  rintro ⟨cl, t⟩ ht
  exact placeRest_ends hP ht _ _ _ _

/-! ## All policies -/

/-- A computation that is sure to have a result has no fault to pass on. -/
theorem ends_of_sure {ε α : Type} {x : Except Fault α} {fail : Halt ε → Prop} {post : α → Prop}
    (h : Ends x (fun _ => False) post) : Ends (orHalt x : Except (Halt ε) α) fail post :=
  orHalt_ends (h.mono (fun _ hfalse => hfalse.elim) fun _ hpost => hpost)

/-- A policy gives patches to the qubits unless the patches that are given for it cannot be used. -/
theorem choosePatches_ends (hP : Conclusive P) (hs : P s)
    (hflips : (CircuitStats.ofCircuit c).totalFlips < Nat.pow 2 32) (b : Board)
    (policy : PlacementPolicy) (given : Option (List Nat)) :
    Ends (choosePatches c b policy given s)
      (fun e => policy = .manual ∧ ∃ reason, manual b.facings c.numQubits given = .error reason ∧
        e = .refused reason) fun _ => True := by
  cases policy with
  | manual =>
    show Ends (orRefuse (manual b.facings c.numQubits given) >>= _) _ _
    cases hmanual : manual b.facings c.numQubits given with
    | ok m => trivial
    | error reason => exact ⟨rfl, reason, rfl, rfl⟩
  | random =>
    refine Ends.bind (ends_of_sure (Draw.shuffle_ends hP hs b.facings.keys)) ?_
    rintro ⟨ps, t⟩ -
    trivial
  | randomCorner =>
    refine Ends.bind (ends_of_sure (Draw.shuffle_ends hP hs (corners b.facings))) ?_
    rintro ⟨ps, t⟩ ht
    refine Ends.bind (ends_of_sure (Draw.shuffle_ends hP ht (sides b.facings))) ?_
    rintro ⟨ps', t'⟩ -
    trivial
  | clusterCrossing => exact ends_of_sure (cluster_ends hP hs hflips b)
  | affinity => trivial

/-- What the policies ask for is there: every qubit in the order by flips has statistics, a qubit shares
no more requests than it has, and what is drawn is a place of the list from which it is drawn. -/
structure Guarded (c : Circuit) (P : σ → Prop) : Prop where
  listed : ∀ q ∈ (CircuitStats.ofCircuit c).byFlips,
    ∃ stats, (CircuitStats.ofCircuit c).qubits.get? q = some stats
  shared : ∀ p q, ((CircuitStats.ofCircuit c).of p).affinityWith q ≤
    ((CircuitStats.ofCircuit c).of p).requests
  swapped : ∀ s n i s', P s → 0 < n → Draw.below32 n s = .ok (i, s') → i < n
  taken : ∀ s n i s', P s → 0 < n → Draw.below64 n s = .ok (i, s') → i < n
  seeded : ∀ s qubits i s', P s → qubits ≠ [] →
    drawSeed (CircuitStats.ofCircuit c) qubits s = .ok (i, s') → i < qubits.length

theorem guarded (hP : Conclusive P) (c : Circuit) : Guarded c P where
  listed _ hq := SortedMap.mem_keys_iff.1 ((CircuitStats.byFlips_perm _).mem_iff.1 hq)
  shared p q := CircuitStats.affinityWith_le_requests c p q
  swapped _ _ _ _ hs hn h := (Draw.below32_ranged hP hs hn h).1
  taken _ _ _ _ hs hn h := (Draw.below64_ranged hP.toRanged hs hn h).1
  seeded _ _ _ _ hs hqubits h := drawSeed_lt hP hs hqubits h

end Placement

end LatticeSurgery
