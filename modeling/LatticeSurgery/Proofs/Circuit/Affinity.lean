import LatticeSurgery.Proofs.Circuit.Flips

/-!
# Shared rotations

The statistics of a circuit count for each two qubits the rotations that touch both, pair by pair, and for
each qubit the rotations that ask for it, operator by operator. The first number is exact
(`affinityWith_ofCircuit`), and it never exceeds the second (`affinityWith_le_requests`), so that the
requests that a qubit shares with another one can be taken off its requests.
-/

namespace LatticeSurgery

namespace Rotation

/-- Whether the rotation touches two different qubits. -/
def joins (p q : Nat) (r : Rotation) : Bool :=
  decide (p ≠ q) && r.activeQubits.contains p && r.activeQubits.contains q

theorem joins_iff {p q : Nat} {r : Rotation} :
    r.joins p q = true ↔ p ≠ q ∧ p ∈ r.activeQubits ∧ q ∈ r.activeQubits := by
  simp [joins, and_assoc]

theorem joins_comm (p q : Nat) (r : Rotation) : r.joins p q = r.joins q p := by
  rw [Bool.eq_iff_iff, joins_iff, joins_iff, ne_comm]
  exact and_congr_right fun _ => and_comm

end Rotation

namespace CircuitStats

namespace Count

variable {c : Count} {a b p q k : Nat} {qs : List Nat} {f : QubitStats → QubitStats}

/-- How often a qubit was asked for so far, through any operator. -/
def requested (c : Count) (q : Nat) : Nat :=
  let s := (c.qubits.get? q).getD {}
  s.x + s.y + s.z

/-- The number of rotations so far that one qubit shares with another one. -/
def shared (c : Count) (p q : Nat) : Nat := ((c.qubits.get? p).getD {}).affinityWith q

/-! ## One change -/

theorem requested_of_update {c' : Count} (hc' : c'.qubits = (c.update p f).qubits)
    (hf : ∀ s, (f s).x + (f s).y + (f s).z = s.x + s.y + s.z + k) (q : Nat) :
    c'.requested q = c.requested q + if q = p then k else 0 := by
  unfold requested
  rw [hc', get?_update]
  split
  · next hq =>
    subst hq
    exact hf _
  · rfl

theorem shared_of_update {c' : Count} (hc' : c'.qubits = (c.update a f).qubits)
    (hf : ∀ s, (f s).affinity = s.affinity) (p q : Nat) : c'.shared p q = c.shared p q := by
  unfold shared QubitStats.affinityWith
  rw [hc', get?_update]
  split
  · next hp =>
    subst hp
    rw [Option.getD_some, hf]
  · rfl

theorem requested_addAffinity (c : Count) (a b q : Nat) :
    (c.addAffinity a b).requested q = c.requested q := by
  have h : (c.addAffinity a b).requested q = c.requested q + if q = a then 0 else 0 :=
    requested_of_update rfl (fun _ => rfl) q
  rwa [ite_self, Nat.add_zero] at h

theorem shared_addAffinity (c : Count) (a b p q : Nat) :
    (c.addAffinity a b).shared p q = c.shared p q + if p = a ∧ q = b then 1 else 0 := by
  unfold shared QubitStats.affinityWith addAffinity
  rw [get?_update]
  by_cases hp : p = a
  · subst hp
    rw [if_pos rfl, Option.getD_some]
    show (SortedMap.insert _ b _).getD q 0 = _
    rw [SortedMap.getD_insert]
    by_cases hq : q = b
    · subst hq
      simp [SortedMap.getD]
    · simp [hq]
  · simp [hp]

/-! ## The qubits of a rotation -/

/-- Going through the qubits of a rotation for one of its operators. -/
structure Requests (g : Count → Nat → Count) : Prop where
  requested : ∀ (c : Count) (p q : Nat), (g c p).requested q = c.requested q + if q = p then 1 else 0
  shared : ∀ (c : Count) (a p q : Nat), (g c a).shared p q = c.shared p q

/-- Changing the statistics of a qubit so that one more request is counted. -/
theorem requests_of_update {g : Count → Nat → Count} {f : Count → Nat → QubitStats → QubitStats}
    {shown : Count → Nat → SortedMap Nat Basis}
    (hg : ∀ c p, g c p = { c.update p (f c p) with shown := shown c p })
    (hone : ∀ c p s, (f c p s).x + (f c p s).y + (f c p s).z = s.x + s.y + s.z + 1)
    (haffinity : ∀ c p s, (f c p s).affinity = s.affinity) : Requests g where
  requested c p := requested_of_update (f := f c p) (by rw [hg]) (hone c p)
  shared c p := shared_of_update (f := f c p) (by rw [hg]) (haffinity c p)

theorem requests_addX : Requests addX := by
  refine requests_of_update (fun _ _ => rfl) (fun _ _ s => ?_) fun _ _ _ => ?_
  · dsimp only
    omega
  · rfl

theorem requests_addZ : Requests addZ := by
  refine requests_of_update (fun _ _ => rfl) (fun _ _ s => ?_) fun _ _ _ => ?_
  · dsimp only
    omega
  · rfl

theorem requests_addY : Requests addY := by
  refine requests_of_update (fun _ _ => rfl) (fun _ _ s => ?_) fun _ _ _ => ?_
  · dsimp only
    omega
  · rfl

theorem Requests.foldl {g : Count → Nat → Count} (hg : Requests g) (qs : List Nat) (c : Count) :
    (∀ q, (qs.foldl g c).requested q = c.requested q + qs.count q) ∧
      ∀ p q, (qs.foldl g c).shared p q = c.shared p q := by
  induction qs generalizing c with
  | nil => exact ⟨fun _ => rfl, fun _ _ => rfl⟩
  | cons a qs ih =>
    obtain ⟨hrequested, hshared⟩ := ih (g c a)
    refine ⟨fun q => ?_, fun p q => ?_⟩
    · rw [List.foldl_cons, hrequested, hg.requested, List.count_cons]
      by_cases hq : q = a
      · subst hq
        simp [Nat.add_assoc, Nat.add_comm]
      · simp [hq, Ne.symm hq]
    · rw [List.foldl_cons, hshared, hg.shared]

theorem addPairsWith_spec (c : Count) (a : Nat) (ha : a ∉ qs) (hqs : qs.Nodup) :
    (∀ q, (c.addPairsWith a qs).requested q = c.requested q) ∧
      ∀ p q, (c.addPairsWith a qs).shared p q =
        c.shared p q + if p = a ∧ q ∈ qs ∨ q = a ∧ p ∈ qs then 1 else 0 := by
  unfold addPairsWith
  induction qs generalizing c with
  | nil => exact ⟨fun _ => rfl, fun p q => by simp⟩
  | cons b qs ih =>
    obtain ⟨hb, hqs⟩ := List.nodup_cons.1 hqs
    rw [List.mem_cons, not_or] at ha
    obtain ⟨hrequested, hshared⟩ := ih ((c.addAffinity a b).addAffinity b a) ha.2 hqs
    refine ⟨fun q => ?_, fun p q => ?_⟩
    · rw [List.foldl_cons, hrequested, requested_addAffinity, requested_addAffinity]
    · rw [List.foldl_cons, hshared, shared_addAffinity, shared_addAffinity]
      -- the pair that is counted now does not come again, in either order
      by_cases hpa : p = a <;> by_cases hqa : q = a <;> by_cases hpb : p = b <;>
        by_cases hqb : q = b <;> simp_all

theorem addPairs_spec (c : Count) (hqs : qs.Nodup) :
    (∀ q, (c.addPairs qs).requested q = c.requested q) ∧
      ∀ p q, (c.addPairs qs).shared p q =
        c.shared p q + if p ≠ q ∧ p ∈ qs ∧ q ∈ qs then 1 else 0 := by
  induction qs generalizing c with
  | nil => exact ⟨fun _ => rfl, fun p q => by simp [addPairs]⟩
  | cons a qs ih =>
    obtain ⟨ha, hqs⟩ := List.nodup_cons.1 hqs
    obtain ⟨hrequested, hshared⟩ := ih (c.addPairsWith a qs) hqs
    obtain ⟨hrequested', hshared'⟩ := addPairsWith_spec c a ha hqs
    refine ⟨fun q => (hrequested q).trans (hrequested' q), fun p q => ?_⟩
    rw [addPairs, hshared, hshared', Nat.add_assoc]
    congr 1
    by_cases hpa : p = a
    · subst hpa
      by_cases hqa : q = p
      · subst hqa
        simp [ha]
      · simp [hqa, Ne.symm hqa, ha]
    · by_cases hqa : q = a
      · subst hqa
        simp [hpa, ha]
      · simp [hpa, hqa]

/-- A rotation is shared once by any two of its qubits, and asks for each of them at least once. -/
theorem addRotation_spec (c : Count) (r : Rotation) :
    (∀ q, c.requested q + (if q ∈ r.activeQubits then 1 else 0) ≤ (c.addRotation r).requested q) ∧
      ∀ p q, (c.addRotation r).shared p q = c.shared p q + if r.joins p q then 1 else 0 := by
  obtain ⟨hx, hx'⟩ := requests_addX.foldl r.x.toList c
  obtain ⟨hz, hz'⟩ := requests_addZ.foldl r.z.toList (r.x.toList.foldl addX c)
  obtain ⟨hy, hy'⟩ := requests_addY.foldl r.y.toList
    (r.z.toList.foldl addZ (r.x.toList.foldl addX c))
  obtain ⟨hpairs, hpairs'⟩ := addPairs_spec
    (r.y.toList.foldl addY (r.z.toList.foldl addZ (r.x.toList.foldl addX c))) r.activeQubits.nodup
  refine ⟨fun q => ?_, fun p q => ?_⟩
  · show _ ≤ (Count.addPairs _ r.activeQubits.toList).requested q
    rw [hpairs, hy, hz, hx]
    have hcount : q ∈ r.activeQubits → 1 ≤ r.x.toList.count q + r.z.toList.count q +
        r.y.toList.count q := by
      intro hq
      have hone : ∀ s : SortedSet Nat, q ∈ s → 1 ≤ s.toList.count q := fun s hs =>
        List.count_pos_iff.2 hs
      rcases Rotation.mem_activeQubits.1 hq with h | h | h
      · have := hone _ h
        omega
      · have := hone _ h
        omega
      · have := hone _ h
        omega
    split
    · next hq =>
      have := hcount hq
      omega
    · omega
  · show (Count.addPairs _ r.activeQubits.toList).shared p q = _
    rw [hpairs', hy', hz', hx']
    simp only [Rotation.joins_iff, SortedSet.mem_toList]

/-! ## A whole circuit -/

theorem foldl_addRotation_spec (rs : List Rotation) (c : Count) :
    (∀ q, c.requested q + (rs.countP fun r => r.activeQubits.contains q) ≤
        (rs.foldl addRotation c).requested q) ∧
      ∀ p q, (rs.foldl addRotation c).shared p q = c.shared p q + rs.countP (Rotation.joins p q) := by
  induction rs generalizing c with
  | nil => exact ⟨fun _ => Nat.le_refl _, fun _ _ => rfl⟩
  | cons r rs ih =>
    obtain ⟨hrequested, hshared⟩ := addRotation_spec c r
    obtain ⟨hrest, hrest'⟩ := ih (c.addRotation r)
    refine ⟨fun q => ?_, fun p q => ?_⟩
    · have h := hrequested q
      have h' := hrest q
      rw [List.foldl_cons, List.countP_cons]
      simp only [SortedSet.contains_iff]
      omega
    · rw [List.foldl_cons, hrest', hshared, List.countP_cons]
      omega

theorem shared_start (n p q : Nat) : (start n).shared p q = 0 := by
  unfold shared
  cases hs : (start n).qubits.get? p with
  | none => rfl
  | some s =>
    obtain ⟨-, rfl⟩ := get?_start.1 hs
    rfl

end Count

variable {c : Circuit} {p q : Nat}

/-- The statistics of a qubit in the end are those counted, with the sum of its requests. -/
theorem of_ofCircuit (c : Circuit) (q : Nat) :
    let count := c.rotations.foldl Count.addRotation (Count.start c.numQubits)
    ((ofCircuit c).of q).requests = count.requested q ∧
      ∀ p, ((ofCircuit c).of q).affinityWith p = count.shared q p := by
  intro count
  have hget : (ofCircuit c).qubits.get? q = (count.qubits.get? q).map fun s =>
      { s with id := q, requests := s.x + s.y + s.z } := SortedMap.get?_mapValues _ _ q
  unfold of SortedMap.getD Count.requested Count.shared
  rw [hget]
  cases count.qubits.get? q with
  | none => exact ⟨rfl, fun _ => rfl⟩
  | some s => exact ⟨rfl, fun _ => rfl⟩

/-- The affinity of two different qubits is the number of rotations that touch both. -/
theorem affinityWith_ofCircuit (c : Circuit) (p q : Nat) :
    ((ofCircuit c).of p).affinityWith q = c.rotations.countP (Rotation.joins p q) := by
  rw [(of_ofCircuit c p).2 q, (Count.foldl_addRotation_spec c.rotations _).2 p q, Count.shared_start,
    Nat.zero_add]

/-- A qubit shares no more requests than it has. -/
theorem affinityWith_le_requests (c : Circuit) (p q : Nat) :
    ((ofCircuit c).of p).affinityWith q ≤ ((ofCircuit c).of p).requests := by
  rw [affinityWith_ofCircuit, (of_ofCircuit c p).1]
  refine le_trans (List.countP_mono_left fun r _ hr => ?_)
    ((Nat.le_add_left _ _).trans ((Count.foldl_addRotation_spec c.rotations _).1 p))
  exact SortedSet.contains_iff.2 (Rotation.joins_iff.1 hr).2.1

end CircuitStats

end LatticeSurgery
