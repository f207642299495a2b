import LatticeSurgery.Circuit.Reader
import LatticeSurgery.Circuit.YElimination
import LatticeSurgery.Proofs.Circuit.PauliString

/-!
# Commutation, qubit by qubit

Pauli strings commute when the number of qubits on which they clash is even: on which both have a
letter, and not the same one. The test of commutation counts something else, namely where the X part of
each rotation meets the Z part of the other, and neither of its two counts is the number of clashes. But
a qubit is in exactly one of the two overlaps when the letters clash there, and in both or none when
they do not, so the parity is the same (`Rotation.commutes_pauli`).
-/

namespace LatticeSurgery

open scoped symmDiff

/-- Both letters differ from the identity and from each other. -/
def Pauli.Clashes (p q : Pauli) : Prop := p ≠ .I ∧ q ≠ .I ∧ p ≠ q

theorem SortedSet.mem_filter_not_contains {s t : SortedSet Nat} {q : Nat} :
    q ∈ s.filter (fun q => !t.contains q) ↔ q ∈ s ∧ q ∉ t := by
  rw [mem_filter, Bool.not_eq_true', ← Bool.not_eq_true, contains_iff]

namespace Rotation

/-- The letter of a qubit: Y is written as such or as X and Z together. -/
def pauli (r : Rotation) (q : Nat) : Pauli :=
  if q ∈ r.y ∨ q ∈ r.x ∧ q ∈ r.z then .Y
  else if q ∈ r.x then .X
  else if q ∈ r.z then .Z
  else .I

/-- The qubits on which two rotations clash. -/
def clashes (a b : Rotation) : Set Nat := {q | (a.pauli q).Clashes (b.pauli q)}

/-- The same rotation with Y written as X and Z together on the given qubits. -/
def spreadY (r : Rotation) (qubits : SortedSet Nat) : Rotation :=
  { r with
    x := r.x ∪ r.y ∩ qubits
    y := r.y.filter fun q => !qubits.contains q
    z := r.z ∪ r.y ∩ qubits }

variable {a a' b b' r : Rotation} {q : Nat} {qubits : SortedSet Nat}

/-! ## Parity -/

/-- Two letters clash when exactly one of them has an X where the other one has a Z. -/
theorem clashes_iff : (a.pauli q).Clashes (b.pauli q) ↔
    ¬ ((q ∈ a.xPart ∧ q ∈ b.zPart) ↔ (q ∈ a.zPart ∧ q ∈ b.xPart)) := by
  simp only [mem_xPart, mem_zPart, pauli, Pauli.Clashes]
  by_cases q ∈ a.x <;> by_cases q ∈ a.y <;> by_cases q ∈ a.z <;>
    by_cases q ∈ b.x <;> by_cases q ∈ b.y <;> by_cases q ∈ b.z <;> simp [*]

/-- The clashes are the qubits in exactly one of the two overlaps. -/
theorem clashes_eq (a b : Rotation) :
    a.clashes b = ↑((a.xPart ∩ b.zPart).toFinset ∆ (a.zPart ∩ b.xPart).toFinset) := by
  ext q
  rw [clashes, Set.mem_ofPred_eq, clashes_iff, Finset.mem_coe, Finset.mem_symmDiff]
  simp only [SortedSet.mem_toFinset, SortedSet.mem_inter]
  tauto

theorem finite_clashes (a b : Rotation) : (a.clashes b).Finite := by
  rw [clashes_eq]
  exact Finset.finite_toSet _

/-- As many qubits clash as are in the two overlaps together, modulo two. -/
theorem ncard_clashes_mod_two (a b : Rotation) : (a.clashes b).ncard % 2 =
    ((a.xPart ∩ b.zPart).size + (a.zPart ∩ b.xPart).size) % 2 := by
  have hcard := PauliString.card_symmDiff_add (a.xPart ∩ b.zPart).toFinset (a.zPart ∩ b.xPart).toFinset
  rw [SortedSet.card_toFinset, SortedSet.card_toFinset] at hcard
  rw [clashes_eq, Set.ncard_coe_finset]
  omega

theorem commutes_iff_even_clashes (ha : a.isRigid = false) (hb : b.isRigid = false) :
    a.commutes b = true ↔ Even (a.clashes b).ncard := by
  rw [commutes, ha, hb, Nat.even_iff, ncard_clashes_mod_two]
  simp

theorem isRigid_eq_false (hk : r.kind = .pi8 ∨ r.kind = .pi4) : r.isRigid = false := by
  rcases hk with hk | hk <;> simp [isRigid, hk]

/-! ## Two spellings of Y -/

/-- What commutation looks at. -/
theorem commutes_congr_parts (hrigid : a.isRigid = a'.isRigid)
    (hqubits : a.activeQubits = a'.activeQubits) (hx : a.xPart = a'.xPart) (hz : a.zPart = a'.zPart)
    (b : Rotation) : a.commutes b = a'.commutes b := by
  rw [commutes, commutes, triviallyCommutes, triviallyCommutes, hrigid, hqubits, hx, hz]

theorem commutes_spreadY (a b : Rotation) (qubits : SortedSet Nat) :
    (a.spreadY qubits).commutes b = a.commutes b := by
  have hrigid : (a.spreadY qubits).isRigid = a.isRigid := rfl
  refine commutes_congr_parts hrigid ?_ ?_ ?_ b <;>
    refine SortedSet.ext_mem fun q => ?_
  · simp only [mem_activeQubits, spreadY, SortedSet.mem_union, SortedSet.mem_inter,
      SortedSet.mem_filter_not_contains]
    tauto
  · simp only [mem_xPart, spreadY, SortedSet.mem_union, SortedSet.mem_inter,
      SortedSet.mem_filter_not_contains]
    tauto
  · simp only [mem_zPart, spreadY, SortedSet.mem_union, SortedSet.mem_inter,
      SortedSet.mem_filter_not_contains]
    tauto

theorem y_spreadY_self (r : Rotation) : (r.spreadY r.y).y = ∅ := SortedSet.ext_mem fun q => by
  rw [spreadY, SortedSet.mem_filter_not_contains]
  exact iff_of_false (fun hq => hq.2 hq.1) (SortedSet.not_mem_empty q)

/-- On patches that offer both boundaries, eliminating Y is spelling it as X and Z. -/
theorem eliminateY_eq {split : SortedSet Nat} (h : ∀ q ∈ r.y, q ∉ split) :
    Circuit.eliminateY split r = [{ r.spreadY r.y with index := 0 }] := by
  have hchange : r.y.filter split.contains = ∅ := SortedSet.ext_mem fun q => by
    rw [SortedSet.mem_filter, SortedSet.contains_iff]
    exact iff_of_false (fun hq => h q hq.1 hq.2) (SortedSet.not_mem_empty q)
  have hkeep : (r.y.filter fun q => !split.contains q) = r.y ∩ r.y := SortedSet.ext_mem fun q => by
    rw [SortedSet.mem_filter_not_contains, SortedSet.mem_inter]
    exact ⟨fun hq => ⟨hq.1, hq.1⟩, fun hq => ⟨hq.1, h q hq.1⟩⟩
  have hgone : (r.y.filter fun q => !r.y.contains q) = ∅ := y_spreadY_self r
  rw [Circuit.eliminateY, hchange, hkeep, spreadY, hgone]
  rfl

/-! ## Commutation of Pauli strings -/

/-- Two rotations by π/8 or π/4 commute when an even number of qubits clash. Commuting is symmetric for
rotations of all kinds and holds for rotations on different qubits. It does not matter on which qubits Y
is written as X and Z together, as it is when Y is eliminated on patches with both boundaries at the
bus. -/
theorem commutes_pauli (a b : Rotation) :
    (a.kind = .pi8 ∨ a.kind = .pi4 → b.kind = .pi8 ∨ b.kind = .pi4 →
      (a.clashes b).Finite ∧ (a.commutes b = true ↔ Even (a.clashes b).ncard)) ∧
    a.commutes b = b.commutes a ∧
    (a.triviallyCommutes b = true → a.commutes b = true) ∧
    (∀ s t, (a.spreadY s).commutes (b.spreadY t) = a.commutes b) ∧
    ∀ split, (∀ q ∈ a.y, q ∉ split) →
      ∃ a', Circuit.eliminateY split a = [a'] ∧ a'.y = ∅ ∧ a'.commutes b = a.commutes b := by
  refine ⟨fun ha hb => ⟨finite_clashes a b,
    commutes_iff_even_clashes (isRigid_eq_false ha) (isRigid_eq_false hb)⟩, commutes_comm a b,
    commutes_of_triviallyCommutes, fun s t => ?_, fun split hsplit => ?_⟩
  · rw [commutes_spreadY, commutes_comm, commutes_spreadY, commutes_comm]
  · exact ⟨_, eliminateY_eq hsplit, y_spreadY_self a, commutes_spreadY a b a.y⟩

/-- The strings XYY and YZY clash on two qubits. The two overlaps have three qubits and one. -/
theorem clashing_twice_commutes :
    let a : Rotation := ⟨0, .pi8, .plus, SortedSet.ofList [0, 1], SortedSet.ofList [2],
      SortedSet.ofList [1]⟩
    let b : Rotation := ⟨1, .pi4, .minus, ∅, SortedSet.ofList [0, 2], SortedSet.ofList [1]⟩
    a.kind = .pi8 ∧ b.kind = .pi4 ∧ (a.xPart ∩ b.zPart).size = 3 ∧ (a.zPart ∩ b.xPart).size = 1 ∧
      a.commutes b = true ∧ Even (a.clashes b).ncard ∧
      (a.spreadY (SortedSet.ofList [2])).commutes b = true := by
  intro a b
  have hcommutes : a.commutes b = true := by decide
  obtain ⟨hpauli, -, -, hspread, -⟩ := commutes_pauli a b
  have heven := (hpauli (Or.inl rfl) (Or.inr rfl)).2
  refine ⟨rfl, rfl, by decide, by decide, hcommutes, heven.1 hcommutes, ?_⟩
  have hempty : b.spreadY ∅ = b := by decide
  rw [← hempty, hspread]
  exact hcommutes

end Rotation

end LatticeSurgery
