import LatticeSurgery.Circuit.Commutation
import LatticeSurgery.Dependency.Rule
import LatticeSurgery.Proofs.Collections

/-!
# Laws of commutation

Commuting is symmetric, depends on the shapes of the two rotations only, and holds for rotations on
different qubits. A rigid rotation commutes with nothing that shares a qubit with it.
-/

namespace LatticeSurgery

namespace SortedSet

variable {α β : Type} [Ordered α] [Ordered β]

theorem inter_comm (s t : SortedSet α) : s ∩ t = t ∩ s :=
  ext_mem fun a => by rw [mem_inter, mem_inter, And.comm]

theorem disjoint_comm (s t : SortedSet α) : s.disjoint t = t.disjoint s := by
  rw [Bool.eq_iff_iff, disjoint_iff, disjoint_iff]
  exact ⟨fun h a ht hs => h a hs ht, fun h a hs ht => h a ht hs⟩

theorem disjoint_eq_false_iff {s t : SortedSet α} :
    s.disjoint t = false ↔ ∃ a, a ∈ s ∧ a ∈ t := by
  rw [← Bool.not_eq_true, disjoint_iff]
  push Not
  rfl

theorem size_eq_zero {s : SortedSet α} (h : ∀ a, a ∉ s) : s.size = 0 := by
  rw [size, List.eq_nil_iff_forall_not_mem.2 h]
  rfl

theorem map_union (f : α → β) (s t : SortedSet α) : (s ∪ t).map f = s.map f ∪ t.map f := by
  refine ext_mem fun b => ?_
  simp only [mem_map, mem_union]
  constructor
  · rintro ⟨a, ha | ha, rfl⟩
    · exact Or.inl ⟨a, ha, rfl⟩
    · exact Or.inr ⟨a, ha, rfl⟩
  · rintro (⟨a, ha, rfl⟩ | ⟨a, ha, rfl⟩)
    · exact ⟨a, Or.inl ha, rfl⟩
    · exact ⟨a, Or.inr ha, rfl⟩

end SortedSet

namespace Rotation

open Dependency

theorem mem_activeQubits {r : Rotation} {q : Nat} :
    q ∈ r.activeQubits ↔ q ∈ r.x ∨ q ∈ r.y ∨ q ∈ r.z := by
  rw [activeQubits, SortedSet.mem_union, SortedSet.mem_union, or_assoc]

theorem mem_xPart {r : Rotation} {q : Nat} : q ∈ r.xPart ↔ q ∈ r.x ∨ q ∈ r.y :=
  SortedSet.mem_union

theorem mem_zPart {r : Rotation} {q : Nat} : q ∈ r.zPart ↔ q ∈ r.z ∨ q ∈ r.y :=
  SortedSet.mem_union

theorem activeQubits_rename (name : Nat → Nat) (r : Rotation) :
    (r.rename name).activeQubits = r.activeQubits.map name := by
  rw [activeQubits, activeQubits, SortedSet.map_union, SortedSet.map_union]
  rfl

theorem activeQubits_of_xPart {r : Rotation} {q : Nat} (h : q ∈ r.xPart) : q ∈ r.activeQubits := by
  rw [mem_xPart] at h
  rw [mem_activeQubits]
  tauto

theorem activeQubits_of_zPart {r : Rotation} {q : Nat} (h : q ∈ r.zPart) : q ∈ r.activeQubits := by
  rw [mem_zPart] at h
  rw [mem_activeQubits]
  tauto

theorem commutes_comm (a b : Rotation) : a.commutes b = b.commutes a := by
  unfold commutes triviallyCommutes
  rw [SortedSet.disjoint_comm, SortedSet.inter_comm a.xPart, SortedSet.inter_comm a.zPart,
    Bool.or_comm, Nat.add_comm]

/-- Rotations on different qubits commute. -/
theorem commutes_of_triviallyCommutes {a b : Rotation} (h : a.triviallyCommutes b = true) :
    a.commutes b = true := by
  unfold commutes
  split
  · exact h
  · have hd : ∀ q ∈ a.activeQubits, q ∉ b.activeQubits := SortedSet.disjoint_iff.1 h
    have hx : (a.xPart ∩ b.zPart).size = 0 := SortedSet.size_eq_zero fun q hq => by
      rw [SortedSet.mem_inter] at hq
      exact hd q (activeQubits_of_xPart hq.1) (activeQubits_of_zPart hq.2)
    have hz : (a.zPart ∩ b.xPart).size = 0 := SortedSet.size_eq_zero fun q hq => by
      rw [SortedSet.mem_inter] at hq
      exact hd q (activeQubits_of_zPart hq.1) (activeQubits_of_xPart hq.2)
    simp [hx, hz]

/-- Rotations that do not commute share a qubit. -/
theorem exists_common_qubit {a b : Rotation} (h : a.commutes b = false) :
    ∃ q, q ∈ a.activeQubits ∧ q ∈ b.activeQubits := by
  refine SortedSet.disjoint_eq_false_iff.1 (Bool.eq_false_iff.2 fun hd => ?_)
  rw [commutes_of_triviallyCommutes hd] at h
  cases h

/-- A measurement or a turn commutes only with what acts on other qubits. -/
theorem commutes_of_isRigid {a b : Rotation} (h : a.isRigid = true ∨ b.isRigid = true) :
    a.commutes b = a.activeQubits.disjoint b.activeQubits := by
  unfold commutes triviallyCommutes
  rw [if_pos]
  rcases h with h | h <;> simp [h]

theorem eq_of_shapeOf_eq {a b : Rotation} (h : shapeOf a = shapeOf b) :
    a.kind = b.kind ∧ a.x = b.x ∧ a.y = b.y ∧ a.z = b.z := by
  simp only [shapeOf, Prod.mk.injEq] at h
  obtain ⟨hk, hx, hy, hz⟩ := h
  refine ⟨hk, SortedSet.ext_mem fun q => ?_, SortedSet.ext_mem fun q => ?_,
    SortedSet.ext_mem fun q => ?_⟩
  · rw [SortedSet.mem_def, hx]; rfl
  · rw [SortedSet.mem_def, hy]; rfl
  · rw [SortedSet.mem_def, hz]; rfl

theorem shapeOf_eq_iff {a b : Rotation} :
    shapeOf a = shapeOf b ↔ a.kind = b.kind ∧ a.x = b.x ∧ a.y = b.y ∧ a.z = b.z := by
  refine ⟨eq_of_shapeOf_eq, fun h => ?_⟩
  obtain ⟨hk, hx, hy, hz⟩ := h
  rw [shapeOf, shapeOf, hk, hx, hy, hz]

/-- What commutation looks at depends on the shape of a rotation alone. -/
theorem parts_congr {a b : Rotation} (h : shapeOf a = shapeOf b) :
    a.isRigid = b.isRigid ∧ a.activeQubits = b.activeQubits ∧ a.xPart = b.xPart ∧
      a.zPart = b.zPart := by
  obtain ⟨hk, hx, hy, hz⟩ := eq_of_shapeOf_eq h
  refine ⟨?_, ?_, ?_, ?_⟩
  · rw [isRigid, isRigid, hk]
  · rw [activeQubits, activeQubits, hx, hy, hz]
  · rw [xPart, xPart, hx, hy]
  · rw [zPart, zPart, hz, hy]

/-- Whether two rotations commute depends on their shapes alone. -/
theorem commutes_congr {a a' b b' : Rotation} (ha : shapeOf a = shapeOf a')
    (hb : shapeOf b = shapeOf b') : a.commutes b = a'.commutes b' := by
  obtain ⟨hr, hq, hx, hz⟩ := parts_congr ha
  obtain ⟨hr', hq', hx', hz'⟩ := parts_congr hb
  rw [commutes, commutes, triviallyCommutes, triviallyCommutes, hr, hr', hq, hq', hx, hx', hz, hz']

end Rotation

end LatticeSurgery
