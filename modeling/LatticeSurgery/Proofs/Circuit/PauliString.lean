import LatticeSurgery.Proofs.Dependency.Commutation
import Mathlib.Data.Finset.SymmDiff
import Mathlib.Data.ZMod.Basic
import Mathlib.Tactic.LinearCombination
import Mathlib.Tactic.Ring

/-!
# Signed Pauli strings

A rotation acts about a Pauli string with a sign. Strings are multiplied here with their phases, a power
of i, so that one can say what a π/4 rotation makes of a later string (`PauliString.conjugate`). The
product has the sign that the program's own test of commutation ignores; up to the sign the two agree
(`Rotation.string_comm_iff`).
-/

namespace LatticeSurgery

open scoped symmDiff

/-- The members of a set. -/
def SortedSet.toFinset (s : SortedSet Nat) : Finset Nat := s.toList.toFinset

namespace SortedSet

variable {s t : SortedSet Nat}

@[simp] theorem mem_toFinset {q : Nat} : q ∈ s.toFinset ↔ q ∈ s := List.mem_toFinset

theorem card_toFinset (s : SortedSet Nat) : s.toFinset.card = s.size :=
  List.toFinset_card_of_nodup s.nodup

@[simp] theorem toFinset_empty : (∅ : SortedSet Nat).toFinset = ∅ := rfl

@[simp] theorem toFinset_union : (s ∪ t).toFinset = s.toFinset ∪ t.toFinset := by
  ext q
  simp

@[simp] theorem toFinset_inter : (s ∩ t).toFinset = s.toFinset ∩ t.toFinset := by
  ext q
  simp

end SortedSet

/-- A power of i times a product of X and Z: first X on each qubit of `x`, then Z on each qubit of
`z`. On a qubit of both the factor is XZ, which is Y up to a power of i. -/
@[ext] structure PauliString where
  /-- The power of i. -/
  phase : ZMod 4
  /-- The qubits with a factor X. -/
  x : Finset Nat
  /-- The qubits with a factor Z. -/
  z : Finset Nat
deriving DecidableEq

namespace PauliString

variable {a b p q : PauliString} {c : ZMod 4}

/-- Each Z of the first string that passes an X of the second on the same qubit changes the sign. -/
instance : Mul PauliString where
  mul a b := ⟨a.phase + b.phase + 2 * (a.z ∩ b.x).card, a.x ∆ b.x, a.z ∆ b.z⟩

theorem mul_def (a b : PauliString) :
    a * b = ⟨a.phase + b.phase + 2 * (a.z ∩ b.x).card, a.x ∆ b.x, a.z ∆ b.z⟩ := rfl

/-- The members of exactly one of two sets, and the common ones twice. -/
theorem card_symmDiff_add (s t : Finset Nat) :
    (s ∆ t).card + 2 * (s ∩ t).card = s.card + t.card := by
  have hcard : (s ∆ t).card = (s \ t).card + (t \ s).card :=
    Finset.card_union_of_disjoint disjoint_sdiff_sdiff
  have hs := Finset.card_inter_add_card_sdiff s t
  have ht := Finset.card_inter_add_card_sdiff t s
  rw [Finset.inter_comm] at ht
  omega

/-- Counting twice modulo four, common members do not matter. -/
theorem two_mul_card_symmDiff (s t : Finset Nat) :
    (2 * (s ∆ t).card : ZMod 4) = 2 * s.card + 2 * t.card := by
  have hcard : ((s ∆ t).card + 2 * (s ∩ t).card : ZMod 4) = s.card + t.card := by
    exact_mod_cast congrArg (Nat.cast : Nat → ZMod 4) (card_symmDiff_add s t)
  have hfour : (4 : ZMod 4) = 0 := by decide
  linear_combination 2 * hcard - ((s ∩ t).card : ZMod 4) * hfour

protected theorem mul_assoc (a b d : PauliString) : a * b * d = a * (b * d) := by
  have hleft : (2 * ((a.z ∆ b.z) ∩ d.x).card : ZMod 4) =
      2 * (a.z ∩ d.x).card + 2 * (b.z ∩ d.x).card := by
    rw [← two_mul_card_symmDiff]
    exact congrArg (fun s : Finset Nat => (2 * s.card : ZMod 4)) (inf_symmDiff_distrib_right ..)
  have hright : (2 * (a.z ∩ (b.x ∆ d.x)).card : ZMod 4) =
      2 * (a.z ∩ b.x).card + 2 * (a.z ∩ d.x).card := by
    rw [← two_mul_card_symmDiff]
    exact congrArg (fun s : Finset Nat => (2 * s.card : ZMod 4)) (inf_symmDiff_distrib_left ..)
  ext1
  · simp only [mul_def, hleft, hright]
    ring
  · exact symmDiff_assoc _ _ _
  · exact symmDiff_assoc _ _ _

theorem two_mul_natCast_eq_iff {m n : Nat} : (2 * m : ZMod 4) = 2 * n ↔ m % 2 = n % 2 := by
  have hcast : ∀ k : Nat, (2 * k : ZMod 4) = ((2 * k : Nat) : ZMod 4) := fun k => by push_cast; rfl
  rw [hcast, hcast, ZMod.natCast_eq_natCast_iff']
  omega

/-- Two strings commute when the X of each meet the Z of the other on an even number of qubits
together. -/
theorem comm_iff : a * b = b * a ↔ ((a.z ∩ b.x).card + (b.z ∩ a.x).card) % 2 = 0 := by
  have hphase : a * b = b * a ↔ (2 * (a.z ∩ b.x).card : ZMod 4) = 2 * (b.z ∩ a.x).card := by
    rw [mul_def, mul_def, PauliString.mk.injEq, add_comm b.phase, symmDiff_comm b.x,
      symmDiff_comm b.z]
    simp only [add_right_inj, and_true]
  rw [hphase, two_mul_natCast_eq_iff]
  omega

/-- The string with another power of i in front. -/
def turned (k : ZMod 4) (a : PauliString) : PauliString := { a with phase := a.phase + k }

/-- What takes the place of a later string `p` after a rotation by π/4 about `q`: a string that commutes
with `q` stays, and one that does not is replaced by the product, with a factor i or -i that depends on
the direction `c` in which a positive rotation turns. -/
def conjugate (c : ZMod 4) (q p : PauliString) : PauliString :=
  if q * p = p * q then p else (q * p).turned c

end PauliString

/-- The sign as a power of i. -/
def Sign.phase : Sign → ZMod 4
  | plus => 0
  | minus => 2

namespace Rotation

/-- The signed string of a rotation. Each Y is i times XZ. -/
def string (r : Rotation) : PauliString where
  phase := r.sign.phase + r.y.size
  x := r.xPart.toFinset
  z := r.zPart.toFinset

/-- Rotations commute when their strings do. -/
theorem string_comm_iff {a b : Rotation} (ha : a.isRigid = false) (hb : b.isRigid = false) :
    a.string * b.string = b.string * a.string ↔ a.commutes b = true := by
  rw [PauliString.comm_iff, commutes, ha, hb]
  simp only [string, ← SortedSet.toFinset_inter, SortedSet.card_toFinset, Bool.or_self,
    Bool.false_eq_true, if_false, decide_eq_true_eq]
  rw [SortedSet.inter_comm b.zPart, add_comm]

end Rotation

end LatticeSurgery
