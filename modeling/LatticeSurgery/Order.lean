/-!
# Strict total orders

Every collection of this library that is listed in order (sets of nodes, maps from qubits, the
blockers of a rotation) is ordered by one class, `Ordered`: a Boolean test `before` with the three
laws of a strict total order. Trichotomy is stated in the form in which it is used, as the fact
that two values neither of which comes before the other are equal (`before_total`), so that the
order decides equality (`same_iff`) and no separate equality test is needed.

The instances follow the usual rules: natural numbers and integers by size, pairs by their first
and then by their second component, lists letter by letter.
-/

namespace LatticeSurgery

/-- A strict total order, given by a test. -/
class Ordered (α : Type) where
  /-- Whether the first value comes strictly before the second. -/
  before : α → α → Bool
  /-- Nothing comes before itself. -/
  before_irrefl : ∀ a, before a a = false
  /-- Coming before is transitive. -/
  before_trans : ∀ {a b c}, before a b = true → before b c = true → before a c = true
  /-- Two values that are not ordered either way are equal. -/
  before_total : ∀ {a b}, before a b = false → before b a = false → a = b

namespace Ordered

variable {α β : Type} [Ordered α] [Ordered β]

/-- Whether two values are equal, decided by the order alone. -/
def same (a b : α) : Bool := !before a b && !before b a

theorem before_asymm {a b : α} (h : before a b = true) : before b a = false := by
  cases hb : before b a with
  | false => rfl
  | true => exact absurd (before_trans h hb) (by simp [before_irrefl])

theorem ne_of_before {a b : α} (h : before a b = true) : a ≠ b := by
  rintro rfl
  simp [before_irrefl] at h

@[simp] theorem same_iff {a b : α} : same a b = true ↔ a = b := by
  constructor
  · intro h
    simp only [same, Bool.and_eq_true, Bool.not_eq_true'] at h
    exact before_total h.1 h.2
  · rintro rfl
    simp [same, before_irrefl]

theorem same_self (a : α) : same a a = true := same_iff.2 rfl

@[simp] theorem same_eq_false_iff {a b : α} : same a b = false ↔ a ≠ b := by
  rw [← Bool.not_eq_true, same_iff]

/-- The smaller of two values. -/
def least (a b : α) : α := if before b a then b else a

/-- The larger of two values. -/
def greatest (a b : α) : α := if before b a then a else b

/-- The values of a list with `c` put in front of the first one whose key does not come before its
own. -/
def placeOn {γ : Type} (key : γ → α) (c : γ) : List γ → List γ
  | [] => [c]
  | x :: xs => if before (key x) (key c) then x :: placeOn key c xs else c :: x :: xs

/-- The values of a list in the order of their keys. Values with equal keys keep their order. -/
def sortOn {γ : Type} (key : γ → α) (l : List γ) : List γ := l.foldr (placeOn key) []

/-- The values of `l` with `a` put in front of the first one that does not come before it. -/
def place (a : α) (l : List α) : List α := placeOn id a l

/-- The values of `l` in order, equal values kept as often as they occur. -/
def sort (l : List α) : List α := sortOn id l

theorem placeOn_perm {γ : Type} (key : γ → α) (c : γ) (l : List γ) :
    (placeOn key c l).Perm (c :: l) := by
  induction l with
  | nil => exact List.Perm.refl _
  | cons x xs ih =>
    unfold placeOn
    split
    · exact (ih.cons x).trans (List.Perm.swap c x xs)
    · exact List.Perm.refl _

theorem sortOn_perm {γ : Type} (key : γ → α) (l : List γ) : (sortOn key l).Perm l := by
  induction l with
  | nil => exact List.Perm.refl _
  | cons x xs ih => exact (placeOn_perm key x _).trans (ih.cons x)

/-- An order read off an injective key. -/
@[reducible] def ofKey {γ : Type} (key : γ → α) (inj : ∀ {a b}, key a = key b → a = b) :
    Ordered γ where
  before a b := before (key a) (key b)
  before_irrefl a := before_irrefl (key a)
  before_trans := before_trans
  before_total h₁ h₂ := inj (before_total h₁ h₂)

instance : Ordered Nat where
  before a b := decide (a < b)
  before_irrefl a := by simp
  before_trans := by simp only [decide_eq_true_eq]; omega
  before_total := by simp only [decide_eq_false_iff_not]; omega

instance : Ordered Int where
  before a b := decide (a < b)
  before_irrefl a := by simp
  before_trans := by simp only [decide_eq_true_eq]; omega
  before_total := by simp only [decide_eq_false_iff_not]; omega

instance : Ordered (α × β) where
  before a b := before a.1 b.1 || (same a.1 b.1 && before a.2 b.2)
  before_irrefl a := by simp [before_irrefl]
  before_trans := by
    intro a b c
    simp only [Bool.or_eq_true, Bool.and_eq_true, same_iff]
    rintro (h₁ | ⟨h₁, h₁'⟩) (h₂ | ⟨h₂, h₂'⟩)
    · exact Or.inl (before_trans h₁ h₂)
    · exact Or.inl (h₂ ▸ h₁)
    · exact Or.inl (h₁ ▸ h₂)
    · exact Or.inr ⟨h₁.trans h₂, before_trans h₁' h₂'⟩
  before_total := by
    rintro ⟨a, b⟩ ⟨c, d⟩
    simp only [Bool.or_eq_false_iff, Bool.and_eq_false_iff, same_eq_false_iff]
    rintro ⟨h₁, h₁'⟩ ⟨h₂, h₂'⟩
    obtain rfl := before_total h₁ h₂
    simp only [ne_eq, not_true_eq_false, false_or] at h₁' h₂'
    rw [before_total h₁' h₂']

/-- Whether one list comes before another, letter by letter, a beginning before its longer
continuations. -/
def beforeList : List α → List α → Bool
  | [], [] => false
  | [], _ :: _ => true
  | _ :: _, [] => false
  | a :: as, b :: bs => before a b || (same a b && beforeList as bs)

instance : Ordered (List α) where
  before := beforeList
  before_irrefl l := by
    induction l with
    | nil => rfl
    | cons a as ih => simp [beforeList, before_irrefl, ih]
  before_trans := by
    intro a
    induction a with
    | nil => intro b c; cases b <;> cases c <;> simp [beforeList]
    | cons a as ih =>
      intro b c
      cases b with
      | nil => simp [beforeList]
      | cons b bs =>
        cases c with
        | nil => simp [beforeList]
        | cons c cs =>
          simp only [beforeList, Bool.or_eq_true, Bool.and_eq_true, same_iff]
          rintro (h₁ | ⟨h₁, h₁'⟩) (h₂ | ⟨h₂, h₂'⟩)
          · exact Or.inl (before_trans h₁ h₂)
          · exact Or.inl (h₂ ▸ h₁)
          · exact Or.inl (h₁ ▸ h₂)
          · exact Or.inr ⟨h₁.trans h₂, ih h₁' h₂'⟩
  before_total := by
    intro a
    induction a with
    | nil => intro b; cases b <;> simp [beforeList]
    | cons a as ih =>
      intro b
      cases b with
      | nil => simp [beforeList]
      | cons b bs =>
        simp only [beforeList, Bool.or_eq_false_iff, Bool.and_eq_false_iff, same_eq_false_iff]
        rintro ⟨h₁, h₁'⟩ ⟨h₂, h₂'⟩
        obtain rfl := before_total h₁ h₂
        simp only [ne_eq, not_true_eq_false, false_or] at h₁' h₂'
        rw [ih h₁' h₂']

end Ordered

end LatticeSurgery
