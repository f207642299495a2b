import LatticeSurgery.Order

/-!
# Finite sets listed in order

A `SortedSet` is a strictly increasing list. The order is part of the type, so two sets with the
same members are equal (`SortedSet.ext_mem`), and listing a set needs no sorting. Each operation is
described by its members: `mem_insert`, `mem_erase`, `mem_filter`, `mem_union`, `mem_ofList`.
-/

namespace LatticeSurgery

/-- A finite set, kept as its members in increasing order. -/
structure SortedSet (α : Type) [Ordered α] where
  /-- The members, smallest first. -/
  toList : List α
  /-- Each member comes before the later ones. -/
  sorted : toList.Pairwise fun a b => Ordered.before a b = true

namespace SortedSet

open Ordered

variable {α β : Type} [Ordered α] [Ordered β]

instance : Membership α (SortedSet α) := ⟨fun s a => a ∈ s.toList⟩

theorem mem_def {a : α} {s : SortedSet α} : a ∈ s ↔ a ∈ s.toList := Iff.rfl

/-- The set without members. -/
def empty : SortedSet α := ⟨[], List.Pairwise.nil⟩

instance : EmptyCollection (SortedSet α) := ⟨empty⟩
instance : Inhabited (SortedSet α) := ⟨empty⟩

instance [DecidableEq α] : DecidableEq (SortedSet α) := fun s t =>
  decidable_of_iff (s.toList = t.toList) (by cases s; cases t; simp)

/-- Whether there is no member. -/
def isEmpty (s : SortedSet α) : Bool := s.toList.isEmpty

/-- The number of members. -/
def size (s : SortedSet α) : Nat := s.toList.length

/-- Whether `a` is a member. -/
def contains (s : SortedSet α) (a : α) : Bool := s.toList.any (same a)

@[simp] theorem contains_iff {s : SortedSet α} {a : α} : s.contains a = true ↔ a ∈ s := by
  simp [contains, mem_def]

instance (a : α) (s : SortedSet α) : Decidable (a ∈ s) :=
  decidable_of_iff (s.contains a = true) contains_iff

@[simp] theorem not_mem_empty (a : α) : a ∉ (∅ : SortedSet α) := by
  intro h; exact absurd h List.not_mem_nil

/-! ## Insertion -/

/-- An increasing list with `a` put in its place, unless it is there already. -/
def insertList (a : α) : List α → List α
  | [] => [a]
  | x :: xs =>
    if before x a then x :: insertList a xs
    else if before a x then a :: x :: xs
    else x :: xs

theorem mem_insertList {a b : α} {l : List α} : b ∈ insertList a l ↔ b = a ∨ b ∈ l := by
  induction l with
  | nil => simp [insertList]
  | cons x xs ih =>
    unfold insertList
    split
    · simp only [List.mem_cons, ih]
      constructor
      · rintro (h | h | h) <;> simp [h]
      · rintro (h | h | h) <;> simp [h]
    · split
      · simp
      · rename_i h₁ h₂
        have : x = a := before_total (by simpa using h₁) (by simpa using h₂)
        subst this
        simp

theorem pairwise_insertList {a : α} {l : List α}
    (h : l.Pairwise fun a b => before a b = true) :
    (insertList a l).Pairwise fun a b => before a b = true := by
  induction l with
  | nil => simp [insertList]
  | cons x xs ih =>
    rw [List.pairwise_cons] at h
    unfold insertList
    split
    · rename_i hx
      refine List.pairwise_cons.2 ⟨fun b hb => ?_, ih h.2⟩
      rcases mem_insertList.1 hb with rfl | hb
      · exact hx
      · exact h.1 b hb
    · split
      · rename_i hx
        refine List.pairwise_cons.2 ⟨fun b hb => ?_, List.pairwise_cons.2 h⟩
        rcases List.mem_cons.1 hb with rfl | hb
        · exact hx
        · exact before_trans hx (h.1 b hb)
      · exact List.pairwise_cons.2 h

/-- The set with `a` added. -/
def insert (a : α) (s : SortedSet α) : SortedSet α :=
  ⟨insertList a s.toList, pairwise_insertList s.sorted⟩

@[simp] theorem mem_insert {a b : α} {s : SortedSet α} : b ∈ s.insert a ↔ b = a ∨ b ∈ s :=
  mem_insertList

/-! ## The other operations -/

/-- The members that pass the test. -/
def filter (p : α → Bool) (s : SortedSet α) : SortedSet α :=
  ⟨s.toList.filter p, s.sorted.filter p⟩

@[simp] theorem mem_filter {p : α → Bool} {s : SortedSet α} {a : α} :
    a ∈ s.filter p ↔ a ∈ s ∧ p a = true := by
  simp [filter, mem_def]

/-- The set without `a`. -/
def erase (s : SortedSet α) (a : α) : SortedSet α := s.filter fun b => !same a b

@[simp] theorem mem_erase {s : SortedSet α} {a b : α} : b ∈ s.erase a ↔ b ∈ s ∧ a ≠ b := by
  simp [erase]

/-- The values of a list, in order and without repetitions. -/
def ofList (l : List α) : SortedSet α := l.foldl (fun s a => s.insert a) ∅

theorem mem_foldl_insert {l : List α} {s : SortedSet α} {a : α} :
    a ∈ l.foldl (fun s a => s.insert a) s ↔ a ∈ l ∨ a ∈ s := by
  induction l generalizing s with
  | nil => simp
  | cons x xs ih =>
    rw [List.foldl_cons, ih, mem_insert, List.mem_cons]
    constructor
    · rintro (h | h | h) <;> simp [h]
    · rintro ((h | h) | h) <;> simp [h]

@[simp] theorem mem_ofList {l : List α} {a : α} : a ∈ ofList l ↔ a ∈ l := by
  simp [ofList, mem_foldl_insert]

/-- The members of either set. -/
def union (s t : SortedSet α) : SortedSet α := t.toList.foldl (fun s a => s.insert a) s

instance : Union (SortedSet α) := ⟨union⟩

@[simp] theorem mem_union {s t : SortedSet α} {a : α} : a ∈ s ∪ t ↔ a ∈ s ∨ a ∈ t := by
  show a ∈ union s t ↔ _
  rw [union, mem_foldl_insert, mem_def, mem_def, Or.comm]

/-- The members of both sets. -/
def inter (s t : SortedSet α) : SortedSet α := s.filter t.contains

instance : Inter (SortedSet α) := ⟨inter⟩

@[simp] theorem mem_inter {s t : SortedSet α} {a : α} : a ∈ s ∩ t ↔ a ∈ s ∧ a ∈ t := by
  show a ∈ inter s t ↔ _
  simp [inter]

/-- Whether the two sets have no member in common. -/
def disjoint (s t : SortedSet α) : Bool := s.toList.all fun a => !t.contains a

@[simp] theorem disjoint_iff {s t : SortedSet α} :
    s.disjoint t = true ↔ ∀ a ∈ s, a ∉ t := by
  simp only [disjoint, List.all_eq_true, Bool.not_eq_true', ← Bool.not_eq_true, contains_iff,
    mem_def]

/-- The values of `f` on the members. -/
def map (f : α → β) (s : SortedSet α) : SortedSet β := ofList (s.toList.map f)

@[simp] theorem mem_map {f : α → β} {s : SortedSet α} {b : β} :
    b ∈ s.map f ↔ ∃ a ∈ s, f a = b := by
  rw [map, mem_ofList, List.mem_map]
  rfl

/-- A set is determined by its members. -/
theorem ext_mem {s t : SortedSet α} (h : ∀ a, a ∈ s ↔ a ∈ t) : s = t := by
  obtain ⟨l, hl⟩ := s
  obtain ⟨m, hm⟩ := t
  have key : ∀ l m : List α, (l.Pairwise fun a b => before a b = true) →
      (m.Pairwise fun a b => before a b = true) → (∀ a, a ∈ l ↔ a ∈ m) → l = m := by
    intro l
    induction l with
    | nil =>
      intro m _ _ h
      cases m with
      | nil => rfl
      | cons y ys => exact absurd ((h y).2 (by simp)) List.not_mem_nil
    | cons x xs ih =>
      intro m hl hm h
      cases m with
      | nil => exact absurd ((h x).1 (by simp)) List.not_mem_nil
      | cons y ys =>
        rw [List.pairwise_cons] at hl hm
        have hxy : x = y := by
          rcases List.mem_cons.1 ((h x).1 (by simp)) with hx | hx
          · exact hx
          · rcases List.mem_cons.1 ((h y).2 (by simp)) with hy | hy
            · exact hy.symm
            · exact absurd (hm.1 x hx) (by simp [before_asymm (hl.1 y hy)])
        subst hxy
        rw [ih ys hl.2 hm.2 fun a => ?_]
        constructor
        · intro ha
          rcases List.mem_cons.1 ((h a).1 (List.mem_cons_of_mem _ ha)) with rfl | h'
          · exact absurd (hl.1 a ha) (by simp [before_irrefl])
          · exact h'
        · intro ha
          rcases List.mem_cons.1 ((h a).2 (List.mem_cons_of_mem _ ha)) with rfl | h'
          · exact absurd (hm.1 a ha) (by simp [before_irrefl])
          · exact h'
  have := key l m hl hm h
  subst this
  rfl

theorem nodup (s : SortedSet α) : s.toList.Nodup :=
  s.sorted.imp fun h => ne_of_before h

end SortedSet

end LatticeSurgery
