import LatticeSurgery.SortedMap

/-!
# Maps in order of insertion

A `SwapMap` keeps its entries in the order in which their keys were first set. Setting a key again
keeps its place, and erasing an entry is quick at the price of the order: the last entry moves to
the place that becomes free. `swapErase` is the same removal on a plain list.

What a map finds does not depend on the order: the laws of `get?` are those of any finite map
(`get?_set`, `get?_erase`).
-/

namespace LatticeSurgery

section SwapErase

variable {α : Type}

/-- The list with its last element moved to the front. -/
def lastFirst (l : List α) : List α :=
  match l.getLast? with
  | none => []
  | some a => a :: l.dropLast

/-- The list without the first element that passes the test, the last element taking its place. -/
def swapErase (p : α → Bool) : List α → List α
  | [] => []
  | x :: xs => if p x then lastFirst xs else x :: swapErase p xs

theorem lastFirst_perm (l : List α) : (lastFirst l).Perm l := by
  unfold lastFirst
  split
  · rename_i h
    rw [List.getLast?_eq_none_iff.1 h]
  · rename_i a h
    obtain ⟨l', rfl⟩ := List.getLast?_eq_some_iff.1 h
    rw [List.dropLast_concat]
    exact (List.perm_append_singleton a l').symm

theorem swapErase_perm (p : α → Bool) (l : List α) : (swapErase p l).Perm (l.eraseP p) := by
  induction l with
  | nil => exact List.Perm.refl _
  | cons x xs ih =>
    unfold swapErase
    cases hp : p x with
    | true => simpa [hp] using lastFirst_perm xs
    | false => simpa [hp] using ih

end SwapErase

/-- A finite map that keeps its entries in order of insertion. -/
structure SwapMap (κ : Type) (ν : Type) [Ordered κ] where
  /-- The entries, in order of insertion as far as no removal disturbed it. -/
  entries : List (κ × ν)
  /-- No key occurs twice. -/
  nodup : (entries.map Prod.fst).Nodup

namespace SwapMap

open Ordered

variable {κ ν : Type} [Ordered κ]

instance [DecidableEq κ] [DecidableEq ν] : DecidableEq (SwapMap κ ν) := fun s t =>
  decidable_of_iff (s.entries = t.entries) (by cases s; cases t; simp)

/-- The map without entries. -/
def empty : SwapMap κ ν := ⟨[], List.nodup_nil⟩

instance : EmptyCollection (SwapMap κ ν) := ⟨empty⟩
instance : Inhabited (SwapMap κ ν) := ⟨empty⟩

/-- The number of entries. -/
def size (m : SwapMap κ ν) : Nat := m.entries.length

/-- The keys, in the order of the entries. -/
def keys (m : SwapMap κ ν) : List κ := m.entries.map Prod.fst

/-- The value at `k`. -/
def get? (m : SwapMap κ ν) (k : κ) : Option ν := SortedMap.find k m.entries

/-- Whether there is a value at `k`. -/
def contains (m : SwapMap κ ν) (k : κ) : Bool := (m.get? k).isSome

@[simp] theorem get?_empty (k : κ) : (∅ : SwapMap κ ν).get? k = none := rfl

@[simp] theorem contains_iff {m : SwapMap κ ν} {k : κ} : m.contains k = true ↔ k ∈ m.keys :=
  SortedMap.find_isSome_iff

/-! ## Setting a value -/

/-- Entries with the value at `k` replaced by `v`, or with a new entry at the end. -/
def setList (k : κ) (v : ν) : List (κ × ν) → List (κ × ν)
  | [] => [(k, v)]
  | e :: es => if same k e.1 then (k, v) :: es else e :: setList k v es

theorem mem_keys_setList {j k : κ} {v : ν} {l : List (κ × ν)} :
    j ∈ (setList k v l).map Prod.fst ↔ j = k ∨ j ∈ l.map Prod.fst := by
  induction l with
  | nil => simp [setList]
  | cons e es ih =>
    unfold setList
    split
    · rename_i h
      simp [same_iff.1 h]
    · rw [List.map_cons, List.mem_cons, ih, List.map_cons, List.mem_cons]
      constructor
      · rintro (h | h | h) <;> simp [h]
      · rintro (h | h | h) <;> simp [h]

theorem nodup_setList {k : κ} {v : ν} {l : List (κ × ν)} (h : (l.map Prod.fst).Nodup) :
    ((setList k v l).map Prod.fst).Nodup := by
  induction l with
  | nil => simp [setList]
  | cons e es ih =>
    rw [List.map_cons, List.nodup_cons] at h
    unfold setList
    split
    · rename_i hk
      rw [List.map_cons, List.nodup_cons, same_iff.1 hk]
      exact h
    · rename_i hk
      rw [List.map_cons, List.nodup_cons, mem_keys_setList]
      refine ⟨?_, ih h.2⟩
      rintro (h' | h')
      · exact absurd h'.symm (by simpa using hk)
      · exact h.1 h'

theorem find_setList (j k : κ) (v : ν) (l : List (κ × ν)) :
    SortedMap.find j (setList k v l) = if same j k then some v else SortedMap.find j l := by
  induction l with
  | nil => simp [setList, SortedMap.find]
  | cons e es ih =>
    unfold setList
    split
    · rename_i h
      simp only [SortedMap.find, ← same_iff.1 h]
      split <;> rfl
    · rename_i h
      simp only [SortedMap.find, ih]
      split
      · rename_i hj
        rw [if_neg]
        rw [same_iff.1 hj]
        intro h'
        exact h (same_iff.2 (same_iff.1 h').symm)
      · rfl

/-- The map with `v` at `k`. A new key goes to the end. -/
def set (m : SwapMap κ ν) (k : κ) (v : ν) : SwapMap κ ν :=
  ⟨setList k v m.entries, nodup_setList m.nodup⟩

theorem get?_set (m : SwapMap κ ν) (j k : κ) (v : ν) :
    (m.set k v).get? j = if same j k then some v else m.get? j := find_setList j k v _

/-- The map with the value at `k` replaced by `f` of it; `f` is given `none` when there is no
value, and the new entry goes to the end. -/
def upsert (m : SwapMap κ ν) (k : κ) (f : Option ν → ν) : SwapMap κ ν := m.set k (f (m.get? k))

/-- The map with `f` applied to the value at `k`, if there is one. -/
def modify (m : SwapMap κ ν) (k : κ) (f : ν → ν) : SwapMap κ ν :=
  match m.get? k with
  | some v => m.set k (f v)
  | none => m

theorem get?_modify (m : SwapMap κ ν) (j k : κ) (f : ν → ν) :
    (m.modify k f).get? j = if same j k then (m.get? j).map f else m.get? j := by
  unfold modify
  split
  · rename_i v h
    rw [get?_set]
    split
    · rename_i hj
      rw [same_iff.1 hj, h]; rfl
    · rfl
  · rename_i h
    split
    · rename_i hj
      rw [same_iff.1 hj, h]; rfl
    · rfl

/-! ## Erasing a value -/

theorem find_eq_some_iff {k : κ} {v : ν} {l : List (κ × ν)} (h : (l.map Prod.fst).Nodup) :
    SortedMap.find k l = some v ↔ (k, v) ∈ l := by
  induction l with
  | nil => simp [SortedMap.find]
  | cons e es ih =>
    rw [List.map_cons, List.nodup_cons] at h
    simp only [SortedMap.find, List.mem_cons]
    split
    · rename_i hk
      have hk := same_iff.1 hk
      constructor
      · intro h'
        left
        rw [hk, ← Option.some.inj h']
      · rintro (h' | h')
        · rw [← h']
        · exact absurd (List.mem_map_of_mem (f := Prod.fst) h') (by rw [hk]; exact h.1)
    · rename_i hk
      have hk : k ≠ e.1 := by simpa using hk
      rw [ih h.2]
      constructor
      · exact Or.inr
      · rintro (h' | h')
        · exact absurd (congrArg Prod.fst h') hk
        · exact h'

theorem eraseP_same (k : κ) {l : List (κ × ν)} (h : (l.map Prod.fst).Nodup) :
    l.eraseP (fun e => same k e.1) = l.filter fun e => !same k e.1 := by
  induction l with
  | nil => rfl
  | cons e es ih =>
    rw [List.map_cons, List.nodup_cons] at h
    cases hk : same k e.1 with
    | true =>
      simp only [List.eraseP_cons, hk, cond_true, List.filter_cons, Bool.not_true,
        Bool.false_eq_true, if_false]
      refine (List.filter_eq_self.2 fun a ha => ?_).symm
      have hne : k ≠ a.1 := by
        rw [same_iff.1 hk]
        exact fun h' => h.1 (h' ▸ List.mem_map_of_mem ha)
      simp [hne]
    | false => simp [hk, ih h.2]

theorem nodup_swapErase (k : κ) {l : List (κ × ν)} (h : (l.map Prod.fst).Nodup) :
    ((swapErase (fun e => same k e.1) l).map Prod.fst).Nodup :=
  ((swapErase_perm _ l).map Prod.fst).nodup_iff.2
    (h.sublist ((List.eraseP_sublist).map Prod.fst))

/-- The map without an entry at `k`, the last entry taking its place. -/
def erase (m : SwapMap κ ν) (k : κ) : SwapMap κ ν :=
  ⟨swapErase (fun e => same k e.1) m.entries, nodup_swapErase k m.nodup⟩

theorem mem_erase_entries {m : SwapMap κ ν} {k : κ} {e : κ × ν} :
    e ∈ (m.erase k).entries ↔ e ∈ m.entries ∧ k ≠ e.1 := by
  rw [erase, (swapErase_perm _ _).mem_iff, eraseP_same k m.nodup]
  simp

theorem get?_eq_some_iff {m : SwapMap κ ν} {k : κ} {v : ν} :
    m.get? k = some v ↔ (k, v) ∈ m.entries := find_eq_some_iff m.nodup

theorem get?_erase (m : SwapMap κ ν) (j k : κ) :
    (m.erase k).get? j = if same k j then none else m.get? j := by
  apply Option.ext
  intro v
  rw [get?_eq_some_iff, mem_erase_entries, ← get?_eq_some_iff]
  split
  · rename_i h
    simp [same_iff.1 h]
  · rename_i h
    have : k ≠ j := by simpa using h
    simp [this]

end SwapMap

end LatticeSurgery
