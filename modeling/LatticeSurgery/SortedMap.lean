import LatticeSurgery.SortedSet

/-!
# Finite maps listed by key

A `SortedMap` is a list of pairs with strictly increasing keys. Each operation is described by what
`get?` finds afterwards: `get?_insert`, `get?_erase`, `get?_mapValues`. As with sets, the order is
part of the type, so two maps that answer every key alike are equal (`SortedMap.ext_get?`).
-/

namespace LatticeSurgery

/-- A finite map, kept as its entries in increasing order of their keys. -/
structure SortedMap (κ : Type) (ν : Type) [Ordered κ] where
  /-- The entries, smallest key first. -/
  entries : List (κ × ν)
  /-- Each key comes before the later ones. -/
  sorted : entries.Pairwise fun a b => Ordered.before a.1 b.1 = true

namespace SortedMap

open Ordered

variable {κ ν μ : Type} [Ordered κ]

/-- The map without entries. -/
def empty : SortedMap κ ν := ⟨[], List.Pairwise.nil⟩

instance : EmptyCollection (SortedMap κ ν) := ⟨empty⟩
instance : Inhabited (SortedMap κ ν) := ⟨empty⟩

instance [DecidableEq κ] [DecidableEq ν] : DecidableEq (SortedMap κ ν) := fun s t =>
  decidable_of_iff (s.entries = t.entries) (by cases s; cases t; simp)

/-- The number of entries. -/
def size (m : SortedMap κ ν) : Nat := m.entries.length

/-- Whether there is no entry. -/
def isEmpty (m : SortedMap κ ν) : Bool := m.entries.isEmpty

/-- The first value stored under `k` in a list of entries. -/
def find (k : κ) : List (κ × ν) → Option ν
  | [] => none
  | e :: es => if same k e.1 then some e.2 else find k es

/-- The value at `k`. -/
def get? (m : SortedMap κ ν) (k : κ) : Option ν := find k m.entries

/-- The value at `k`, or `d` if there is none. -/
def getD (m : SortedMap κ ν) (k : κ) (d : ν) : ν := (m.get? k).getD d

/-- Whether there is a value at `k`. -/
def contains (m : SortedMap κ ν) (k : κ) : Bool := (m.get? k).isSome

/-- The keys, smallest first. -/
def keys (m : SortedMap κ ν) : List κ := m.entries.map Prod.fst

/-- The values, in the order of their keys. -/
def values (m : SortedMap κ ν) : List ν := m.entries.map Prod.snd

/-- The set of keys. -/
def keySet (m : SortedMap κ ν) : SortedSet κ := ⟨m.keys, List.pairwise_map.2 m.sorted⟩

@[simp] theorem get?_empty (k : κ) : (∅ : SortedMap κ ν).get? k = none := rfl

/-! ## Insertion -/

/-- Entries with increasing keys, with `v` put at `k` in place of what was there. -/
def insertList (k : κ) (v : ν) : List (κ × ν) → List (κ × ν)
  | [] => [(k, v)]
  | e :: es =>
    if before e.1 k then e :: insertList k v es
    else if before k e.1 then (k, v) :: e :: es
    else (k, v) :: es

theorem find_insertList_self (k : κ) (v : ν) (l : List (κ × ν)) :
    find k (insertList k v l) = some v := by
  induction l with
  | nil => simp [insertList, find]
  | cons e es ih =>
    unfold insertList
    split
    · rename_i h
      simp [find, (ne_of_before h).symm, ih]
    · split <;> simp [find]

theorem find_insertList_ne {j k : κ} (h : j ≠ k) (v : ν) (l : List (κ × ν)) :
    find j (insertList k v l) = find j l := by
  induction l with
  | nil => simp [insertList, find, h]
  | cons e es ih =>
    unfold insertList
    split
    · simp only [find, ih]
    · split
      · simp [find, h]
      · rename_i h₁ h₂
        have : e.1 = k := before_total (by simpa using h₁) (by simpa using h₂)
        simp [find, this, h]

theorem mem_keys_insertList {j k : κ} {v : ν} {l : List (κ × ν)} :
    j ∈ (insertList k v l).map Prod.fst ↔ j = k ∨ j ∈ l.map Prod.fst := by
  induction l with
  | nil => simp [insertList]
  | cons e es ih =>
    unfold insertList
    split
    · rw [List.map_cons, List.mem_cons, ih, List.map_cons, List.mem_cons]
      constructor
      · rintro (h | h | h) <;> simp [h]
      · rintro (h | h | h) <;> simp [h]
    · split
      · simp
      · rename_i h₁ h₂
        have : e.1 = k := before_total (by simpa using h₁) (by simpa using h₂)
        subst this
        simp

theorem pairwise_insertList {k : κ} {v : ν} {l : List (κ × ν)}
    (h : l.Pairwise fun a b => before a.1 b.1 = true) :
    (insertList k v l).Pairwise fun a b => before a.1 b.1 = true := by
  induction l with
  | nil => simp [insertList]
  | cons e es ih =>
    rw [List.pairwise_cons] at h
    unfold insertList
    split
    · rename_i he
      refine List.pairwise_cons.2 ⟨fun b hb => ?_, ih h.2⟩
      have : b.1 ∈ (insertList k v es).map Prod.fst := List.mem_map_of_mem hb
      rcases mem_keys_insertList.1 this with h' | h'
      · rw [h']; exact he
      · obtain ⟨c, hc, hcb⟩ := List.mem_map.1 h'
        rw [← hcb]; exact h.1 c hc
    · split
      · rename_i he
        refine List.pairwise_cons.2 ⟨fun b hb => ?_, List.pairwise_cons.2 h⟩
        rcases List.mem_cons.1 hb with rfl | hb
        · exact he
        · exact before_trans he (h.1 b hb)
      · rename_i h₁ h₂
        have : e.1 = k := before_total (by simpa using h₁) (by simpa using h₂)
        refine List.pairwise_cons.2 ⟨fun b hb => ?_, h.2⟩
        show before k b.1 = true
        rw [← this]; exact h.1 b hb

/-- The map with `v` at `k`. -/
def insert (m : SortedMap κ ν) (k : κ) (v : ν) : SortedMap κ ν :=
  ⟨insertList k v m.entries, pairwise_insertList m.sorted⟩

@[simp] theorem get?_insert_self (m : SortedMap κ ν) (k : κ) (v : ν) :
    (m.insert k v).get? k = some v := find_insertList_self k v _

theorem get?_insert_ne (m : SortedMap κ ν) {j k : κ} (h : j ≠ k) (v : ν) :
    (m.insert k v).get? j = m.get? j := find_insertList_ne h v _

theorem get?_insert (m : SortedMap κ ν) (j k : κ) (v : ν) :
    (m.insert k v).get? j = if same j k then some v else m.get? j := by
  by_cases h : j = k
  · subst h; simp
  · rw [get?_insert_ne m h, if_neg]; simpa using h

/-! ## The other operations -/

/-- The entries that pass the test. -/
def filter (p : κ → ν → Bool) (m : SortedMap κ ν) : SortedMap κ ν :=
  ⟨m.entries.filter fun e => p e.1 e.2, m.sorted.filter _⟩

/-- The map without an entry at `k`. -/
def erase (m : SortedMap κ ν) (k : κ) : SortedMap κ ν := m.filter fun j _ => !same k j

theorem find_filter_key (q : κ → Bool) (k : κ) (l : List (κ × ν)) :
    find k (l.filter fun e => q e.1) = if q k then find k l else none := by
  induction l with
  | nil => simp [find]
  | cons e es ih =>
    rw [List.filter_cons]
    by_cases hk : same k e.1 = true
    · have hk' := same_iff.1 hk
      by_cases hq : q e.1 = true
      · simp [hq, find, hk', same_self]
      · rw [if_neg hq, ih, hk', if_neg hq, if_neg hq]
    · by_cases hq : q e.1 = true
      · simp only [hq, if_true, find, hk, ih]
        simp
      · rw [if_neg hq, ih]
        simp only [find, hk]
        simp

theorem get?_erase (m : SortedMap κ ν) (j k : κ) :
    (m.erase k).get? j = if same k j then none else m.get? j := by
  show find j (m.entries.filter fun e => !same k e.1) = _
  rw [find_filter_key (fun i => !same k i)]
  cases same k j <;> simp [get?]

@[simp] theorem get?_erase_self (m : SortedMap κ ν) (k : κ) : (m.erase k).get? k = none := by
  simp [get?_erase, same_self]

theorem get?_erase_ne (m : SortedMap κ ν) {j k : κ} (h : j ≠ k) :
    (m.erase k).get? j = m.get? j := by
  rw [get?_erase, if_neg]; simpa using h.symm

/-- The map with `f` applied to each value. -/
def mapValues (f : κ → ν → μ) (m : SortedMap κ ν) : SortedMap κ μ :=
  ⟨m.entries.map fun e => (e.1, f e.1 e.2), List.pairwise_map.2 m.sorted⟩

theorem get?_mapValues (f : κ → ν → μ) (m : SortedMap κ ν) (k : κ) :
    (m.mapValues f).get? k = (m.get? k).map (f k) := by
  show find k (m.entries.map fun e => (e.1, f e.1 e.2)) = (find k m.entries).map (f k)
  induction m.entries with
  | nil => rfl
  | cons e es ih =>
    simp only [List.map_cons, find, ih]
    split
    · rename_i h; rw [same_iff.1 h]; rfl
    · rfl

/-- The map with the value at `k` replaced by `f` of it; `f` is given `none` when there is no
value. -/
def upsert (m : SortedMap κ ν) (k : κ) (f : Option ν → ν) : SortedMap κ ν :=
  m.insert k (f (m.get? k))

/-- The map with `f` applied to the value at `k`, if there is one. -/
def modify (m : SortedMap κ ν) (k : κ) (f : ν → ν) : SortedMap κ ν :=
  match m.get? k with
  | some v => m.insert k (f v)
  | none => m

/-- The entries of a list, a later one replacing an earlier one with the same key. -/
def ofList (l : List (κ × ν)) : SortedMap κ ν := l.foldl (fun m e => m.insert e.1 e.2) ∅

theorem find_isSome_iff {k : κ} {l : List (κ × ν)} :
    (find k l).isSome = true ↔ k ∈ l.map Prod.fst := by
  induction l with
  | nil => simp [find]
  | cons e es ih =>
    simp only [find]
    split
    · rename_i h; simp [same_iff.1 h]
    · rename_i h
      rw [ih, List.map_cons, List.mem_cons]
      have : k ≠ e.1 := by simpa using h
      simp [this]

@[simp] theorem contains_iff {m : SortedMap κ ν} {k : κ} : m.contains k = true ↔ k ∈ m.keys :=
  find_isSome_iff

theorem mem_keySet {m : SortedMap κ ν} {k : κ} : k ∈ m.keySet ↔ m.contains k = true :=
  contains_iff.symm

/-- An entry of a map is what looking up its key finds. -/
theorem mem_entries_iff {m : SortedMap κ ν} {k : κ} {v : ν} :
    (k, v) ∈ m.entries ↔ m.get? k = some v := by
  obtain ⟨l, hl⟩ := m
  show (k, v) ∈ l ↔ find k l = some v
  induction l with
  | nil => simp [find]
  | cons e es ih =>
    rw [List.pairwise_cons] at hl
    simp only [find, List.mem_cons]
    split
    · rename_i h
      have hk := same_iff.1 h
      constructor
      · rintro (h' | h')
        · rw [← h']
        · exact absurd (hl.1 _ h') (by simp [hk, before_irrefl])
      · intro h'
        left
        rw [hk, ← Option.some.inj h']
    · rename_i h
      have hk : k ≠ e.1 := by simpa using h
      rw [← ih hl.2]
      constructor
      · rintro (h' | h')
        · exact absurd (congrArg Prod.fst h') hk
        · exact h'
      · exact Or.inr

/-- A map is determined by its answers. -/
theorem ext_get? {s t : SortedMap κ ν} (h : ∀ k, s.get? k = t.get? k) : s = t := by
  have hmem : ∀ e : κ × ν, e ∈ s.entries ↔ e ∈ t.entries := fun ⟨k, v⟩ => by
    rw [mem_entries_iff, mem_entries_iff, h k]
  obtain ⟨l, hl⟩ := s
  obtain ⟨m, hm⟩ := t
  have key : ∀ l m : List (κ × ν), (l.Pairwise fun a b => before a.1 b.1 = true) →
      (m.Pairwise fun a b => before a.1 b.1 = true) → (∀ a, a ∈ l ↔ a ∈ m) → l = m := by
    intro l
    induction l with
    | nil =>
      intro m _ _ h
      cases m with
      | nil => rfl
      | cons y ys => exact absurd ((h y).2 (by simp)) List.not_mem_nil
    | cons x xs ih =>
      intro m hl hm h
      cases m with
      | nil => exact absurd ((h x).1 (by simp)) List.not_mem_nil
      | cons y ys =>
        rw [List.pairwise_cons] at hl hm
        have hxy : x = y := by
          rcases List.mem_cons.1 ((h x).1 (by simp)) with hx | hx
          · exact hx
          · rcases List.mem_cons.1 ((h y).2 (by simp)) with hy | hy
            · exact hy.symm
            · exact absurd (hm.1 x hx) (by simp [before_asymm (hl.1 y hy)])
        subst hxy
        rw [ih ys hl.2 hm.2 fun a => ?_]
        constructor
        · intro ha
          rcases List.mem_cons.1 ((h a).1 (List.mem_cons_of_mem _ ha)) with rfl | h'
          · exact absurd (hl.1 a ha) (by simp [before_irrefl])
          · exact h'
        · intro ha
          rcases List.mem_cons.1 ((h a).2 (List.mem_cons_of_mem _ ha)) with rfl | h'
          · exact absurd (hm.1 a ha) (by simp [before_irrefl])
          · exact h'
  have := key l m hl hm hmem
  subst this
  rfl

end SortedMap

end LatticeSurgery
