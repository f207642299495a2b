import LatticeSurgery.SortedMap
import Mathlib.Data.List.Nodup

/-!
# Laws of lists in order, sets and maps

A list into which every value is put at its place stays in order. What looking up finds after the
operations on sorted maps that are built from insertion: reading a list into a map, filtering, changing a
value in place, and folding insertions over a list.
-/

namespace LatticeSurgery

open Ordered

namespace Ordered

variable {α γ : Type} [Ordered α] {key : γ → α}

theorem pairwise_placeOn {c : γ} {l : List γ}
    (h : l.Pairwise fun a b => before (key b) (key a) = false) :
    (placeOn key c l).Pairwise fun a b => before (key b) (key a) = false := by
  induction l with
  | nil => exact List.pairwise_singleton ..
  | cons x xs ih =>
    obtain ⟨hx, hxs⟩ := List.pairwise_cons.1 h
    unfold placeOn
    split
    · next hc =>
      refine List.pairwise_cons.2 ⟨fun b hb => ?_, ih hxs⟩
      rcases List.mem_cons.1 ((placeOn_perm key c xs).mem_iff.1 hb) with rfl | hb
      · exact before_asymm hc
      · exact hx b hb
    · next hc =>
      refine List.pairwise_cons.2 ⟨fun b hb => ?_, h⟩
      rw [Bool.not_eq_true] at hc
      rcases List.mem_cons.1 hb with rfl | hb
      · exact hc
      · cases hbc : before (key b) (key c) with
        | false => rfl
        | true =>
          -- then `b` comes before `c`, and `c` not after `x`, which is not after `b`
          cases hxb : before (key x) (key b) with
          | true => exact absurd (before_trans hxb hbc) (by simp [hc])
          | false => rw [before_total hxb (hx b hb), hbc] at hc; cases hc

theorem pairwise_sortOn (key : γ → α) (l : List γ) :
    (sortOn key l).Pairwise fun a b => before (key b) (key a) = false := by
  induction l with
  | nil => exact List.Pairwise.nil
  | cons c l ih => exact pairwise_placeOn ih

/-- In a list in order, nothing that passes a test comes before the first value that does. -/
theorem not_before_of_find? {valid : α → Bool} {l : List α} {a b : α}
    (hl : l.Pairwise fun a b => before b a = false) (h : l.find? valid = some a) (hb : b ∈ l)
    (hvalid : valid b = true) : before b a = false := by
  obtain ⟨-, front, back, rfl, hfront⟩ := List.find?_eq_some_iff_append.1 h
  rcases List.mem_append.1 hb with hb | hb
  · exact absurd hvalid (by simpa using hfront b hb)
  · rcases List.mem_cons.1 hb with rfl | hb
    · exact before_irrefl b
    · exact List.rel_of_pairwise_cons (List.pairwise_append.1 hl).2.1 hb

/-- Values whose keys are all different have one arrangement by key. -/
theorem sortOn_eq_of_perm {l m : List γ} (hlm : l.Perm m)
    (hm : m.Pairwise fun a b => before (key a) (key b) = true) : sortOn key l = m := by
  have hperm : (sortOn key l).Perm m := (sortOn_perm key l).trans hlm
  refine hperm.eq_of_pairwise (fun a b ha hb hab hba => ?_) (pairwise_sortOn key l)
    (hm.imp before_asymm)
  have hkeys : (m.map key).Nodup := List.pairwise_map.2 (hm.imp ne_of_before)
  exact List.inj_on_of_nodup_map hkeys (hperm.mem_iff.1 ha) hb (before_total hba hab)

end Ordered

namespace SortedSet

variable {α : Type} [Ordered α]

@[simp] theorem isEmpty_iff {s : SortedSet α} : s.isEmpty = true ↔ ∀ a, a ∉ s := by
  rw [isEmpty, List.isEmpty_iff]
  exact List.eq_nil_iff_forall_not_mem

theorem isEmpty_eq_false_iff {s : SortedSet α} : s.isEmpty = false ↔ ∃ a, a ∈ s := by
  rw [← Bool.not_eq_true, isEmpty_iff]
  simp

theorem mem_toList {s : SortedSet α} {a : α} : a ∈ s.toList ↔ a ∈ s := Iff.rfl

end SortedSet

namespace SortedMap

variable {κ ν μ : Type} [Ordered κ]

theorem mem_keys_iff {m : SortedMap κ ν} {k : κ} : k ∈ m.keys ↔ ∃ v, m.get? k = some v := by
  rw [← contains_iff, contains, Option.isSome_iff_exists]

theorem mem_values_iff {m : SortedMap κ ν} {v : ν} : v ∈ m.values ↔ ∃ k, m.get? k = some v := by
  rw [values, List.mem_map]
  constructor
  · rintro ⟨⟨k, w⟩, hm, rfl⟩
    exact ⟨k, mem_entries_iff.1 hm⟩
  · rintro ⟨k, hk⟩
    exact ⟨(k, v), mem_entries_iff.2 hk, rfl⟩

theorem isEmpty_iff {m : SortedMap κ ν} : m.isEmpty = true ↔ ∀ k, m.get? k = none := by
  rw [isEmpty, List.isEmpty_iff]
  constructor
  · intro h k
    rw [get?, h]
    rfl
  · intro h
    refine List.eq_nil_iff_forall_not_mem.2 fun e he => ?_
    obtain ⟨k, v⟩ := e
    rw [mem_entries_iff, h k] at he
    cases he

theorem get?_filter (p : κ → ν → Bool) (m : SortedMap κ ν) (k : κ) :
    (m.filter p).get? k = (m.get? k).filter (p k) := by
  apply Option.ext
  intro v
  rw [← mem_entries_iff, Option.filter_eq_some_iff, ← mem_entries_iff]
  exact List.mem_filter

theorem mem_keySet_filter {p : κ → ν → Bool} {m : SortedMap κ ν} {k : κ} :
    k ∈ (m.filter p).keySet ↔ ∃ v, m.get? k = some v ∧ p k v = true := by
  rw [mem_keySet, contains, get?_filter, Option.isSome_iff_exists]
  simp only [Option.filter_eq_some_iff]

theorem get?_modify (m : SortedMap κ ν) (j k : κ) (f : ν → ν) :
    (m.modify k f).get? j = if same j k then (m.get? j).map f else m.get? j := by
  unfold modify
  split
  · next v h =>
    rw [get?_insert]
    split
    · next hj => rw [same_iff.1 hj, h]; rfl
    · rfl
  · next h =>
    split
    · next hj => rw [same_iff.1 hj, h]; rfl
    · rfl

theorem getD_insert (m : SortedMap κ ν) (j k : κ) (v d : ν) :
    (m.insert k v).getD j d = if same j k then v else m.getD j d := by
  simp only [getD, get?_insert]
  split <;> rfl

theorem insertList_perm {k : κ} (v : ν) {l : List (κ × ν)} (h : find k l = none) :
    (insertList k v l).Perm ((k, v) :: l) := by
  induction l with
  | nil => exact List.Perm.refl _
  | cons e es ih =>
    rw [find] at h
    split at h
    · cases h
    · next hne =>
      unfold insertList
      split
      · exact ((ih h).cons e).trans (List.Perm.swap _ _ _)
      · next hbefore =>
        split
        · exact List.Perm.refl _
        · next hafter =>
          have hsame : e.1 = k := before_total (by simpa using hbefore) (by simpa using hafter)
          rw [hsame, same_self] at hne
          exact absurd rfl hne

/-- A value under a new key joins the values. -/
theorem values_insert_perm {m : SortedMap κ ν} {k : κ} (v : ν) (h : m.get? k = none) :
    (m.insert k v).values.Perm (v :: m.values) :=
  (insertList_perm v h).map Prod.snd

/-- A look-up after inserting the entries of a list finds one of them or what was there before. -/
theorem get?_foldl_insert {l : List (κ × ν)} {m : SortedMap κ ν} {k : κ} {v : ν}
    (h : (l.foldl (fun m e => m.insert e.1 e.2) m).get? k = some v) :
    (k, v) ∈ l ∨ (k ∉ l.map Prod.fst ∧ m.get? k = some v) := by
  induction l generalizing m with
  | nil => exact Or.inr ⟨List.not_mem_nil, h⟩
  | cons e es ih =>
    rcases ih h with hk | ⟨hk, hm⟩
    · exact Or.inl (List.mem_cons_of_mem _ hk)
    · by_cases hke : k = e.1
      · subst hke
        rw [get?_insert_self] at hm
        cases hm
        exact Or.inl List.mem_cons_self
      · rw [get?_insert_ne m hke] at hm
        exact Or.inr ⟨by simp [hke] at hk ⊢; exact hk, hm⟩

/-- Keys of inserted entries have a value. -/
theorem isSome_foldl_insert {l : List (κ × ν)} {m : SortedMap κ ν} {k : κ}
    (h : k ∈ l.map Prod.fst ∨ (m.get? k).isSome = true) :
    ((l.foldl (fun m e => m.insert e.1 e.2) m).get? k).isSome = true := by
  induction l generalizing m with
  | nil => simpa using h
  | cons e es ih =>
    refine ih ?_
    by_cases hke : k = e.1
    · exact Or.inr (by simp [hke])
    · rw [get?_insert_ne m hke]
      simpa [hke] using h

theorem mem_of_get?_ofList {l : List (κ × ν)} {k : κ} {v : ν} (h : (ofList l).get? k = some v) :
    (k, v) ∈ l := by
  rcases get?_foldl_insert h with hl | ⟨-, hn⟩
  · exact hl
  · simp at hn

theorem isSome_get?_ofList {l : List (κ × ν)} {k : κ} :
    ((ofList l).get? k).isSome = true ↔ k ∈ l.map Prod.fst := by
  constructor
  · intro h
    obtain ⟨v, hv⟩ := Option.isSome_iff_exists.1 h
    exact List.mem_map_of_mem (mem_of_get?_ofList hv)
  · exact fun h => isSome_foldl_insert (Or.inl h)

/-- If no key occurs twice, a map read from a list has exactly the entries of the list. -/
theorem get?_ofList_iff {l : List (κ × ν)} (hl : (l.map Prod.fst).Nodup) {k : κ} {v : ν} :
    (ofList l).get? k = some v ↔ (k, v) ∈ l := by
  refine ⟨mem_of_get?_ofList, fun h => ?_⟩
  obtain ⟨w, hw⟩ := Option.isSome_iff_exists.1
    (isSome_get?_ofList.2 (List.mem_map_of_mem (f := Prod.fst) h))
  rw [hw]
  exact congrArg some (congrArg Prod.snd
    (List.inj_on_of_nodup_map hl (mem_of_get?_ofList hw) h rfl))

end SortedMap

end LatticeSurgery
