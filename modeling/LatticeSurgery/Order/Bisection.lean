import LatticeSurgery.Order

/-!
# Bisection

The place for a value in a list is found by halving: of a stretch of the list, the half is kept in
which the place must lie if the list is in order. In a list that is in order this is the place in
front of the first value that is not smaller (`insertBisecting_eq_place`). In any other list it is
the place at which the halving ends.
-/

namespace LatticeSurgery

namespace Ordered

/-- The place at which the halving of a stretch ends. The stretch starts at `base` and has `size`
places, and `below` tells of a place whether its value is too small. -/
def narrow (below : Nat → Bool) (base size : Nat) : Nat :=
  if 1 < size then
    narrow below (if below (base + size / 2) then base + size / 2 else base) (size - size / 2)
  else base
termination_by size

variable {α : Type} [Ordered α]

/-- Whether there is a value at a place of a list and it comes before `a`. -/
def isBelow (a : α) (l : List α) (i : Nat) : Bool :=
  match l[i]? with
  | some x => before x a
  | none => false

/-- The place for `a` in a list, found by halving. -/
def bisect (a : α) (l : List α) : Nat :=
  let i := narrow (isBelow a l) 0 l.length
  if isBelow a l i then i + 1 else i

/-- The values of a list with `a` at the place found by halving. -/
def insertBisecting (a : α) (l : List α) : List α :=
  l.take (bisect a l) ++ a :: l.drop (bisect a l)

/-! ## Lists in order -/

theorem narrow_spec {below : Nat → Bool} {k : Nat} (h : ∀ i, below i = true ↔ i < k) :
    ∀ (size base : Nat), 0 < size → (base = 0 ∨ base < k) → k ≤ base + size →
      (narrow below base size = 0 ∨ narrow below base size < k) ∧
        k ≤ narrow below base size + 1 := by
  intro size
  induction size using Nat.strongRecOn with
  | _ size ih =>
    intro base hsize hbase hk
    unfold narrow
    split
    · refine ih (size - size / 2) (by omega) _ (by omega) ?_ ?_
      · split
        · next hb => exact Or.inr ((h _).1 hb)
        · exact hbase
      · split
        · omega
        · next hb =>
          have : ¬ base + size / 2 < k := fun hlt => hb ((h _).2 hlt)
          omega
    · exact ⟨hbase, by omega⟩

theorem isBelow_cons_zero (a x : α) (l : List α) : isBelow a (x :: l) 0 = before x a := rfl

theorem isBelow_cons_succ (a x : α) (l : List α) (i : Nat) :
    isBelow a (x :: l) (i + 1) = isBelow a l i := rfl

/-- In a list in order, the values before `a` come first; there are as many as `place` passes. -/
theorem exists_place_eq {a : α} {l : List α} (h : l.Pairwise fun x y => before y x = false) :
    ∃ k, (∀ i, isBelow a l i = true ↔ i < k) ∧ k ≤ l.length ∧
      place a l = l.take k ++ a :: l.drop k := by
  induction l with
  | nil => exact ⟨0, fun i => by simp [isBelow], Nat.le_refl _, rfl⟩
  | cons x xs ih =>
    obtain ⟨hx, hxs⟩ := List.pairwise_cons.1 h
    cases hb : before x a with
    | true =>
      obtain ⟨k, hk, hle, hp⟩ := ih hxs
      refine ⟨k + 1, fun i => ?_, Nat.succ_le_succ hle, ?_⟩
      · cases i with
        | zero => simp [isBelow_cons_zero, hb]
        | succ i => rw [isBelow_cons_succ, hk]; omega
      · simp only [place, placeOn, id_eq, hb, if_true, List.take_succ_cons, List.drop_succ_cons,
          List.cons_append]
        exact congrArg (x :: ·) hp
    | false =>
      refine ⟨0, fun i => ?_, Nat.zero_le _, by simp [place, placeOn, hb]⟩
      cases i with
      | zero => simp [isBelow_cons_zero, hb]
      | succ i =>
        rw [isBelow_cons_succ, isBelow]
        cases hi : xs[i]? with
        | none => simp
        | some y =>
          obtain ⟨hlt, rfl⟩ := List.getElem?_eq_some_iff.1 hi
          have hyx := hx _ (List.getElem_mem hlt)
          cases hya : before xs[i] a with
          | false => simp [hya]
          | true =>
            cases hxy : before x xs[i] with
            | true => simp [before_trans hxy hya] at hb
            | false => rw [before_total hxy hyx, hya] at hb; cases hb

theorem bisect_eq {a : α} {l : List α} {k : Nat} (h : ∀ i, isBelow a l i = true ↔ i < k)
    (hk : k ≤ l.length) : bisect a l = k := by
  unfold bisect
  cases l with
  | nil =>
    have h0 : k = 0 := Nat.le_zero.1 hk
    simp [narrow, isBelow, h0]
  | cons x xs =>
    obtain ⟨h₁, h₂⟩ := narrow_spec h (x :: xs).length 0 (Nat.succ_pos _) (Or.inl rfl) (by omega)
    dsimp only
    split
    · next hb => have := (h _).1 hb; omega
    · next hb =>
      have : ¬ narrow (isBelow a (x :: xs)) 0 (x :: xs).length < k := fun hlt => hb ((h _).2 hlt)
      omega

theorem insertBisecting_eq_place {a : α} {l : List α}
    (h : l.Pairwise fun x y => before y x = false) : insertBisecting a l = place a l := by
  obtain ⟨k, hk, hle, hp⟩ := exists_place_eq (a := a) h
  rw [insertBisecting, bisect_eq hk hle, hp]

theorem insertBisecting_perm (a : α) (l : List α) : (insertBisecting a l).Perm (a :: l) := by
  refine List.perm_middle.trans (List.Perm.cons a ?_)
  rw [List.take_append_drop]

end Ordered

end LatticeSurgery
