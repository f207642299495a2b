import LatticeSurgery.Proofs.Graph.SpanningForest

/-!
# The order of a heap

In a heap, no entry is better than the one above it (`ScoreHeap.Ascends`), so the best entry is on
top. While an entry rises, the order is broken at that entry only, and only upwards (`RisingAt`);
while one sinks, the entries above and below it are in order with each other (`HoleAt`). Pushing and
popping restore the order, and what is popped is the best entry (`le_of_pop?`).
-/

namespace LatticeSurgery

namespace ScoreHeap

variable {β : Type} {entries : Array (Nat × β)} {i j k : Nat}

/-! ## Scores -/

theorem scoreAt_of_lt (h : i < entries.size) : scoreAt entries i = entries[i].1 := by
  rw [scoreAt, Array.getElem?_eq_getElem h]

theorem scoreAt_congr {entries' : Array (Nat × β)} (h : entries[i]? = entries'[i]?) :
    scoreAt entries i = scoreAt entries' i := by
  rw [scoreAt, scoreAt, h]

theorem scoreAt_swapIfInBounds (hi : i < entries.size) (hj : j < entries.size) (k : Nat) :
    scoreAt (entries.swapIfInBounds i j) k =
      if k = i then scoreAt entries j else if k = j then scoreAt entries i else scoreAt entries k := by
  rw [Array.swapIfInBounds_def, dif_pos hi, dif_pos hj]
  unfold scoreAt
  rw [Array.getElem?_swap]
  grind

/-! ## What is out of order -/

/-- No entry is better than the one above it. -/
def Ascends (entries : Array (Nat × β)) : Prop :=
  ∀ j, 0 < j → j < entries.size → scoreAt entries ((j - 1) / 2) ≤ scoreAt entries j

/-- The order holds but for the entry at a place, which may be better than the one above it; what is
below it is no better than that one. -/
structure RisingAt (entries : Array (Nat × β)) (i : Nat) : Prop where
  order : ∀ j, 0 < j → j < entries.size → j ≠ i →
    scoreAt entries ((j - 1) / 2) ≤ scoreAt entries j
  below : ∀ j, 0 < j → j < entries.size → (j - 1) / 2 = i → 0 < i →
    scoreAt entries ((i - 1) / 2) ≤ scoreAt entries j

/-- The order holds but for the entry at a place: what is below it is no better than the one above
it. -/
structure HoleAt (entries : Array (Nat × β)) (i : Nat) : Prop where
  order : ∀ j, 0 < j → j < entries.size → j ≠ i → (j - 1) / 2 ≠ i →
    scoreAt entries ((j - 1) / 2) ≤ scoreAt entries j
  below : ∀ j, 0 < j → j < entries.size → (j - 1) / 2 = i → 0 < i →
    scoreAt entries ((i - 1) / 2) ≤ scoreAt entries j

/-- The top is the best entry. -/
theorem Ascends.top_le (h : Ascends entries) (hj : j < entries.size) :
    scoreAt entries 0 ≤ scoreAt entries j := by
  induction j using Nat.strong_induction_on with
  | _ j ih =>
    rcases Nat.eq_zero_or_pos j with rfl | hpos
    · exact Nat.le_refl _
    · exact (ih ((j - 1) / 2) (by omega) (by omega)).trans (h j hpos hj)

/-! ## Rising -/

/-- An entry that is not better than the one above it is in its place. -/
theorem RisingAt.ascends (h : RisingAt entries i)
    (hi : 0 < i → scoreAt entries ((i - 1) / 2) ≤ scoreAt entries i) : Ascends entries := by
  intro j hpos hj
  by_cases hji : j = i
  · subst hji
    exact hi hpos
  · exact h.order j hpos hj hji

/-- One step up. -/
theorem RisingAt.move (h : RisingAt entries i) (hi : i < entries.size) (hpos : 0 < i)
    (hbetter : scoreAt entries i ≤ scoreAt entries ((i - 1) / 2)) :
    RisingAt (entries.swapIfInBounds i ((i - 1) / 2)) ((i - 1) / 2) := by
  have habove : (i - 1) / 2 < entries.size := by omega
  have hscore := scoreAt_swapIfInBounds hi habove
  refine ⟨fun j hj hsize hne => ?_, fun j hj hsize hparent hgrand => ?_⟩ <;>
    rw [Array.size_swapIfInBounds] at hsize <;> rw [hscore, hscore]
  · by_cases hji : j = i
    · rw [if_pos hji, if_neg (by omega), if_pos (by rw [hji])]
      exact hbetter
    · rw [if_neg hji, if_neg hne]
      have horder := h.order j hj hsize hji
      split
      · next hbelow => exact h.below j hj hsize hbelow hpos
      · split
        · next hsibling => exact hbetter.trans (hsibling ▸ horder)
        · exact horder
  · have hkept := h.order ((i - 1) / 2) hgrand habove (by omega)
    rw [if_neg (show ((i - 1) / 2 - 1) / 2 ≠ i by omega),
      if_neg (show ((i - 1) / 2 - 1) / 2 ≠ (i - 1) / 2 by omega)]
    by_cases hji : j = i
    · rw [if_pos hji]
      exact hkept
    · rw [if_neg hji, if_neg (by omega)]
      have horder := h.order j hj hsize hji
      rw [hparent] at horder
      exact hkept.trans horder

/-- An entry that has risen is in its place. -/
theorem RisingAt.rise {steps : Nat} (h : RisingAt entries i) (hi : i < entries.size)
    (hsteps : i ≤ steps) : Ascends (rise entries steps i) := by
  induction steps generalizing entries i with
  | zero => exact h.ascends fun hpos => by omega
  | succ steps ih =>
    unfold ScoreHeap.rise
    split
    · next hzero => exact h.ascends fun hpos => by omega
    · next hpos =>
      dsimp only
      split
      · next hle => exact h.ascends fun _ => hle
      · next hnot =>
        refine ih (h.move hi (Nat.pos_of_ne_zero hpos) (Nat.le_of_not_le hnot)) ?_ (by omega)
        rw [Array.size_swapIfInBounds]
        omega

/-! ## Sinking -/

/-- One step down, to the better one of the entries below. -/
theorem HoleAt.move (h : HoleAt entries i) (hi : i < entries.size) (hk : k < entries.size)
    (hpos : 0 < k) (hparent : (k - 1) / 2 = i)
    (hbetter : ∀ j, 0 < j → j < entries.size → (j - 1) / 2 = i → scoreAt entries k ≤ scoreAt entries j) :
    HoleAt (entries.swapIfInBounds i k) k := by
  have hscore := scoreAt_swapIfInBounds hi hk
  refine ⟨fun j hj hsize hne hnot => ?_, fun j hj hsize hbelow _ => ?_⟩ <;>
    rw [Array.size_swapIfInBounds] at hsize <;> rw [hscore, hscore]
  · rw [if_neg hne, if_neg hnot]
    by_cases hji : j = i
    · rw [if_pos hji, if_neg (by omega), hji]
      exact h.below k hpos hk hparent (by omega)
    · rw [if_neg hji]
      split
      · next hsibling => exact hbetter j hj hsize hsibling
      · next hother => exact h.order j hj hsize hji hother
  · rw [if_pos hparent, if_neg (by omega), if_neg (by omega)]
    have horder := h.order j hj hsize (by omega) (by omega)
    rwa [hbelow] at horder

/-- With nothing below it, the entry has arrived. -/
theorem HoleAt.risingAt (h : HoleAt entries i) (hleaf : entries.size ≤ 2 * i + 1) :
    RisingAt entries i :=
  ⟨fun j hpos hj hne => h.order j hpos hj hne (by omega), h.below⟩

/-- An entry that sinks arrives at the bottom. -/
theorem HoleAt.sink {steps : Nat} (h : HoleAt entries i) (hi : i < entries.size)
    (hsteps : entries.size ≤ i + steps) :
    RisingAt (sink entries steps i).1 (sink entries steps i).2 ∧
      (sink entries steps i).2 < (sink entries steps i).1.size := by
  induction steps generalizing entries i with
  | zero => omega
  | succ steps ih =>
    unfold ScoreHeap.sink
    dsimp only
    split
    · next htwo =>
      -- both places below are taken
      set child := if scoreAt entries (2 * i + 1 + 1) ≤ scoreAt entries (2 * i + 1)
        then 2 * i + 1 + 1 else 2 * i + 1 with hchild
      have hplace : child = 2 * i + 1 ∨ child = 2 * i + 2 := by
        rw [hchild]
        split <;> omega
      have hmoved : HoleAt (entries.swapIfInBounds i child) child := by
        refine h.move hi (by omega) (by omega) (by omega) fun j hpos hj hparent => ?_
        have hj : j = 2 * i + 1 ∨ j = 2 * i + 1 + 1 := by omega
        rw [hchild]
        rcases hj with rfl | rfl <;> split <;> omega
      refine ih hmoved ?_ ?_ <;> rw [Array.size_swapIfInBounds] <;> omega
    · next hone =>
      split
      · next hlast =>
        have hmoved : HoleAt (entries.swapIfInBounds i (2 * i + 1)) (2 * i + 1) := by
          refine h.move hi (by omega) (by omega) (by omega) fun j hpos hj hparent => ?_
          obtain rfl : j = 2 * i + 1 := by omega
          exact Nat.le_refl _
        refine ⟨hmoved.risingAt ?_, ?_⟩ <;> rw [Array.size_swapIfInBounds] <;> omega
      · exact ⟨h.risingAt (by omega), hi⟩

/-! ## Pushing and popping -/

/-- A heap in order. -/
def InOrder (h : ScoreHeap β) : Prop := Ascends h.entries

theorem inOrder_empty : (∅ : ScoreHeap β).InOrder := fun _ _ h => absurd h (Nat.not_lt_zero _)

theorem InOrder.push {h : ScoreHeap β} (hh : h.InOrder) (score : Nat) (b : β) :
    (h.push score b).InOrder := by
  have hold : ∀ j, j < h.entries.size →
      scoreAt (h.entries.push (score, b)) j = scoreAt h.entries j := fun j hj =>
    scoreAt_congr ((Array.getElem?_push_lt hj).trans (Array.getElem?_eq_getElem hj).symm)
  refine RisingAt.rise ⟨fun j hpos hj hne => ?_, fun j hpos hj hparent => ?_⟩ ?_ (Nat.le_refl _)
  · rw [Array.size_push] at hj
    unfold size at hne
    rw [hold j (by omega), hold _ (by omega)]
    exact hh j hpos (by omega)
  · rw [Array.size_push] at hj
    unfold size at hparent
    omega
  · rw [Array.size_push]
    exact Nat.lt_succ_self _

/-- Taking the best entry leaves a heap in order. -/
theorem InOrder.pop? {h rest : ScoreHeap β} {top : Nat × β} (hh : h.InOrder)
    (hpop : h.pop? = some (top, rest)) : rest.InOrder := by
  unfold ScoreHeap.pop? at hpop
  split at hpop
  · cases hpop
  · next t ht =>
    simp only [Option.some.injEq, Prod.mk.injEq] at hpop
    obtain ⟨-, rfl⟩ := hpop
    obtain ⟨hpos, -⟩ := Array.getElem?_eq_some_iff.1 ht
    set others := (h.entries.swapIfInBounds 0 (h.size - 1)).pop with hothers
    have hsize : others.size = h.entries.size - 1 := by
      rw [hothers, Array.size_pop, Array.size_swapIfInBounds]
    have hold : ∀ j, 0 < j → j < others.size → scoreAt others j = scoreAt h.entries j := by
      intro j hj hlt
      have hlast : h.size - 1 < h.entries.size := Nat.sub_lt hpos Nat.one_pos
      have hkept : others[j]? = (h.entries.swapIfInBounds 0 (h.size - 1))[j]? := by
        rw [hothers, Array.getElem?_pop, Array.size_swapIfInBounds, if_pos (by omega)]
      rw [scoreAt_congr hkept, scoreAt_swapIfInBounds hpos hlast, if_neg (by omega), if_neg]
      unfold size
      omega
    rcases Nat.eq_zero_or_pos others.size with hzero | hsome
    · rw [hzero]
      exact fun j _ hj => absurd hj (by rw [ScoreHeap.sink, ScoreHeap.rise, hzero]; omega)
    · have hhole : HoleAt others 0 := by
        refine ⟨fun j hj hlt hne hparent => ?_, fun _ _ _ _ hzero => absurd hzero (Nat.lt_irrefl 0)⟩
        rw [hold j hj hlt, hold _ (by omega) (by omega)]
        exact hh j hj (by omega)
      obtain ⟨hrising, hlt⟩ := hhole.sink hsome (Nat.le_of_eq (Nat.zero_add others.size).symm)
      exact hrising.rise hlt (Nat.le_refl _)

/-- What is taken is the best entry. -/
theorem InOrder.le_of_pop? {h rest : ScoreHeap β} {top : Nat × β} (hh : h.InOrder)
    (hpop : h.pop? = some (top, rest)) : ∀ e ∈ h.entries.toList, top.1 ≤ e.1 := by
  unfold ScoreHeap.pop? at hpop
  split at hpop
  · cases hpop
  · next t ht =>
    simp only [Option.some.injEq, Prod.mk.injEq] at hpop
    obtain ⟨rfl, -⟩ := hpop
    intro e he
    obtain ⟨j, hj, rfl⟩ := List.getElem_of_mem he
    have hle := Ascends.top_le hh (by simpa using hj)
    obtain ⟨hpos, htop⟩ := Array.getElem?_eq_some_iff.1 ht
    rwa [scoreAt_of_lt hpos, scoreAt_of_lt (by simpa using hj), htop] at hle

end ScoreHeap

end LatticeSurgery
