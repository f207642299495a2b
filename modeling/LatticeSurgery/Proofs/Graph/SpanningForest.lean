import LatticeSurgery.Graph.SpanningForest
import LatticeSurgery.Proofs.Collections
import Mathlib.Data.Finset.Card
import Mathlib.Data.List.Perm.Basic

/-!
# The entries of heaps, and spanning forests

Rising and sinking only exchange entries, so a heap always holds the entries that were pushed and
not yet taken, in some order. For the forest this means that every edge is looked at. An edge that
is not chosen has its ends in one component at that time, and a component only holds nodes that are
linked by chosen edges: the chosen edges link whatever the edges link (`ends_of_spanningForest`).
Each choice makes one component of two, so fewer edges are chosen than there are nodes
(`length_spanningForest_lt`).
-/

namespace LatticeSurgery

open Ordered

namespace ScoreHeap

variable {β : Type}

theorem swapIfInBounds_perm (entries : Array (Nat × β)) (i j : Nat) :
    (entries.swapIfInBounds i j).toList.Perm entries.toList := by
  rw [Array.swapIfInBounds_def]
  split
  · split
    · next hi hj => exact (Array.swap_perm hi hj).toList
    · exact List.Perm.refl _
  · exact List.Perm.refl _

theorem rise_perm (entries : Array (Nat × β)) (steps i : Nat) :
    (rise entries steps i).toList.Perm entries.toList := by
  induction steps generalizing entries i with
  | zero => exact List.Perm.refl _
  | succ steps ih =>
    unfold rise
    split
    · exact List.Perm.refl _
    · dsimp only
      split
      · exact List.Perm.refl _
      · exact (ih _ _).trans (swapIfInBounds_perm _ _ _)

theorem sink_perm (entries : Array (Nat × β)) (steps i : Nat) :
    (sink entries steps i).1.toList.Perm entries.toList := by
  induction steps generalizing entries i with
  | zero => exact List.Perm.refl _
  | succ steps ih =>
    unfold sink
    dsimp only
    split
    · exact (ih _ _).trans (swapIfInBounds_perm _ _ _)
    · split
      · exact swapIfInBounds_perm _ _ _
      · exact List.Perm.refl _

/-- Pushing adds one entry. -/
theorem push_perm (h : ScoreHeap β) (score : Nat) (b : β) :
    (h.push score b).entries.toList.Perm ((score, b) :: h.entries.toList) := by
  refine (rise_perm _ _ _).trans ?_
  rw [Array.toList_push]
  exact List.perm_append_singleton _ _

theorem pop?_eq_none {h : ScoreHeap β} (hpop : h.pop? = none) : h.entries.toList = [] := by
  unfold pop? at hpop
  split at hpop
  · next hnone =>
    rw [Array.getElem?_eq_none_iff] at hnone
    exact List.eq_nil_of_length_eq_zero (by simpa using hnone)
  · cases hpop

/-- Taking the best entry takes one entry. -/
theorem pop?_perm {h rest : ScoreHeap β} {top : Nat × β} (hpop : h.pop? = some (top, rest)) :
    h.entries.toList.Perm (top :: rest.entries.toList) := by
  unfold pop? at hpop
  split at hpop
  · cases hpop
  · next t ht =>
    obtain ⟨hpos, htop⟩ := Array.getElem?_eq_some_iff.1 ht
    simp only [Option.some.injEq, Prod.mk.injEq] at hpop
    obtain ⟨rfl, rfl⟩ := hpop
    have hlast : (h.entries.swapIfInBounds 0 (h.size - 1)).back? = some t := by
      have hbound : h.size - 1 < (h.entries.swapIfInBounds 0 (h.size - 1)).size := by
        rw [Array.size_swapIfInBounds]
        exact Nat.sub_lt hpos Nat.one_pos
      rw [Array.back?_eq_getElem?, Array.size_swapIfInBounds]
      exact (Array.getElem?_eq_getElem hbound).trans
        (congrArg some ((Array.getElem_swapIfInBounds_right hpos hbound).trans htop))
    have hsplit : (h.entries.swapIfInBounds 0 (h.size - 1)).toList.Perm
        (t :: (h.entries.swapIfInBounds 0 (h.size - 1)).pop.toList) := by
      rw [← Array.getLast?_toList] at hlast
      obtain ⟨l, hl⟩ := List.getLast?_eq_some_iff.1 hlast
      rw [Array.toList_pop, hl, List.dropLast_concat]
      exact List.perm_append_singleton _ _
    refine (swapIfInBounds_perm _ _ _).symm.trans (hsplit.trans (List.Perm.cons t ?_))
    exact (sink_perm _ _ _).symm.trans (rise_perm _ _ _).symm

theorem ofList_perm (l : List (Nat × β)) : (ofList l).entries.toList.Perm l := by
  have hfold : ∀ (l : List (Nat × β)) (h : ScoreHeap β),
      (l.foldl (fun h e => h.push e.1 e.2) h).entries.toList.Perm (h.entries.toList ++ l) := by
    intro l
    induction l with
    | nil => intro h; simp
    | cons e es ih =>
      intro h
      refine (ih _).trans ?_
      refine ((push_perm h e.1 e.2).append_right es).trans ?_
      exact List.perm_middle.symm
  exact hfold l ∅

end ScoreHeap

namespace Components

variable {α : Type} [Ordered α] {E : α → α → Prop} {c : Components α} {a b : α}

/-- Every node is linked to the name of its component. -/
def Sound (E : α → α → Prop) (c : Components α) : Prop := ∀ a, E a (c.labelOf a)

theorem sound_discrete (hE : Equivalence E) : (discrete : Components α).Sound E := fun a =>
  hE.refl a

/-- The nodes of one component are linked. -/
theorem Sound.of_joined (hE : Equivalence E) (hc : c.Sound E) (h : c.joined a b = true) :
    E a b := by
  have hlabel : c.labelOf a = c.labelOf b := same_iff.1 h
  exact hE.trans (hc a) (hlabel ▸ hE.symm (hc b))

/-- The new name of a component is the old one, unless that is the one given up. -/
theorem labelOf_join (c : Components α) (a b x : α) : (c.join a b).labelOf x =
    (((c.label.insert a (c.labelOf a)).insert b (c.labelOf b)).get? x).elim x fun l =>
      if same l (c.labelOf a) then c.labelOf b else l := by
  show (SortedMap.get? _ x).getD x = _
  rw [Components.join, SortedMap.get?_mapValues]
  cases ((c.label.insert a (c.labelOf a)).insert b (c.labelOf b)).get? x <;> rfl

theorem Sound.join (hE : Equivalence E) (hc : c.Sound E) (hab : E a b) :
    (c.join a b).Sound E := by
  have hnew : E (c.labelOf a) (c.labelOf b) :=
    hE.trans (hE.symm (hc a)) (hE.trans hab (hc b))
  intro x
  rw [labelOf_join]
  cases hl : ((c.label.insert a (c.labelOf a)).insert b (c.labelOf b)).get? x with
  | none => exact hE.refl x
  | some l =>
    have hx : E x l := by
      rw [SortedMap.get?_insert, SortedMap.get?_insert] at hl
      split at hl
      · next hxb =>
        cases hl
        rw [same_iff.1 hxb]
        exact hc b
      · split at hl
        · next hxa =>
          cases hl
          rw [same_iff.1 hxa]
          exact hc a
        · have hself := hc x
          rw [labelOf, SortedMap.getD, hl] at hself
          exact hself
    dsimp only [Option.elim]
    split
    · next hold =>
      rw [same_iff.1 hold] at hx
      exact hE.trans hx hnew
    · exact hx

/-- The names that are given are names of nodes that are mentioned. -/
def Named (c : Components α) : Prop :=
  ∀ a l, c.label.get? a = some l → (c.label.get? l).isSome = true

theorem named_discrete : (discrete : Components α).Named := fun a l h => by cases h

theorem labelOf_eq_of_get? {l : α} (h : c.label.get? a = some l) : c.labelOf a = l := by
  rw [labelOf, SortedMap.getD, h, Option.getD_some]

theorem labelOf_eq_self (h : c.label.get? a = none) : c.labelOf a = a := by
  rw [labelOf, SortedMap.getD, h, Option.getD_none]

/-- A name is that of a mentioned node, or the node is alone. -/
theorem Named.isSome_labelOf (hc : c.Named) (a : α) :
    (c.label.get? (c.labelOf a)).isSome = true ∨ c.labelOf a = a := by
  cases h : c.label.get? a with
  | none => exact Or.inr (labelOf_eq_self h)
  | some l =>
    rw [labelOf_eq_of_get? h]
    exact Or.inl (hc a l h)

/-- Joining gives up the name of the first component for that of the second one. -/
theorem Named.labelOf_join (hc : c.Named) (a b x : α) : (c.join a b).labelOf x =
    if same (c.labelOf x) (c.labelOf a) then c.labelOf b else c.labelOf x := by
  rw [Components.labelOf_join, SortedMap.get?_insert, SortedMap.get?_insert]
  split
  · next hxb =>
    rw [same_iff.1 hxb, Option.elim]
  · next hxb =>
    split
    · next hxa =>
      rw [same_iff.1 hxa, Option.elim]
    · next hxa =>
      cases hx : c.label.get? x with
      | some l =>
        rw [labelOf_eq_of_get? hx]
        rfl
      | none =>
        rw [labelOf_eq_self hx, Option.elim, if_neg]
        intro hsame
        -- a node that is not mentioned is not the name of another one
        rcases hc.isSome_labelOf a with hsome | hself
        · rw [← same_iff.1 hsame, hx] at hsome
          cases hsome
        · exact hxa (same_iff.2 ((same_iff.1 hsame).trans hself))

theorem Named.join (hc : c.Named) (a b : α) : (c.join a b).Named := by
  have hmentioned : ∀ x, ((c.join a b).label.get? x).isSome = true ↔
      x = b ∨ x = a ∨ (c.label.get? x).isSome = true := by
    intro x
    rw [Components.join, SortedMap.get?_mapValues, Option.isSome_map, SortedMap.get?_insert,
      SortedMap.get?_insert]
    split
    · next hxb => simp [same_iff.1 hxb]
    · next hxb =>
      split
      · next hxa => simp [same_iff.1 hxa]
      · next hxa =>
        rw [same_iff] at hxa hxb
        simp [hxa, hxb]
  intro x l hl
  have hlabel := (labelOf_eq_of_get? hl).symm
  rw [hc.labelOf_join] at hlabel
  rw [hmentioned]
  have hx := (hmentioned x).1 (by rw [hl]; rfl)
  split at hlabel
  · rcases hc.isSome_labelOf b with hsome | hself
    · exact Or.inr (Or.inr (hlabel ▸ hsome))
    · exact Or.inl (hlabel.trans hself)
  · rcases hc.isSome_labelOf x with hsome | hself
    · exact Or.inr (Or.inr (hlabel ▸ hsome))
    · rw [hlabel, hself]
      exact hx

open Classical in
/-- The names of the components of some nodes. -/
noncomputable def names (c : Components α) (nodes : Finset α) : Finset α := nodes.image c.labelOf

/-- Joining two components leaves one name less. -/
theorem Named.card_names_join (hc : c.Named) {nodes : Finset α} (ha : a ∈ nodes) (hb : b ∈ nodes)
    (hab : c.joined a b = false) : ((c.join a b).names nodes).card + 1 ≤ (c.names nodes).card := by
  classical
  have hmem : ∀ {x}, x ∈ nodes → c.labelOf x ∈ c.names nodes := fun hx =>
    Finset.mem_image.2 ⟨_, hx, rfl⟩
  have hsub : (c.join a b).names nodes ⊆ (c.names nodes).erase (c.labelOf a) := by
    intro l hl
    obtain ⟨x, hx, rfl⟩ := Finset.mem_image.1 hl
    rw [hc.labelOf_join, Finset.mem_erase]
    split
    · exact ⟨fun h => same_eq_false_iff.1 hab h.symm, hmem hb⟩
    · next hne => exact ⟨fun h => hne (same_iff.2 h), hmem hx⟩
  have hcard := Finset.card_le_card hsub
  rw [Finset.card_erase_of_mem (hmem ha)] at hcard
  have hpos := Finset.card_pos.2 ⟨_, hmem ha⟩
  omega

end Components

variable {α β : Type} [Ordered α] {ends : β → α × α}

theorem mem_of_mem_keepJoining {steps : Nat} {heap : ScoreHeap β} {c : Components α}
    {e : Nat × β} (he : e ∈ keepJoining ends steps heap c) : e ∈ heap.entries.toList := by
  induction steps generalizing heap c with
  | zero => cases he
  | succ steps ih =>
    unfold keepJoining at he
    split at he
    · cases he
    · next top rest hpop =>
      have hmem := (ScoreHeap.pop?_perm hpop).mem_iff (a := e)
      rw [hmem, List.mem_cons]
      dsimp only at he
      split at he
      · exact Or.inr (ih he)
      · rcases List.mem_cons.1 he with rfl | he
        · exact Or.inl rfl
        · exact Or.inr (ih he)

/-- An equivalence that holds of the ends of the edges that are kept holds of the ends of all edges
on the heap. -/
theorem ends_of_keepJoining {E : α → α → Prop} (hE : Equivalence E) {steps : Nat}
    {heap : ScoreHeap β} {c : Components α} (hc : c.Sound E)
    (hsteps : heap.entries.toList.length ≤ steps)
    (hkept : ∀ e ∈ keepJoining ends steps heap c, E (ends e.2).1 (ends e.2).2) :
    ∀ e ∈ heap.entries.toList, E (ends e.2).1 (ends e.2).2 := by
  induction steps generalizing heap c with
  | zero =>
    intro e he
    rw [List.eq_nil_of_length_eq_zero (Nat.le_zero.1 hsteps)] at he
    cases he
  | succ steps ih =>
    unfold keepJoining at hkept
    split at hkept
    · next hpop =>
      rw [ScoreHeap.pop?_eq_none hpop]
      simp
    · next top rest hpop =>
      have hperm := ScoreHeap.pop?_perm hpop
      have hlength : rest.entries.toList.length ≤ steps := by
        have := hperm.length_eq
        rw [List.length_cons] at this
        omega
      intro e he
      dsimp only at hkept
      split at hkept
      · next hjoined =>
        rcases List.mem_cons.1 (hperm.mem_iff.1 he) with rfl | he
        · exact hc.of_joined hE hjoined
        · exact ih hc hlength hkept e he
      · have htop : E (ends top.2).1 (ends top.2).2 := hkept top List.mem_cons_self
        rcases List.mem_cons.1 (hperm.mem_iff.1 he) with rfl | he
        · exact htop
        · exact ih (hc.join hE htop) hlength
            (fun e he => hkept e (List.mem_cons_of_mem _ he)) e he

/-- There are fewer edges that are kept than components at the start. -/
theorem length_keepJoining_lt {steps : Nat} {heap : ScoreHeap β} {c : Components α} (hc : c.Named)
    {nodes : Finset α} (hnodes : nodes.Nonempty)
    (hends : ∀ e ∈ heap.entries.toList, (ends e.2).1 ∈ nodes ∧ (ends e.2).2 ∈ nodes) :
    (keepJoining ends steps heap c).length < (c.names nodes).card := by
  classical
  induction steps generalizing heap c with
  | zero => exact Finset.card_pos.2 (hnodes.image _)
  | succ steps ih =>
    unfold keepJoining
    split
    · exact Finset.card_pos.2 (hnodes.image _)
    · next top rest hpop =>
      have hperm := ScoreHeap.pop?_perm hpop
      have hrest : ∀ e ∈ rest.entries.toList, (ends e.2).1 ∈ nodes ∧ (ends e.2).2 ∈ nodes :=
        fun e he => hends e (hperm.mem_iff.2 (List.mem_cons_of_mem _ he))
      obtain ⟨hfirst, hsecond⟩ := hends top (hperm.mem_iff.2 List.mem_cons_self)
      dsimp only
      split
      · exact ih hc hrest
      · next hjoined =>
        have hless := hc.card_names_join hfirst hsecond (by simpa using hjoined)
        have hkept := ih (hc.join (ends top.2).1 (ends top.2).2) hrest
        rw [List.length_cons]
        omega

/-- There are fewer edges in a forest than nodes. -/
theorem length_spanningForest_lt {edges : List (Nat × β)} {nodes : Finset α}
    (hnodes : nodes.Nonempty) (hends : ∀ e ∈ edges, (ends e.2).1 ∈ nodes ∧ (ends e.2).2 ∈ nodes) :
    (spanningForest ends edges).length < nodes.card := by
  classical
  refine Nat.lt_of_lt_of_le (length_keepJoining_lt Components.named_discrete hnodes fun e he => ?_)
    Finset.card_image_le
  exact hends e ((ScoreHeap.ofList_perm edges).mem_iff.1 he)

theorem mem_of_mem_spanningForest {edges : List (Nat × β)} {e : Nat × β}
    (he : e ∈ spanningForest ends edges) : e ∈ edges :=
  (ScoreHeap.ofList_perm edges).mem_iff.1 (mem_of_mem_keepJoining he)

/-- The chosen edges link the ends of every edge. -/
theorem ends_of_spanningForest (ends : β → α × α) {E : α → α → Prop} (hE : Equivalence E)
    {edges : List (Nat × β)}
    (hchosen : ∀ e ∈ spanningForest ends edges, E (ends e.2).1 (ends e.2).2) :
    ∀ e ∈ edges, E (ends e.2).1 (ends e.2).2 := by
  have hperm := ScoreHeap.ofList_perm edges
  intro e he
  exact ends_of_keepJoining hE (Components.sound_discrete hE) (Nat.le_of_eq hperm.length_eq) hchosen e
    (hperm.mem_iff.2 he)

/-- An edge between different nodes is a forest by itself. -/
theorem spanningForest_singleton (ends : β → α × α) {e : Nat × β} (he : (ends e.2).1 ≠ (ends e.2).2) :
    spanningForest ends [e] = [e] := by
  classical
  have hlength : (spanningForest ends [e]).length < 2 := by
    rw [← Finset.card_pair he]
    refine length_spanningForest_lt (Finset.insert_nonempty _ _) fun e' he' => ?_
    rw [List.mem_singleton.1 he']
    simp
  have hmem : ∀ e' ∈ spanningForest ends [e], e' = e := fun e' he' =>
    List.mem_singleton.1 (mem_of_mem_spanningForest he')
  cases hforest : spanningForest ends [e] with
  | nil =>
    -- no chosen edge, so equality would be a division that the edge respects
    have hnone : ∀ e' ∈ spanningForest ends [e], (ends e'.2).1 = (ends e'.2).2 := by simp [hforest]
    exact absurd (ends_of_spanningForest ends eq_equivalence hnone e (List.mem_singleton_self e)) he
  | cons e' es =>
    rw [hforest] at hlength hmem
    obtain rfl : es = [] := List.length_eq_zero_iff.1 (by rw [List.length_cons] at hlength; omega)
    rw [hmem e' List.mem_cons_self]

end LatticeSurgery
