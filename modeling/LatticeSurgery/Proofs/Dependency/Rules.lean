import LatticeSurgery.Proofs.Dependency.Commutation
import Mathlib.Data.Finset.Card
import Mathlib.Logic.Relation

/-!
# What the dependency rules order

Each rule lets a rotation wait for earlier rotations only, and two rotations that do not commute are
ordered by a chain of blockers: by a direct one under `full`, through the identical rotations in
between under `fullTrimmed`, and along the rotations on a common qubit under `trivialCommute`.

`Orders` says both of a list of blockers; `DependencyRule.orders` proves it of every rule.
-/

namespace LatticeSurgery

open Relation

namespace Blockers

/-- The rotation `i` is a blocker of the rotation `j`. -/
def Blocks (b : Blockers) (i j : Nat) : Prop := i ∈ b.of j

theorem of_insert (b : Blockers) (j k : Nat) (s : SortedSet Nat) :
    Blockers.of (SortedMap.insert b k s) j = if j = k then s else b.of j := by
  rw [of, SortedMap.getD_insert]
  simp only [Ordered.same_iff]
  rfl

theorem blocks_add {b : Blockers} {e l i j : Nat} :
    (b.add e l).Blocks i j ↔ (i = e ∧ j = l) ∨ b.Blocks i j := by
  rw [Blocks, add, of_insert]
  split
  · next h =>
    subst h
    rw [SortedSet.mem_insert]
    simp [Blocks]
  · next h => simp [Blocks, h]

@[simp] theorem not_blocks_empty (i j : Nat) : ¬ Blocks (∅ : Blockers) i j :=
  SortedSet.not_mem_empty i

end Blockers

open Blockers

/-- The rotations of a list are numbered in increasing order. -/
def Increasing (rs : List Rotation) : Prop := rs.Pairwise fun a b => a.index < b.index

/-- The numbers of two rotations of a list that stand in a relation, the earlier one first. -/
def Pairs (rel : Rotation → Rotation → Prop) (rs : List Rotation) (i j : Nat) : Prop :=
  ∃ r s, [r, s].Sublist rs ∧ rel r s ∧ i = r.index ∧ j = s.index

section Pairs

variable {rel rel' : Rotation → Rotation → Prop} {rs : List Rotation} {i j : Nat}

@[simp] theorem not_pairs_nil : ¬ Pairs rel [] i j := by
  rintro ⟨r, s, hsub, -⟩
  cases hsub

theorem pairs_cons {a : Rotation} : Pairs rel (a :: rs) i j ↔
    (∃ r ∈ rs, rel a r ∧ i = a.index ∧ j = r.index) ∨ Pairs rel rs i j := by
  constructor
  · rintro ⟨r, s, hsub, h⟩
    cases hsub with
    | cons _ hsub => exact Or.inr ⟨r, s, hsub, h⟩
    | cons_cons _ hsub => exact Or.inl ⟨s, List.singleton_sublist.1 hsub, h⟩
  · rintro (⟨r, hr, h⟩ | ⟨r, s, hsub, h⟩)
    · exact ⟨a, r, (List.singleton_sublist.2 hr).cons_cons a, h⟩
    · exact ⟨r, s, hsub.cons a, h⟩

theorem Pairs.mono (h : Pairs rel rs i j) (hrel : ∀ r s, rel r s → rel' r s) :
    Pairs rel' rs i j := by
  obtain ⟨r, s, hsub, hrs, hi, hj⟩ := h
  exact ⟨r, s, hsub, hrel r s hrs, hi, hj⟩

/-- The pairs of a part of the list are those of which both rotations belong to the part. -/
theorem pairs_filter {p : Rotation → Bool} : Pairs rel (rs.filter p) i j ↔
    Pairs (fun r s => rel r s ∧ p r = true ∧ p s = true) rs i j := by
  constructor
  · rintro ⟨r, s, hsub, hrs, hij⟩
    have hp : ∀ t ∈ [r, s], p t = true := fun t ht => (List.mem_filter.1 (hsub.subset ht)).2
    exact ⟨r, s, hsub.trans List.filter_sublist, ⟨hrs, hp r (by simp), hp s (by simp)⟩, hij⟩
  · rintro ⟨r, s, hsub, ⟨hrs, hr, hs⟩, hij⟩
    refine ⟨r, s, ?_, hrs, hij⟩
    have hfiltered := hsub.filter p
    rwa [List.filter_eq_self.2 (by simp [hr, hs])] at hfiltered

theorem Pairs.lt (h : Pairs rel rs i j) (hrs : Increasing rs) : i < j := by
  obtain ⟨r, s, hsub, -, rfl, rfl⟩ := h
  exact List.pairwise_iff_forall_sublist.1 hrs hsub

end Pairs

/-- The order of two rotations is kept by the trimmed rule: they do not commute, or they are the same
operation on the same qubits. -/
def Rotation.HoldsBack (a b : Rotation) : Prop :=
  a.commutes b = false ∨ (a.kind = b.kind ∧ a.x = b.x ∧ a.y = b.y ∧ a.z = b.z)

theorem Rotation.holdsBack_iff {a b : Rotation} :
    a.HoldsBack b ↔ Dependency.shapeOf a = Dependency.shapeOf b ∨ a.commutes b = false := by
  rw [shapeOf_eq_iff, HoldsBack, or_comm]

namespace Dependency

/-! ## Rotations that do not commute -/

/-- Making a list of rotations wait for one where they do not commute. -/
theorem blocks_foldl_add {a : Rotation} {rest : List Rotation} {b : Blockers} {i j : Nat} :
    (rest.foldl (fun bs r => if a.commutes r then bs else bs.add a.index r.index) b).Blocks i j ↔
      (∃ r ∈ rest, a.commutes r = false ∧ i = a.index ∧ j = r.index) ∨ b.Blocks i j := by
  induction rest generalizing b with
  | nil => simp
  | cons r rs ih =>
    rw [List.foldl_cons, ih]
    by_cases hc : a.commutes r = true
    · simp [hc]
    · rw [if_neg hc, blocks_add]
      simp only [List.mem_cons]
      constructor
      · rintro (⟨s, hs, h⟩ | ⟨rfl, rfl⟩ | h)
        · exact Or.inl ⟨s, Or.inr hs, h⟩
        · exact Or.inl ⟨r, Or.inl rfl, by simpa using hc, rfl, rfl⟩
        · exact Or.inr h
      · rintro (⟨s, rfl | hs, h⟩ | h)
        · exact Or.inr (Or.inl h.2)
        · exact Or.inl ⟨s, hs, h⟩
        · exact Or.inr (Or.inr h)

/-- A rotation waits for the earlier rotations with which it does not commute, and for no others. -/
theorem blocks_noncommutingFrom {rs : List Rotation} {b : Blockers} {i j : Nat} :
    (noncommutingFrom rs b).Blocks i j ↔
      Pairs (fun r s => r.commutes s = false) rs i j ∨ b.Blocks i j := by
  induction rs generalizing b with
  | nil => simp [noncommutingFrom]
  | cons a rest ih =>
    rw [noncommutingFrom, ih, blocks_foldl_add, pairs_cons, or_assoc]
    exact or_left_comm

/-! ## The trimmed rule -/

/-- Every remembered answer is right. -/
def CommutationMemo.Right (memo : CommutationMemo) : Prop :=
  ∀ (a b : Rotation) (answer : Bool), memo[memoKey a b]? = some answer → answer = a.commutes b

/-- Rotations that share a key of the memo commute alike. -/
theorem commutes_of_memoKey_eq {a b c d : Rotation} (h : memoKey a b = memoKey c d) :
    a.commutes b = c.commutes d := by
  simp only [memoKey, Prod.mk.injEq, Ordered.least, Ordered.greatest] at h
  obtain ⟨hl, hg⟩ := h
  split at hl <;> split at hl
  · rw [if_pos (by assumption), if_pos (by assumption)] at hg
    exact Rotation.commutes_congr hg hl
  · rw [if_pos (by assumption), if_neg (by assumption)] at hg
    rw [Rotation.commutes_comm]
    exact Rotation.commutes_congr hl hg
  · rw [if_neg (by assumption), if_pos (by assumption)] at hg
    rw [Rotation.commutes_comm]
    exact Rotation.commutes_congr hg hl
  · rw [if_neg (by assumption), if_neg (by assumption)] at hg
    exact Rotation.commutes_congr hl hg

theorem right_empty : CommutationMemo.Right ∅ := by
  intro a b answer h
  simp at h

theorem commutesMemo_spec {memo : CommutationMemo} (hm : memo.Right) (a b : Rotation) :
    (commutesMemo memo a b).1 = a.commutes b ∧ (commutesMemo memo a b).2.Right := by
  unfold commutesMemo
  split
  · next answer h => exact ⟨hm a b answer h, hm⟩
  · refine ⟨rfl, fun c d answer h => ?_⟩
    rw [Std.HashMap.getElem?_insert] at h
    split at h
    · next hk =>
      rw [← Option.some.inj h]
      exact commutes_of_memoKey_eq (eq_of_beq hk)
    · exact hm c d answer h

/-- What one rotation of the trimmed rule adds: nothing but pairs of that rotation with a later one,
and among them every pair that does not commute up to the first rotation of the same shape, that
one included. -/
theorem blockUntilSame_spec (a : Rotation) (rest : List Rotation) {memo : CommutationMemo}
    (hm : memo.Right) (b : Blockers) :
    (blockUntilSame a rest memo b).1.Right ∧
    (∀ i j, b.Blocks i j → (blockUntilSame a rest memo b).2.Blocks i j) ∧
    (∀ i j, (blockUntilSame a rest memo b).2.Blocks i j →
      b.Blocks i j ∨ ∃ r ∈ rest, a.HoldsBack r ∧ i = a.index ∧ j = r.index) ∧
    ∀ front r back, rest = front ++ r :: back → (∀ s ∈ front, shapeOf a ≠ shapeOf s) →
      a.HoldsBack r → (blockUntilSame a rest memo b).2.Blocks a.index r.index := by
  simp only [Rotation.holdsBack_iff]
  induction rest generalizing memo b with
  | nil => exact ⟨hm, fun i j h => h, fun i j h => Or.inl h, by simp⟩
  | cons r rs ih =>
    unfold blockUntilSame
    by_cases hsame : Ordered.same (shapeOf a) (shapeOf r) = true
    · rw [if_pos hsame]
      refine ⟨hm, fun i j h => blocks_add.2 (Or.inr h), fun i j h => ?_, ?_⟩
      · rcases blocks_add.1 h with ⟨rfl, rfl⟩ | h
        · exact Or.inr ⟨r, List.mem_cons_self, Or.inl (Ordered.same_iff.1 hsame), rfl, rfl⟩
        · exact Or.inl h
      · intro front s back heq hfront _
        cases front with
        | nil =>
          obtain ⟨rfl, -⟩ := List.cons.inj heq
          exact blocks_add.2 (Or.inl ⟨rfl, rfl⟩)
        | cons t front =>
          obtain ⟨rfl, -⟩ := List.cons.inj heq
          exact absurd (Ordered.same_iff.1 hsame) (hfront r List.mem_cons_self)
    · rw [if_neg hsame]
      obtain ⟨hanswer, hright⟩ := commutesMemo_spec hm a r
      generalize hc : commutesMemo memo a r = answered at hanswer hright
      obtain ⟨answer, memo'⟩ := answered
      dsimp only at hanswer hright ⊢
      subst hanswer
      obtain ⟨h₁, h₂, h₃, h₄⟩ :=
        ih hright (if a.commutes r = true then b else b.add a.index r.index)
      refine ⟨h₁, fun i j h => h₂ i j ?_, fun i j h => ?_, ?_⟩
      · split
        · exact h
        · exact blocks_add.2 (Or.inr h)
      · rcases h₃ i j h with h | ⟨s, hs, h⟩
        · split at h
          · exact Or.inl h
          · next hc =>
            rcases blocks_add.1 h with ⟨rfl, rfl⟩ | h
            · exact Or.inr ⟨r, List.mem_cons_self, Or.inr (by simpa using hc), rfl, rfl⟩
            · exact Or.inl h
        · exact Or.inr ⟨s, List.mem_cons_of_mem _ hs, h⟩
      · intro front s back heq hfront hs
        cases front with
        | nil =>
          obtain ⟨rfl, -⟩ := List.cons.inj heq
          have hne : a.commutes r = false := by
            rcases hs with hs | hs
            · exact absurd (Ordered.same_iff.2 hs) hsame
            · exact hs
          refine h₂ _ _ ?_
          rw [hne]
          exact blocks_add.2 (Or.inl ⟨rfl, rfl⟩)
        | cons t front =>
          obtain ⟨rfl, heq'⟩ := List.cons.inj heq
          exact h₄ front s back heq' (fun u hu => hfront u (List.mem_cons_of_mem _ hu)) hs

theorem trimmedFrom_mono {rs : List Rotation} {memo : CommutationMemo} (hm : memo.Right)
    {b : Blockers} {i j : Nat} (h : b.Blocks i j) : (trimmedFrom rs memo b).Blocks i j := by
  induction rs generalizing memo b with
  | nil => exact h
  | cons a rest ih =>
    obtain ⟨hright, hmono, -, -⟩ := blockUntilSame_spec a rest hm b
    exact ih hright (hmono i j h)

/-- Under the trimmed rule, a rotation waits only for earlier rotations that hold it back. -/
theorem pairs_of_trimmedFrom {rs : List Rotation} {memo : CommutationMemo} (hm : memo.Right)
    {b : Blockers} {i j : Nat} (h : (trimmedFrom rs memo b).Blocks i j) :
    Pairs Rotation.HoldsBack rs i j ∨ b.Blocks i j := by
  induction rs generalizing memo b with
  | nil => exact Or.inr h
  | cons a rest ih =>
    obtain ⟨hright, -, hsource, -⟩ := blockUntilSame_spec a rest hm b
    rcases ih hright h with h | h
    · exact Or.inl (pairs_cons.2 (Or.inr h))
    · rcases hsource i j h with h | h
      · exact Or.inr h
      · exact Or.inl (pairs_cons.2 (Or.inl h))

/-- The first rotation of the shape of `a`, with what stands before it and after it. -/
theorem exists_first_same {a : Rotation} {rest : List Rotation}
    (h : ∃ r ∈ rest, shapeOf a = shapeOf r) :
    ∃ r front back, rest = front ++ r :: back ∧ shapeOf a = shapeOf r ∧
      ∀ s ∈ front, shapeOf a ≠ shapeOf s := by
  induction rest with
  | nil => simp at h
  | cons t ts ih =>
    by_cases ht : shapeOf a = shapeOf t
    · exact ⟨t, [], ts, rfl, ht, by simp⟩
    · obtain ⟨r, hr, har⟩ := h
      have hr' : r ∈ ts := by
        rcases List.mem_cons.1 hr with rfl | hr
        · exact absurd har ht
        · exact hr
      obtain ⟨r', front, back, rfl, hshape, hfront⟩ := ih ⟨r, hr', har⟩
      refine ⟨r', t :: front, back, rfl, hshape, fun s hs => ?_⟩
      rcases List.mem_cons.1 hs with rfl | hs
      · exact ht
      · exact hfront s hs

/-- Under the trimmed rule, a rotation that is held back by `a` waits for `a` directly or through the
first rotation after `a` of the same shape, which holds back the same rotations. -/
theorem trimmedFrom_pairwise (rs : List Rotation) {memo : CommutationMemo} (hm : memo.Right)
    (b : Blockers) :
    rs.Pairwise fun r s => r.HoldsBack s →
      TransGen (trimmedFrom rs memo b).Blocks r.index s.index := by
  induction rs generalizing memo b with
  | nil => exact List.Pairwise.nil
  | cons a rest ih =>
    obtain ⟨hright, -, -, hcomplete⟩ := blockUntilSame_spec a rest hm b
    have hrest := ih hright (blockUntilSame a rest memo b).2
    have hdirect : ∀ {i j : Nat}, (blockUntilSame a rest memo b).2.Blocks i j →
        TransGen (trimmedFrom (a :: rest) memo b).Blocks i j :=
      fun h => TransGen.single (trimmedFrom_mono hright h)
    refine List.pairwise_cons.2 ⟨fun s hs hheld => ?_, hrest⟩
    by_cases hsame : ∃ r ∈ rest, shapeOf a = shapeOf r
    · obtain ⟨r, front, back, heq, hr, hfront⟩ := exists_first_same hsame
      have hfirst : a.HoldsBack r := Rotation.holdsBack_iff.2 (Or.inl hr)
      rw [heq, List.mem_append, List.mem_cons] at hs
      rcases hs with hs | rfl | hs
      · obtain ⟨f₁, f₂, rfl⟩ := List.append_of_mem hs
        exact hdirect (hcomplete f₁ s (f₂ ++ r :: back) (by rw [heq]; simp)
          (fun u hu => hfront u (by simp [hu])) hheld)
      · exact hdirect (hcomplete front s back heq hfront hfirst)
      · have hrs : TransGen (trimmedFrom (a :: rest) memo b).Blocks r.index s.index := by
          rw [heq] at hrest
          have htail := (List.pairwise_append.1 hrest).2.1
          refine (heq ▸ (List.pairwise_cons.1 htail).1 s hs) (Rotation.holdsBack_iff.2 ?_)
          rw [← hr, ← Rotation.commutes_congr hr rfl]
          exact Rotation.holdsBack_iff.1 hheld
        exact (hdirect (hcomplete front r back heq hfront hfirst)).trans hrs
    · push Not at hsame
      obtain ⟨front, back, rfl⟩ := List.append_of_mem hs
      exact hdirect (hcomplete front s back rfl (fun u hu => hsame u (by simp [hu])) hheld)

/-! ## Rotations that share a qubit -/

theorem get?_foldl_writers {qubits : List Nat} {writers : SortedMap Nat Nat} {i q : Nat} :
    (qubits.foldl (fun w p => w.insert p i) writers).get? q =
      if q ∈ qubits then some i else writers.get? q := by
  induction qubits generalizing writers with
  | nil => simp
  | cons p ps ih =>
    rw [List.foldl_cons, ih, SortedMap.get?_insert]
    by_cases hqp : q = p
    · simp [hqp]
    · simp [hqp]

theorem of_lastWritersFrom {rs : List Rotation} {writers : SortedMap Nat Nat} {b : Blockers}
    {j : Nat} (hj : ∀ r ∈ rs, r.index ≠ j) : (lastWritersFrom rs writers b).of j = b.of j := by
  induction rs generalizing writers b with
  | nil => rfl
  | cons r rest ih =>
    rw [lastWritersFrom, ih fun s hs => hj s (List.mem_cons_of_mem _ hs), of_insert,
      if_neg (hj r List.mem_cons_self).symm]

/-- A rotation waits only for earlier rotations with which it shares a qubit. The writers that are given
belong to rotations before the list. -/
theorem pairs_of_lastWritersFrom {rs : List Rotation} (earlier : List Rotation)
    {writers : SortedMap Nat Nat} {b : Blockers}
    (hw : ∀ q w, writers.get? q = some w → ∃ r ∈ earlier, w = r.index ∧ q ∈ r.activeQubits)
    {i j : Nat} (h : (lastWritersFrom rs writers b).Blocks i j) :
    Pairs (fun r s => r.triviallyCommutes s = false) (earlier ++ rs) i j ∨ b.Blocks i j := by
  induction rs generalizing earlier writers b with
  | nil => exact Or.inr h
  | cons r rest ih =>
    have hw' : ∀ q w, (r.activeQubits.toList.foldl (fun w q => w.insert q r.index) writers).get? q =
        some w → ∃ s ∈ earlier ++ [r], w = s.index ∧ q ∈ s.activeQubits := by
      intro q w hq
      rw [get?_foldl_writers] at hq
      split at hq
      · next hmem =>
        cases hq
        exact ⟨r, by simp, rfl, hmem⟩
      · obtain ⟨s, hs, hwriter⟩ := hw q w hq
        exact ⟨s, List.mem_append_left _ hs, hwriter⟩
    rcases ih (earlier ++ [r]) hw' h with h | h
    · rw [List.append_assoc, List.singleton_append] at h
      exact Or.inl h
    · rw [Blocks, of_insert] at h
      split at h
      · next hj =>
        rw [SortedSet.mem_ofList, List.mem_filterMap] at h
        obtain ⟨q, hqr, hq⟩ := h
        obtain ⟨s, hs, rfl, hqs⟩ := hw q i hq
        have hpair : [s, r].Sublist (earlier ++ r :: rest) :=
          (List.singleton_sublist.2 hs).append (List.singleton_sublist.2 List.mem_cons_self)
        exact Or.inl ⟨s, r, hpair, SortedSet.disjoint_eq_false_iff.2 ⟨q, hqs, hqr⟩, rfl, hj⟩
      · exact Or.inr h

/-- The latest rotation on a qubit comes before every later rotation on the qubit, by a chain along
the rotations on that qubit. -/
theorem transGen_of_writer {rs : List Rotation} (hrs : Increasing rs) {writers : SortedMap Nat Nat}
    {b : Blockers} {q w : Nat} (hw : writers.get? q = some w) {s : Rotation} (hs : s ∈ rs)
    (hq : q ∈ s.activeQubits) : TransGen (lastWritersFrom rs writers b).Blocks w s.index := by
  induction rs generalizing writers b w with
  | nil => cases hs
  | cons r rest ih =>
    obtain ⟨hr, hrest⟩ := List.pairwise_cons.1 hrs
    have hfinal : (lastWritersFrom (r :: rest) writers b).of r.index =
        SortedSet.ofList (r.activeQubits.toList.filterMap writers.get?) := by
      rw [lastWritersFrom, of_lastWritersFrom fun s hs => (hr s hs).ne', of_insert, if_pos rfl]
    have hdirect : q ∈ r.activeQubits →
        (lastWritersFrom (r :: rest) writers b).Blocks w r.index := by
      intro hqr
      rw [Blocks, hfinal, SortedSet.mem_ofList, List.mem_filterMap]
      exact ⟨q, hqr, hw⟩
    rcases List.mem_cons.1 hs with rfl | hs
    · exact TransGen.single (hdirect hq)
    · by_cases hqr : q ∈ r.activeQubits
      · refine TransGen.head (hdirect hqr) (ih hrest ?_ hs)
        rw [get?_foldl_writers, if_pos (SortedSet.mem_toList.2 hqr)]
      · refine ih hrest ?_ hs
        rw [get?_foldl_writers, if_neg (mt SortedSet.mem_toList.1 hqr), hw]

/-- Two rotations that share a qubit are ordered by a chain of last writers. -/
theorem lastWritersFrom_shared {rs : List Rotation} (hrs : Increasing rs)
    (writers : SortedMap Nat Nat) (b : Blockers) :
    rs.Pairwise fun r s => r.activeQubits.disjoint s.activeQubits = false →
      TransGen (lastWritersFrom rs writers b).Blocks r.index s.index := by
  induction rs generalizing writers b with
  | nil => exact List.Pairwise.nil
  | cons r rest ih =>
    obtain ⟨-, hrest⟩ := List.pairwise_cons.1 hrs
    refine List.pairwise_cons.2 ⟨fun s hs hshared => ?_, ih hrest _ _⟩
    obtain ⟨q, hqr, hqs⟩ := SortedSet.disjoint_eq_false_iff.1 hshared
    refine transGen_of_writer hrest ?_ hs hqs
    rw [get?_foldl_writers, if_pos (SortedSet.mem_toList.2 hqr)]

theorem lastWritersFrom_pairwise {rs : List Rotation} (hrs : Increasing rs)
    (writers : SortedMap Nat Nat) (b : Blockers) :
    rs.Pairwise fun r s => r.commutes s = false →
      TransGen (lastWritersFrom rs writers b).Blocks r.index s.index :=
  (lastWritersFrom_shared hrs writers b).imp fun hchain hc =>
    hchain (SortedSet.disjoint_eq_false_iff.2 (Rotation.exists_common_qubit hc))

end Dependency

/-! ## All rules -/

/-- Blockers order a list of rotations: they come earlier, and rotations that do not commute are
ordered by a chain of blockers. -/
structure Blockers.Orders (b : Blockers) (rs : List Rotation) : Prop where
  lt : ∀ i j, b.Blocks i j → i < j
  chain : rs.Pairwise fun r s => r.commutes s = false → TransGen b.Blocks r.index s.index

/-- Every rule orders the rotations of a list. -/
theorem DependencyRule.orders (rule : DependencyRule) {rs : List Rotation} (hrs : Increasing rs) :
    (rule.blockers rs).Orders rs := by
  cases rule with
  | trivialCommute =>
    refine ⟨fun i j h => ?_, Dependency.lastWritersFrom_pairwise hrs _ _⟩
    rcases Dependency.pairs_of_lastWritersFrom [] (by simp) h with h | h
    · exact h.lt hrs
    · exact absurd h (not_blocks_empty i j)
  | full =>
    refine ⟨fun i j h => ?_, List.pairwise_iff_forall_sublist.2 fun hsub hc => TransGen.single ?_⟩
    · rcases Dependency.blocks_noncommutingFrom.1 h with h | h
      · exact h.lt hrs
      · exact absurd h (not_blocks_empty i j)
    · exact Dependency.blocks_noncommutingFrom.2 (Or.inl ⟨_, _, hsub, hc, rfl, rfl⟩)
  | fullTrimmed =>
    refine ⟨fun i j h => ?_, (Dependency.trimmedFrom_pairwise rs Dependency.right_empty _).imp
      fun hchain hc => hchain (Or.inl hc)⟩
    rcases Dependency.pairs_of_trimmedFrom Dependency.right_empty h with h | h
    · exact h.lt hrs
    · exact absurd h (not_blocks_empty i j)

end LatticeSurgery
