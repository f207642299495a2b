import LatticeSurgery.Dependency.Progress
import LatticeSurgery.Proofs.Dependency.Rules
import LatticeSurgery.Proofs.Endings

/-!
# Progress as a set of rotations

A `Progress` keeps counts of blockers. `Progress.Counts` says which set of rotations the counts stand
for: the rotations that are done, out of those that the progress covers. Completing a set of rotations
adds them to what is done and reports exactly the rotations that it releases, unless one of them is
obstructed (`Counts.complete`).

`Progress.Tracks` is the case in which the first so many rotations are covered. A rotation is free when
it is not done and all of its blockers are; completing free rotations never fails and reports exactly
the rotations that it frees.
-/

namespace LatticeSurgery

open Relation Blockers

/-- The blockers of a rotation that are not done, as many as the counts say. -/
def Blockers.openCount (b : Blockers) (done : Finset Nat) (j : Nat) : Nat :=
  ((b.of j).toList.filter fun i => decide (i ∉ done)).length

namespace Blockers

variable {b : Blockers} {done : Finset Nat} {i j : Nat}

theorem openCount_eq_zero : b.openCount done j = 0 ↔ ∀ i, b.Blocks i j → i ∈ done := by
  rw [openCount, List.length_eq_zero_iff, List.filter_eq_nil_iff]
  simp [Blocks, SortedSet.mem_def]

theorem openCount_empty : b.openCount ∅ j = (b.of j).size := by
  simp [openCount, SortedSet.size]

theorem openCount_insert_of_not_blocks (h : ¬ b.Blocks i j) :
    b.openCount (insert i done) j = b.openCount done j := by
  rw [openCount, openCount]
  refine congrArg List.length (List.filter_congr fun k hk => ?_)
  have hne : k ≠ i := by
    rintro rfl
    exact h hk
  simp [hne]

/-- Doing an open blocker takes one from the count. -/
theorem openCount_insert_of_blocks (h : b.Blocks i j) (hi : i ∉ done) :
    b.openCount (insert i done) j + 1 = b.openCount done j := by
  have hnodup : ((b.of j).toList.filter fun k => decide (k ∉ done)).Nodup :=
    (b.of j).nodup.filter _
  have hmem : i ∈ (b.of j).toList.filter fun k => decide (k ∉ done) := by
    rw [List.mem_filter]
    exact ⟨h, by simpa using hi⟩
  have herase : ((b.of j).toList.filter fun k => decide (k ∉ insert i done)) =
      ((b.of j).toList.filter fun k => decide (k ∉ done)).erase i := by
    rw [hnodup.erase_eq_filter, List.filter_filter]
    refine List.filter_congr fun k _ => ?_
    by_cases hk : k = i <;> simp [hk]
  rw [openCount, openCount, herase, List.length_erase_of_mem hmem]
  have := List.length_pos_of_mem hmem
  omega

end Blockers

namespace Blockers

/-- The rotation `j` is one of the known rotations, had an open blocker before and has none after. -/
def Released (b : Blockers) (known : Nat → Prop) (before after : Finset Nat) (j : Nat) : Prop :=
  known j ∧ (∃ i, b.Blocks i j ∧ i ∉ before) ∧ ∀ i, b.Blocks i j → i ∈ after

/-- The rotation `j` cannot be completed with the rotations of a list, smallest first: it is unknown or
done, or it has an open blocker that is no smaller rotation of the list. -/
def Obstructed (b : Blockers) (known : Nat → Prop) (done : Finset Nat) (l : List Nat) (j : Nat) :
    Prop :=
  ¬ known j ∨ j ∈ done ∨ ∃ i, b.Blocks i j ∧ i ∉ done ∧ ¬ (i < j ∧ i ∈ l)

variable {b : Blockers} {known : Nat → Prop} {done done' done'' : Finset Nat} {i j : Nat}
  {l : List Nat}

/-- What is released in two steps is released by both together. -/
theorem released_trans (h : done ⊆ done') (h' : done' ⊆ done'') :
    b.Released known done done' j ∨ b.Released known done' done'' j ↔ b.Released known done done'' j := by
  constructor
  · rintro (⟨hj, hopen, hdone⟩ | ⟨hj, ⟨i, hb, hi⟩, hdone⟩)
    · exact ⟨hj, hopen, fun i hb => h' (hdone i hb)⟩
    · exact ⟨hj, ⟨i, hb, fun hm => hi (h hm)⟩, hdone⟩
  · rintro ⟨hj, hopen, hdone⟩
    by_cases hall : ∀ i, b.Blocks i j → i ∈ done'
    · exact Or.inl ⟨hj, hopen, hall⟩
    · push Not at hall
      exact Or.inr ⟨hj, hall, hdone⟩

/-- The smallest rotation of a list is obstructed unless it is known and open and its blockers are
done. -/
theorem not_obstructed_head (hl : ∀ j ∈ l, i < j) : ¬ b.Obstructed known done (i :: l) i ↔
    known i ∧ i ∉ done ∧ ∀ k, b.Blocks k i → k ∈ done := by
  have hleast : ∀ k, ¬ (k < i ∧ k ∈ i :: l) := by
    rintro k ⟨hk, hmem⟩
    rcases List.mem_cons.1 hmem with rfl | hmem
    · exact lt_irrefl k hk
    · exact absurd hk (hl k hmem).not_gt
  unfold Obstructed
  push Not
  exact and_congr_right fun _ => and_congr_right fun _ =>
    ⟨fun h k hb => by_contra fun hk => absurd (h k hb hk) (hleast k),
      fun h k hb hk => absurd (h k hb) hk⟩

/-- Once the smallest rotation of a list is done, the others are obstructed as before. -/
theorem obstructed_tail (hl : ∀ j ∈ l, i < j) (hj : j ∈ l) :
    b.Obstructed known (insert i done) l j ↔ b.Obstructed known done (i :: l) j := by
  have hij := hl j hj
  unfold Obstructed
  simp only [Finset.mem_insert, hij.ne', false_or, List.mem_cons, not_or, and_assoc]
  refine or_congr_right (or_congr_right (exists_congr fun k => and_congr_right fun _ => ?_))
  constructor
  · rintro ⟨hki, hk, hnot⟩
    exact ⟨hk, fun h => hnot ⟨h.1, h.2.resolve_left hki⟩⟩
  · rintro ⟨hk, hnot⟩
    exact ⟨fun hki => hnot ⟨hki ▸ hij, Or.inl hki⟩, hk, fun h => hnot ⟨h.1, Or.inr h.2⟩⟩

end Blockers

namespace Progress

/-- The state of a progress in which the rotations of `done` are done, out of the known rotations with
the blockers `b`. -/
structure Counts (p : Progress) (b : Blockers) (known : Nat → Prop) (done : Finset Nat) : Prop where
  /-- The open rotations count their open blockers. -/
  pending : ∀ j c, p.pending.get? j = some c ↔ known j ∧ j ∉ done ∧ c = b.openCount done j
  /-- A rotation lists those that wait for it. -/
  dependents : ∀ i j, j ∈ p.dependents.of i ↔ known j ∧ b.Blocks i j
  /-- What is done has its blockers done. -/
  closed : ∀ i j, b.Blocks i j → j ∈ done → i ∈ done

variable {p : Progress} {b : Blockers} {known : Nat → Prop} {done : Finset Nat}

theorem Counts.pending_eq_zero (h : p.Counts b known done) {j : Nat} :
    p.pending.get? j = some 0 ↔ known j ∧ j ∉ done ∧ ∀ i, b.Blocks i j → i ∈ done := by
  rw [h.pending, eq_comm, openCount_eq_zero]

/-! ## Completing rotations -/

/-- Counting down the rotations of a list, none of which occurs twice. -/
theorem release_spec {l : List Nat} (hl : l.Nodup) (pending : SortedMap Nat Nat)
    (freed : SortedSet Nat) :
    (∀ j, (release l pending freed).1.get? j =
      if j ∈ l then (pending.get? j).map (· - 1) else pending.get? j) ∧
    ∀ j, j ∈ (release l pending freed).2 ↔
      j ∈ freed ∨ (j ∈ l ∧ ∃ c, pending.get? j = some c ∧ c - 1 = 0) := by
  induction l generalizing pending freed with
  | nil => simp [release]
  | cons i is ih =>
    obtain ⟨hi, his⟩ := List.nodup_cons.1 hl
    unfold release
    split
    · next hnone =>
      obtain ⟨hp, hf⟩ := ih his pending freed
      refine ⟨fun j => ?_, fun j => ?_⟩
      · rw [hp]
        by_cases hj : j = i
        · subst hj; simp [hnone]
        · simp [hj]
      · rw [hf]
        by_cases hj : j = i
        · subst hj; simp [hnone]
        · simp [hj]
    · next c hc =>
      obtain ⟨hp, hf⟩ := ih his (pending.insert i (c - 1))
        (if c - 1 = 0 then freed.insert i else freed)
      refine ⟨fun j => ?_, fun j => ?_⟩
      · rw [hp, SortedMap.get?_insert]
        by_cases hj : j = i
        · subst hj; simp [hi, hc]
        · simp [hj]
      · rw [hf, SortedMap.get?_insert]
        by_cases hj : j = i
        · subst hj
          by_cases h0 : c - 1 = 0 <;> simp [hi, hc, h0]
        · by_cases h0 : c - 1 = 0 <;> simp [hj, h0]

/-- The progress after one rotation is completed. -/
def afterOne (p : Progress) (i : Nat) (freed : SortedSet Nat) : Progress × SortedSet Nat :=
  let r := release (p.dependents.of i).toList (p.pending.erase i) freed
  ({ p with pending := r.1 }, r.2)

theorem completeEach_cons (i : Nat) (is : List Nat) (p : Progress) (freed : SortedSet Nat)
    (h : p.pending.get? i = some 0) : completeEach (i :: is) p freed =
      completeEach is (p.afterOne i freed).1 (p.afterOne i freed).2 := by
  rw [completeEach, if_pos h]
  rfl

/-- Completing a rotation whose blockers are done adds it to what is done and reports what it
releases. -/
theorem Counts.afterOne (h : p.Counts b known done) {i : Nat} (hi : p.pending.get? i = some 0)
    (freed : SortedSet Nat) :
    (p.afterOne i freed).1.Counts b known (insert i done) ∧
    ∀ j, j ∈ (p.afterOne i freed).2 ↔ j ∈ freed ∨ b.Released known done (insert i done) j := by
  obtain ⟨-, hopen, hblockers⟩ := h.pending_eq_zero.1 hi
  obtain ⟨hpending, hfreed⟩ := release_spec (p.dependents.of i).nodup (p.pending.erase i) freed
  have hself : ¬ b.Blocks i i := fun hb => hopen (hblockers i hb)
  have hwaits : ∀ j, j ∈ (p.dependents.of i).toList ↔ known j ∧ b.Blocks i j := h.dependents i
  -- a rotation that waits for `i` counts it among its open blockers before
  have hcount : ∀ j, b.Blocks i j → ∀ c, (p.pending.erase i).get? j = some c ↔
      known j ∧ j ∉ insert i done ∧ c = b.openCount (insert i done) j + 1 := by
    intro j hb c
    have hji : j ≠ i := by
      rintro rfl
      exact hself hb
    rw [SortedMap.get?_erase_ne _ hji, h.pending, openCount_insert_of_blocks hb hopen]
    simp [hji]
  refine ⟨⟨fun j c => ?_, h.dependents, fun k j hb hj => ?_⟩, fun j => ?_⟩
  · show (release _ _ freed).1.get? j = some c ↔ _
    rw [hpending]
    by_cases hb : b.Blocks i j
    · by_cases hj : known j
      · rw [if_pos ((hwaits j).2 ⟨hj, hb⟩), Option.map_eq_some_iff]
        constructor
        · rintro ⟨c', hc', rfl⟩
          obtain ⟨hknown, hnot, rfl⟩ := (hcount j hb c').1 hc'
          exact ⟨hknown, hnot, rfl⟩
        · rintro ⟨hknown, hnot, rfl⟩
          exact ⟨_, (hcount j hb _).2 ⟨hknown, hnot, rfl⟩, rfl⟩
      · rw [if_neg fun hm => hj ((hwaits j).1 hm).1, hcount j hb]
        exact ⟨fun hc => absurd hc.1 hj, fun hc => absurd hc.1 hj⟩
    · rw [if_neg fun hm => hb ((hwaits j).1 hm).2, openCount_insert_of_not_blocks hb,
        SortedMap.get?_erase]
      by_cases hji : j = i
      · simp [hji]
      · rw [if_neg (by simpa using Ne.symm hji), h.pending]
        simp [hji]
  · rcases Finset.mem_insert.1 hj with rfl | hj
    · exact Finset.mem_insert_of_mem (hblockers k hb)
    · exact Finset.mem_insert_of_mem (h.closed k j hb hj)
  · show j ∈ (release _ _ freed).2 ↔ _
    rw [hfreed, hwaits]
    refine or_congr_right ⟨?_, ?_⟩
    · rintro ⟨⟨hj, hb⟩, c, hc, h0⟩
      obtain ⟨-, -, rfl⟩ := (hcount j hb c).1 hc
      exact ⟨hj, ⟨i, hb, hopen⟩, openCount_eq_zero.1 (by omega)⟩
    · rintro ⟨hj, ⟨k, hkb, hk⟩, hall⟩
      -- the open blocker is the one that is completed
      obtain rfl : k = i := (Finset.mem_insert.1 (hall k hkb)).resolve_right hk
      have hnot : j ∉ insert k done := fun hm => by
        rcases Finset.mem_insert.1 hm with rfl | hm
        · exact hself hkb
        · exact hk (h.closed k j hkb hm)
      refine ⟨⟨hj, hkb⟩, 1, (hcount j hkb 1).2 ⟨hj, hnot, ?_⟩, rfl⟩
      rw [openCount_eq_zero.2 hall]

/-- Completing rotations, smallest first, fails at the first one that is obstructed. -/
theorem Counts.completeEach {l : List Nat} (h : p.Counts b known done) (hl : l.Pairwise (· < ·))
    (freed : SortedSet Nat) :
    Ends (Progress.completeEach l p freed)
      (fun e => ∃ i ∈ l, b.Obstructed known done l i ∧ (∀ j ∈ l, j < i → ¬ b.Obstructed known done l j) ∧
        e = .notSchedulable i)
      fun r => (∀ i ∈ l, ¬ b.Obstructed known done l i) ∧ r.1.Counts b known (done ∪ l.toFinset) ∧
        ∀ j, j ∈ r.2 ↔ j ∈ freed ∨ b.Released known done (done ∪ l.toFinset) j := by
  induction l generalizing p done freed with
  | nil =>
    refine ⟨by simp, by simpa using h, fun j => ?_⟩
    rw [or_iff_left]
    rintro ⟨-, ⟨i, hb, hi⟩, hall⟩
    exact hi (by simpa using hall i hb)
  | cons i is ih =>
    obtain ⟨hi, his⟩ := List.pairwise_cons.1 hl
    have hhead : p.pending.get? i = some 0 ↔ ¬ b.Obstructed known done (i :: is) i :=
      h.pending_eq_zero.trans (not_obstructed_head hi).symm
    by_cases hzero : p.pending.get? i = some 0
    · obtain ⟨hcounts, hone⟩ := h.afterOne hzero freed
      rw [completeEach_cons i is p freed hzero]
      have hunion : insert i done ∪ is.toFinset = done ∪ (i :: is).toFinset := by
        rw [List.toFinset_cons, Finset.union_insert, Finset.insert_union]
      refine (ih hcounts his (p.afterOne i freed).2).mono ?_ ?_
      · rintro e ⟨k, hk, hobstructed, hfirst, rfl⟩
        refine ⟨k, List.mem_cons_of_mem _ hk, (obstructed_tail hi hk).1 hobstructed, fun j hj hjk => ?_,
          rfl⟩
        rcases List.mem_cons.1 hj with rfl | hj
        · exact hhead.1 hzero
        · exact mt (obstructed_tail hi hj).2 (hfirst j hj hjk)
      · rintro r ⟨hclear, hcounts', hfreed⟩
        rw [hunion] at hcounts' hfreed
        refine ⟨fun j hj => ?_, hcounts', fun j => ?_⟩
        · rcases List.mem_cons.1 hj with rfl | hj
          · exact hhead.1 hzero
          · exact mt (obstructed_tail hi hj).2 (hclear j hj)
        · rw [hfreed, hone, or_assoc, released_trans (Finset.subset_insert i done)
            (hunion ▸ Finset.subset_union_left)]
    · unfold Progress.completeEach
      rw [if_neg hzero]
      refine ⟨i, List.mem_cons_self, not_not.1 (mt hhead.2 hzero), fun j hj hji => ?_, rfl⟩
      rcases List.mem_cons.1 hj with rfl | hj
      · exact absurd hji (lt_irrefl j)
      · exact absurd hji (hi j hj).not_gt

/-- Completing a set of rotations fails at the first one that is obstructed. Otherwise it adds the set to
what is done and reports the rotations that it releases. -/
theorem Counts.complete (h : p.Counts b known done) (s : SortedSet Nat) :
    Ends (p.complete s)
      (fun e => ∃ i ∈ s, b.Obstructed known done s.toList i ∧
        (∀ j ∈ s, j < i → ¬ b.Obstructed known done s.toList j) ∧ e = .notSchedulable i)
      fun r => (∀ i ∈ s, ¬ b.Obstructed known done s.toList i) ∧
        r.1.Counts b known (done ∪ s.toList.toFinset) ∧
        ∀ j, j ∈ r.2 ↔ b.Released known done (done ∪ s.toList.toFinset) j := by
  refine (h.completeEach (s.sorted.imp of_decide_eq_true) ∅).mono (fun _ he => he) fun r hr => ?_
  exact ⟨hr.1, hr.2.1, fun j => by simp [hr.2.2]⟩

end Progress

/-- The rotation `j`, of `n` rotations, is not done and all of its blockers are done. -/
def Blockers.Free (b : Blockers) (n : Nat) (done : Finset Nat) (j : Nat) : Prop :=
  j < n ∧ j ∉ done ∧ ∀ i, b.Blocks i j → i ∈ done

namespace Progress

/-- The state of a progress in which the rotations of `done` are done, out of `n` rotations with
the blockers `b`. -/
structure Tracks (p : Progress) (b : Blockers) (n : Nat) (done : Finset Nat) : Prop where
  /-- Every open rotation counts its open blockers. -/
  pending : ∀ j, p.pending.get? j = if j < n ∧ j ∉ done then some (b.openCount done j) else none
  /-- A rotation lists those that wait for it. -/
  dependents : ∀ i j, j ∈ p.dependents.of i ↔ j < n ∧ b.Blocks i j
  /-- What is done has its blockers done. -/
  closed : ∀ i j, b.Blocks i j → j ∈ done → i ∈ done
  /-- What is done is a rotation. -/
  bound : ∀ i ∈ done, i < n

variable {p : Progress} {b : Blockers} {n : Nat} {done : Finset Nat}

/-- A progress that covers the first `n` rotations counts their blockers. -/
theorem Tracks.counts (h : p.Tracks b n done) : p.Counts b (· < n) done := by
  refine ⟨fun j c => ?_, h.dependents, h.closed⟩
  rw [h.pending]
  split
  · next hj => simp [hj, eq_comm]
  · next hj => simp only [reduceCtorEq, false_iff]; tauto

theorem Counts.tracks (h : p.Counts b (· < n) done) (hbound : ∀ i ∈ done, i < n) :
    p.Tracks b n done := by
  refine ⟨fun j => Option.ext fun c => ?_, h.dependents, h.closed, hbound⟩
  rw [h.pending]
  split
  · next hj => simp [hj, eq_comm]
  · next hj => simp only [reduceCtorEq, iff_false]; tauto

theorem Tracks.pending_eq_zero (h : p.Tracks b n done) {j : Nat} :
    p.pending.get? j = some 0 ↔ b.Free n done j :=
  h.counts.pending_eq_zero

/-- The rotations that may be done next are the free ones. -/
theorem Tracks.mem_unblocked (h : p.Tracks b n done) {j : Nat} :
    j ∈ p.unblocked ↔ b.Free n done j := by
  rw [← h.pending_eq_zero, unblocked, SortedMap.mem_keySet_filter]
  simp

/-- Chains of blockers of what is done are done. -/
theorem Tracks.closed_chain (h : p.Tracks b n done) {i j : Nat} (hij : TransGen b.Blocks i j)
    (hj : j ∈ done) : i ∈ done := by
  induction hij with
  | single hb => exact h.closed _ _ hb hj
  | tail _ hb ih => exact ih (h.closed _ _ hb hj)

/-- A rotation with a chain of blockers from an open one is not free. -/
theorem Tracks.not_free_of_chain (h : p.Tracks b n done) {i j : Nat}
    (hij : TransGen b.Blocks i j) (hi : i ∉ done) : ¬ b.Free n done j := by
  intro hj
  rcases TransGen.tail'_iff.1 hij with ⟨k, hik, hkj⟩
  have hk : k ∈ done := hj.2.2 k hkj
  rcases reflTransGen_iff_eq_or_transGen.1 hik with rfl | hik
  · exact hi hk
  · exact hi (h.closed_chain hik hk)

/-- Everything is done when no rotation is free. -/
theorem Tracks.isDone_of_no_free (h : p.Tracks b n done) (hlt : ∀ i j, b.Blocks i j → i < j)
    (hfree : ∀ j, ¬ b.Free n done j) : p.isDone = true := by
  have hall : ∀ j, j < n → j ∈ done := by
    intro j
    induction j using Nat.strong_induction_on with
    | _ j ih =>
      intro hj
      by_contra hnot
      exact hfree j ⟨hj, hnot, fun i hi => ih i (hlt i j hi) (lt_trans (hlt i j hi) hj)⟩
  refine SortedMap.isEmpty_iff.2 fun j => ?_
  rw [h.pending, if_neg]
  exact fun hj => hj.2 (hall j hj.1)

theorem Tracks.mem_of_isDone (h : p.Tracks b n done) (hdone : p.isDone = true) {j : Nat}
    (hj : j < n) : j ∈ done := by
  by_contra hnot
  have hnone := SortedMap.isEmpty_iff.1 hdone j
  rw [h.pending, if_pos ⟨hj, hnot⟩] at hnone
  cases hnone

/-! ## Completing free rotations -/

/-- Completing a set of free rotations never fails. It adds the set to what is done and reports the
rotations that are free now and were not before. -/
theorem Tracks.complete (h : p.Tracks b n done) {s : SortedSet Nat}
    (hfree : ∀ i ∈ s, b.Free n done i) :
    ∃ p' freed, p.complete s = .ok (p', freed) ∧ p'.Tracks b n (done ∪ s.toList.toFinset) ∧
      ∀ j, j ∈ freed ↔ b.Free n (done ∪ s.toList.toFinset) j ∧ ¬ b.Free n done j := by
  have hclear : ∀ i ∈ s, ¬ b.Obstructed (· < n) done s.toList i := by
    rintro i hi (hn | hdone | ⟨k, hb, hk, -⟩)
    · exact hn (hfree i hi).1
    · exact (hfree i hi).2.1 hdone
    · exact hk ((hfree i hi).2.2 k hb)
  obtain ⟨⟨p', freed⟩, hok, -, hcounts, hfreed⟩ := ((h.counts.complete s).mono
    (fun e ⟨i, hi, hobstructed, _⟩ => hclear i hi hobstructed) fun _ hr => hr).exists_ok
  refine ⟨p', freed, hok, hcounts.tracks fun i hi => ?_, fun j => ?_⟩
  · rcases Finset.mem_union.1 hi with hi | hi
    · exact h.bound i hi
    · exact (hfree i (List.mem_toFinset.1 hi)).1
  · rw [hfreed]
    constructor
    · rintro ⟨hj, ⟨i, hb, hi⟩, hall⟩
      have hnot : ¬ b.Free n done j := fun hf => hi (hf.2.2 i hb)
      refine ⟨⟨hj, fun hm => ?_, hall⟩, hnot⟩
      rcases Finset.mem_union.1 hm with hm | hm
      · exact hi (h.closed i j hb hm)
      · exact hnot (hfree j (List.mem_toFinset.1 hm))
    · rintro ⟨hf, hnot⟩
      refine ⟨hf.1, ?_, hf.2.2⟩
      by_contra hdone
      push Not at hdone
      exact hnot ⟨hf.1, fun hm => hf.2.1 (Finset.mem_union_left _ hm), hdone⟩

/-- What is free after a set was completed: what was free before and is not in the set, and what
was reported. -/
theorem free_after_iff {s : SortedSet Nat} {j : Nat} :
    b.Free n (done ∪ s.toList.toFinset) j ↔
      (b.Free n done j ∧ j ∉ s) ∨
        (b.Free n (done ∪ s.toList.toFinset) j ∧ ¬ b.Free n done j) := by
  constructor
  · intro hj
    by_cases hf : b.Free n done j
    · refine Or.inl ⟨hf, fun hm => hj.2.1 ?_⟩
      simp [SortedSet.mem_toList, hm]
    · exact Or.inr ⟨hj, hf⟩
  · rintro (⟨hf, hm⟩ | ⟨hj, -⟩)
    · refine ⟨hf.1, ?_, fun k hk => Finset.mem_union_left _ (hf.2.2 k hk)⟩
      simp [SortedSet.mem_toList, hf.2.1, hm]
    · exact hj

/-! ## The start -/

theorem of_foldl_insert_of {indices : List Nat} {b' : Blockers} {i : Nat} :
    Blockers.of (indices.foldl (fun b i => SortedMap.insert b i (b.of i)) b') i = b'.of i := by
  induction indices generalizing b' with
  | nil => rfl
  | cons k ks ih =>
    rw [List.foldl_cons, ih, of_insert]
    split
    · next h => rw [h]
    · rfl

theorem blocks_foldl_add_self {l : List Nat} {d : Blockers} {k i j : Nat} :
    (l.foldl (fun d j => d.add k j) d).Blocks j i ↔ (j = k ∧ i ∈ l) ∨ d.Blocks j i := by
  induction l generalizing d with
  | nil => simp
  | cons m ms ih =>
    rw [List.foldl_cons, ih, blocks_add, List.mem_cons]
    tauto

theorem blocks_dependents {indices : List Nat} {blockers d : Blockers} {i j : Nat} :
    (indices.foldl (fun d k => (blockers.of k).toList.foldl (fun d m => d.add k m) d) d).Blocks j i ↔
      (j ∈ indices ∧ blockers.Blocks i j) ∨ d.Blocks j i := by
  induction indices generalizing d with
  | nil => simp
  | cons k ks ih =>
    rw [List.foldl_cons, ih, blocks_foldl_add_self, List.mem_cons]
    constructor
    · rintro (⟨h, hb⟩ | ⟨rfl, hb⟩ | h)
      · exact Or.inl ⟨Or.inr h, hb⟩
      · exact Or.inl ⟨Or.inl rfl, hb⟩
      · exact Or.inr h
    · rintro (⟨rfl | h, hb⟩ | h)
      · exact Or.inr (Or.inl ⟨rfl, hb⟩)
      · exact Or.inl ⟨h, hb⟩
      · exact Or.inr (Or.inr h)

/-- A progress keeps the blockers that it is given. -/
theorem blocks_start {indices : List Nat} {blockers : Blockers} {i j : Nat} :
    (start indices blockers).blockers.Blocks i j ↔ blockers.Blocks i j := by
  unfold Blocks
  rw [start, of_foldl_insert_of]

theorem blocks_ofCircuit {c : Circuit} {rule : DependencyRule} {i j : Nat} :
    (ofCircuit c rule).blockers.Blocks i j ↔ (rule.blockers c.rotations).Blocks i j :=
  blocks_start

/-- At the start nothing is done. -/
theorem start_counts {indices : List Nat} (hindices : indices.Nodup) (blockers : Blockers) :
    (start indices blockers).Counts blockers (· ∈ indices) ∅ := by
  have hkeys : ((indices.map fun i => (i, (blockers.of i).size)).map Prod.fst).Nodup := by
    simpa [Function.comp_def] using hindices
  refine ⟨fun j c => ?_, fun i j => ?_, by simp⟩
  · rw [start, SortedMap.get?_ofList_iff hkeys, openCount_empty]
    simp only [List.mem_map, Prod.mk.injEq]
    constructor
    · rintro ⟨i, hi, rfl, rfl⟩
      exact ⟨hi, by simp, rfl⟩
    · rintro ⟨hj, -, rfl⟩
      exact ⟨j, hj, rfl, rfl⟩
  · show (start indices blockers).dependents.Blocks j i ↔ _
    rw [start, blocks_dependents]
    simp

theorem start_tracks (n : Nat) (blockers : Blockers) :
    (start (List.range n) blockers).Tracks blockers n ∅ := by
  have hrange : (List.range n).Nodup := List.nodup_range
  have hcounts := start_counts hrange blockers
  simp only [List.mem_range] at hcounts
  exact hcounts.tracks (by simp)

end Progress

end LatticeSurgery
