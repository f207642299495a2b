import LatticeSurgery.Placement.Cluster
import LatticeSurgery.Proofs.Placement.Basic
import LatticeSurgery.Proofs.Random.Draw

/-!
# Placement around crossings gives each qubit a patch of its own

While patches are given out, a list of free patches is carried along (`Placement.Giving`): they are
different from each other and from those given away. Each step of the policy takes its patch from that
list. There are as many patches as qubits, so that no qubit is left over in the end.
-/

namespace LatticeSurgery

open Ordered WordSource

namespace Placement

variable {σ : Type} [WordSource σ] {P : σ → Prop} {s s' : σ} {patches free free' : List Nat} {n p q : Nat}
  {m : SortedMap Nat Nat}

/-! ## Giving patches -/

/-- A placement under way: the free patches are different, and none of them is given away. -/
structure Giving (patches : List Nat) (n : Nat) (m : SortedMap Nat Nat) (free : List Nat) : Prop
    extends Places patches n m where
  nodup : free.Nodup
  usable : ∀ p ∈ free, p ∈ patches
  fresh : ∀ q p, m.get? q = some p → p ∉ free

theorem giving_empty (hnodup : free.Nodup) (hfree : ∀ p ∈ free, p ∈ patches) :
    Giving patches n ∅ free := by
  refine ⟨⟨fun q p h => ?_, fun q p h => ?_, fun q q' p h => ?_⟩, hnodup, hfree, fun q p h => ?_⟩
  all_goals
    rw [SortedMap.get?_empty] at h
    cases h

theorem Giving.perm (h : Giving patches n m free) (hperm : free'.Perm free) :
    Giving patches n m free' :=
  ⟨h.toPlaces, hperm.nodup_iff.2 h.nodup, fun p hp => h.usable p (hperm.mem_iff.1 hp),
    fun q p hq hp => h.fresh q p hq (hperm.mem_iff.1 hp)⟩

/-- Some free patches are kept back. -/
theorem Giving.of_append (h : Giving patches n m (free' ++ free)) : Giving patches n m free :=
  ⟨h.toPlaces, h.nodup.of_append_right, fun p hp => h.usable p (List.mem_append_right _ hp),
    fun q p hq hp => h.fresh q p hq (List.mem_append_right _ hp)⟩

/-- A free patch is given to a qubit that has none. -/
theorem Giving.insert (h : Giving patches n m (p :: free)) (hq : q < n) (hnew : m.get? q = none) :
    Giving patches n (m.insert q p) free := by
  obtain ⟨hp, hnodup⟩ := List.nodup_cons.1 h.nodup
  -- a qubit of the new map is the new one or a qubit of the old map
  have hget : ∀ q' p', (m.insert q p).get? q' = some p' →
      q' = q ∧ p' = p ∨ m.get? q' = some p' ∧ p' ≠ p := by
    intro q' p' hq'
    by_cases heq : q' = q
    · rw [heq, SortedMap.get?_insert_self, Option.some_inj] at hq'
      exact Or.inl ⟨heq, hq'.symm⟩
    · rw [SortedMap.get?_insert_ne _ heq] at hq'
      refine Or.inr ⟨hq', ?_⟩
      rintro rfl
      exact h.fresh q' p' hq' List.mem_cons_self
  refine ⟨⟨fun q' p' hq' => ?_, fun q' p' hq' => ?_, fun q₁ q₂ p' h₁ h₂ => ?_⟩, hnodup,
    fun p' hp' => h.usable p' (List.mem_cons_of_mem _ hp'), fun q' p' hq' => ?_⟩
  · rcases hget q' p' hq' with ⟨rfl, -⟩ | ⟨hold, -⟩
    · exact hq
    · exact h.lt q' p' hold
  · rcases hget q' p' hq' with ⟨-, rfl⟩ | ⟨hold, -⟩
    · exact h.usable p' List.mem_cons_self
    · exact h.mem q' p' hold
  · rcases hget q₁ p' h₁ with ⟨rfl, rfl⟩ | ⟨hold₁, hne⟩
    · rcases hget q₂ p' h₂ with ⟨rfl, -⟩ | ⟨-, hne⟩
      · rfl
      · exact absurd rfl hne
    · rcases hget q₂ p' h₂ with ⟨-, rfl⟩ | ⟨hold₂, -⟩
      · exact absurd rfl hne
      · exact h.injective q₁ q₂ p' hold₁ hold₂
  · rcases hget q' p' hq' with ⟨-, rfl⟩ | ⟨hold, -⟩
    · exact hp
    · exact fun hp' => h.fresh q' p' hold (List.mem_cons_of_mem _ hp')

/-! ## Crossings -/

theorem gatherCrossing_perm (around : Nat → SortedSet Node) (corners : List Nat)
    (buses : SortedSet Node) :
    ((gatherCrossing around corners buses).1 ++ (gatherCrossing around corners buses).2).Perm
      corners := by
  induction corners generalizing buses with
  | nil => exact List.Perm.refl _
  | cons corner corners ih =>
    unfold gatherCrossing
    split
    · exact List.perm_middle.trans ((ih _).cons corner)
    · exact (ih _).cons corner

/-- The crossings share out the corners. -/
theorem crossingsIn_perm (around : Nat → SortedSet Node) {groups : Nat} {corners : List Nat}
    (h : corners.length ≤ groups) : (crossingsIn around groups corners).flatten.Perm corners := by
  induction groups generalizing corners with
  | zero =>
    obtain rfl := List.eq_nil_of_length_eq_zero (Nat.le_zero.1 h)
    exact List.Perm.refl _
  | succ groups ih =>
    cases corners with
    | nil => exact List.Perm.refl _
    | cons first corners =>
      have hgather := gatherCrossing_perm around corners (around first)
      have hlength := hgather.length_eq
      rw [List.length_append] at hlength
      rw [List.length_cons] at h
      show (first :: _ ++ _).Perm _
      refine (((ih (by omega)).append_left _).trans hgather).cons first

/-! ## Drawing -/

/-- A list from which nothing is drawn is empty. -/
theorem takeRandom_spec {α : Type} {l : List α} {r : Option (α × List α)} (hP : Ranged P) (hs : P s)
    (h : takeRandom l s = .ok (r, s')) :
    P s' ∧ (r = none ∧ l = [] ∨ ∃ a l', r = some (a, l') ∧ (a :: l').Perm l) := by
  cases l with
  | nil =>
    cases h
    exact ⟨hs, Or.inl ⟨rfl, rfl⟩⟩
  | cons a l =>
    obtain ⟨⟨i, t⟩, hi, h⟩ := exists_of_bind_eq_ok h
    cases h
    obtain ⟨hlt, ht⟩ := Draw.below64_ranged hP hs (Nat.succ_pos l.length) hi
    refine ⟨ht, Or.inr ⟨_, _, ?_, List.getElem_cons_eraseIdx_perm hlt⟩⟩
    rw [List.getElem?_eq_getElem hlt]
    rfl

theorem drawSeed_ranged {stats : CircuitStats} {qubits : List Nat} {i : Nat} (hP : Ranged P)
    (hs : P s) (hq : qubits ≠ []) (h : drawSeed stats qubits s = .ok (i, s')) : P s' := by
  obtain ⟨⟨r, t⟩, hr, h⟩ := exists_of_bind_eq_ok h
  have ht := Draw.weighted_ranged hP hs hr
  cases r with
  | some i =>
    cases h
    exact ht
  | none => exact (Draw.below64_ranged hP ht (List.length_pos_iff.2 hq) h).2

/-! ## Seeds -/

/-- The patches given out so far leave the free ones, and the seeds have no patch yet. -/
structure Clustering.Sound (patches : List Nat) (n : Nat) (free : List Nat) (c : Clustering) :
    Prop where
  giving : Giving patches n c.placed free
  seeds : ∀ q ∈ c.seeds, q < n ∧ c.placed.get? q = none

theorem Clustering.Sound.give {c : Clustering} (h : c.Sound patches n (p :: free)) (hq : q < n)
    (hnew : c.placed.get? q = none) : (c.give q p).Sound patches n free := by
  refine ⟨h.giving.insert hq hnew, fun q' hq' => ?_⟩
  rw [Clustering.give, List.mem_filter, decide_eq_true_eq] at hq'
  obtain ⟨hlt, hnone⟩ := h.seeds q' hq'.1
  refine ⟨hlt, ?_⟩
  show (c.placed.insert q p).get? q' = none
  rw [SortedMap.get?_insert_ne _ hq'.2, hnone]

theorem Clustering.Sound.of_giving {c : Clustering} (h : c.Sound patches n free)
    (hfree : Giving patches n c.placed free') : c.Sound patches n free' :=
  ⟨hfree, h.seeds⟩

theorem fillCrossing_spec {stats : CircuitStats} {seed : Nat} {qs crossing : List Nat}
    {c c' : Clustering} (hP : Ranged P) (hs : P s) (hqs : ∀ q ∈ qs, q < n)
    (hc : c.Sound patches n (crossing ++ free))
    (h : fillCrossing stats seed qs crossing c s = .ok (c', s')) :
    P s' ∧ c'.Sound patches n free := by
  induction qs generalizing crossing c s with
  | nil =>
    cases h
    exact ⟨hs, hc.of_giving hc.giving.of_append⟩
  | cons q qs ih =>
    have hrest : ∀ q ∈ qs, q < n := fun q hq => hqs q (List.mem_cons_of_mem _ hq)
    unfold fillCrossing at h
    split at h
    · exact ih hs hrest hc h
    · next hskip =>
      obtain ⟨⟨r, t⟩, hr, hrest'⟩ := exists_of_bind_eq_ok h
      obtain ⟨ht, ⟨rfl, rfl⟩ | ⟨patch, crossing', rfl, hperm⟩⟩ := takeRandom_spec hP hs hr
      · cases hrest'
        exact ⟨ht, hc⟩
      · rw [Bool.or_eq_true, not_or, SortedMap.contains, Option.isSome_iff_ne_none, not_not] at hskip
        exact ih ht hrest ((hc.of_giving (hc.giving.perm (hperm.append_right free))).give
          (hqs q List.mem_cons_self) hskip.1) hrest'

/-- Filling a crossing takes seeds away and adds none. -/
theorem seeds_fillCrossing {stats : CircuitStats} {seed : Nat} {qs crossing : List Nat}
    {c c' : Clustering} (h : fillCrossing stats seed qs crossing c s = .ok (c', s')) :
    c'.seeds.Sublist c.seeds := by
  induction qs generalizing crossing c s with
  | nil =>
    cases h
    exact List.Sublist.refl _
  | cons q qs ih =>
    unfold fillCrossing at h
    split at h
    · exact ih h
    · obtain ⟨⟨r, t⟩, -, h⟩ := exists_of_bind_eq_ok h
      cases r with
      | none =>
        cases h
        exact List.Sublist.refl _
      | some r => exact (ih h).trans List.filter_sublist

/-- Each round takes its patches from one crossing. -/
theorem seedCrossings_spec {stats : CircuitStats} {rounds : Nat} {crossings : List (List Nat)}
    {c c' : Clustering} (hP : Ranged P) (hs : P s) (hstats : ∀ q ∈ stats.byFlips, q < n)
    (hc : c.Sound patches n crossings.flatten)
    (h : seedCrossings stats rounds crossings c s = .ok (c', s')) :
    P s' ∧ Places patches n c'.placed := by
  induction rounds generalizing crossings c s with
  | zero =>
    cases h
    exact ⟨hs, hc.giving.toPlaces⟩
  | succ rounds ih =>
    unfold seedCrossings at h
    split at h
    · cases h
      exact ⟨hs, hc.giving.toPlaces⟩
    · next hgo =>
      rw [Bool.or_eq_true, not_or, List.isEmpty_iff, List.isEmpty_iff] at hgo
      obtain ⟨⟨i, t⟩, hi, h⟩ := exists_of_bind_eq_ok h
      have ht := drawSeed_ranged hP hs hgo.2 hi
      dsimp only at h
      split at h
      · cases h
        exact ⟨ht, hc.giving.toPlaces⟩
      · next seed hseed =>
        obtain ⟨hlt, hnone⟩ := hc.seeds seed (List.mem_of_getElem? hseed)
        obtain ⟨⟨r, t'⟩, hr, hrest⟩ := exists_of_bind_eq_ok h
        obtain ⟨ht', ⟨rfl, rfl⟩ | ⟨crossing, crossings', rfl, hperm⟩⟩ := takeRandom_spec hP ht hr
        · exact absurd rfl hgo.1
        · have hgiving := hc.giving.perm hperm.flatten
          rw [List.flatten_cons] at hgiving
          obtain ⟨⟨r, t''⟩, hr, hrest'⟩ := exists_of_bind_eq_ok hrest
          obtain ⟨ht'', ⟨rfl, rfl⟩ | ⟨patch, crossing', rfl, hperm'⟩⟩ := takeRandom_spec hP ht' hr
          · have hc' : Clustering.Sound patches n crossings'.flatten
                { c with seeds := c.seeds.eraseIdx i } :=
              ⟨hgiving, fun q hq => hc.seeds q (List.mem_of_mem_eraseIdx hq)⟩
            exact ih ht'' hc' hrest'
          · obtain ⟨⟨c'', t₃⟩, hfill, h⟩ := exists_of_bind_eq_ok hrest'
            have hgiven := (hc.of_giving (hgiving.perm (hperm'.append_right _))).give hlt hnone
            obtain ⟨ht₃, hc''⟩ := fillCrossing_spec hP ht'' hstats hgiven hfill
            exact ih ht₃ hc'' h

/-! ## The qubits that are left -/

/-- While there are as many free patches as qubits without one, each qubit gets one. -/
theorem placeRest_spec {qs corners sides : List Nat} {m' : SortedMap Nat Nat} (hP : Ranged P)
    (hs : P s) (hqs : ∀ q ∈ qs, q < n) (hnodup : qs.Nodup)
    (hm : Giving patches n m (corners ++ sides))
    (hcount : (qs.filter fun q => !m.contains q).length ≤ (corners ++ sides).length)
    (h : placeRest qs corners sides m s = .ok (m', s')) :
    Places patches n m' ∧ (∀ q, (m.get? q).isSome = true → (m'.get? q).isSome = true) ∧
      ∀ q ∈ qs, (m'.get? q).isSome = true := by
  induction qs generalizing corners sides m s with
  | nil =>
    cases h
    exact ⟨hm.toPlaces, fun _ h => h, fun q hq => absurd hq List.not_mem_nil⟩
  | cons q qs ih =>
    have hrest : ∀ q ∈ qs, q < n := fun q hq => hqs q (List.mem_cons_of_mem _ hq)
    obtain ⟨hq, hnodup⟩ := List.nodup_cons.1 hnodup
    unfold placeRest at h
    split at h
    · next hplaced =>
      rw [List.filter_cons, hplaced, Bool.not_true, if_neg Bool.false_ne_true] at hcount
      obtain ⟨hplaces, hkept, hall⟩ := ih hs hrest hnodup hm hcount h
      exact ⟨hplaces, hkept, List.forall_mem_cons.2 ⟨hkept q hplaced, hall⟩⟩
    · next hplaced =>
      rw [Bool.not_eq_true] at hplaced
      have hnone : m.get? q = none := by
        rwa [SortedMap.contains, Option.isSome_eq_false_iff, Option.isNone_iff_eq_none] at hplaced
      rw [List.filter_cons, hplaced, Bool.not_false, if_pos rfl, List.length_cons] at hcount
      -- the qubit gets a free patch, and the others still have enough
      have hgive : ∀ patch corners' sides' t, (patch :: (corners' ++ sides')).Perm (corners ++ sides) →
          P t → placeRest qs corners' sides' (m.insert q patch) t = .ok (m', s') →
          Places patches n m' ∧ (∀ q, (m.get? q).isSome = true → (m'.get? q).isSome = true) ∧
            ∀ q' ∈ q :: qs, (m'.get? q').isSome = true := by
        intro patch corners' sides' t hperm ht h
        have hfilter : (qs.filter fun q' => !(m.insert q patch).contains q') =
            qs.filter fun q' => !m.contains q' := by
          refine List.filter_congr fun q' hq' => ?_
          have hne : q' ≠ q := fun heq => hq (heq ▸ hq')
          rw [SortedMap.contains, SortedMap.contains, SortedMap.get?_insert_ne _ hne]
        have hlength := hperm.length_eq
        rw [List.length_cons] at hlength
        obtain ⟨hplaces, hkept, hall⟩ := ih ht hrest hnodup
          ((hm.perm hperm).insert (hqs q List.mem_cons_self) hnone)
          (by rw [hfilter]; omega) h
        have hself : (m'.get? q).isSome = true := hkept q (by rw [SortedMap.get?_insert_self]; rfl)
        refine ⟨hplaces, fun q' hq' => ?_, List.forall_mem_cons.2 ⟨hself, hall⟩⟩
        by_cases heq : q' = q
        · exact heq ▸ hself
        · exact hkept q' (by rwa [SortedMap.get?_insert_ne _ heq])
      obtain ⟨⟨r, t⟩, hr, hrest'⟩ := exists_of_bind_eq_ok h
      obtain ⟨ht, ⟨rfl, rfl⟩ | ⟨patch, corners', rfl, hperm⟩⟩ := takeRandom_spec hP hs hr
      · obtain ⟨⟨r, t'⟩, hr, hrest'⟩ := exists_of_bind_eq_ok hrest'
        obtain ⟨ht', ⟨rfl, rfl⟩ | ⟨patch, sides', rfl, hperm⟩⟩ := takeRandom_spec hP ht hr
        · exact absurd hcount (Nat.not_succ_le_zero _)
        · exact hgive patch [] sides' t' hperm ht' hrest'
      · exact hgive patch corners' sides t (hperm.append_right sides) ht hrest'

end Placement

end LatticeSurgery
