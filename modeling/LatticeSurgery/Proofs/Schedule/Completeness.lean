import LatticeSurgery.Proofs.Board.OfLayout
import LatticeSurgery.Proofs.Schedule.Runs

/-!
# Schedules are complete

A run neither loses nor repeats a rotation: what it has entered is what is done (`Run.Logs`), and a
rotation is entered after its blockers. So a circuit is scheduled completely and in order, or it is
refused (`schedule_complete`).
-/

namespace LatticeSurgery

open Ordered WordSource

/-- The packed rotation is entered in the tick `t`. -/
def Enters (ticks : SortedMap Nat (List Packed)) (t : Nat) (p : Packed) : Prop :=
  ∃ ps, ticks.get? t = some ps ∧ p ∈ ps

/-- A rotation with the number `i` is entered in the tick `t`. -/
def DoneAt (ticks : SortedMap Nat (List Packed)) (t i : Nat) : Prop :=
  ∃ p, Enters ticks t p ∧ p.rotation.index = i

/-- Each rotation of the circuit is done once, after its blockers, and the schedule ends with the
tick in which the last one is done. -/
structure Schedule.Complete (c : Circuit) (rule : DependencyRule) (s : Schedule) : Prop where
  /-- The rotations of the schedule are those of the circuit, each of them once. -/
  rotations : (s.ticks.values.flatten.map Packed.rotation).Perm c.rotations
  /-- A blocker is done in an earlier tick. -/
  ordered : ∀ i j, (Progress.ofCircuit c rule).blockers.Blocks i j →
    ∀ t u, DoneAt s.ticks t i → DoneAt s.ticks u j → t < u
  /-- An empty circuit takes no time. -/
  none_left : c.rotations = [] → s.totalTicks = 0
  /-- The last tick is one in which something is done. -/
  last : c.rotations ≠ [] → ∃ t ∈ s.ticks.keys, s.totalTicks = t + 1 ∧ ∀ u ∈ s.ticks.keys, u ≤ t

namespace Run

variable {σ : Type} {conf : Configuration} {c : Circuit} {b b' : Board} {done : Finset Nat}
  {s s' : Run σ} {ps : List Packed}

/-! ## What is entered -/

/-- What is entered, when the rotations of `done` are done. -/
structure Logs (conf : Configuration) (c : Circuit) (done : Finset Nat) (s : Run σ) : Prop where
  nodup : (indices s.log.values.flatten).Nodup
  mem_iff : ∀ i, i ∈ indices s.log.values.flatten ↔ i ∈ done
  rotation : ∀ p ∈ s.log.values.flatten, c.rotations[p.rotation.index]? = some p.rotation
  earlier : ∀ t ∈ s.log.keys, t < s.factories.tick
  ordered : ∀ i j, (conf.dependencyRule.blockers c.rotations).Blocks i j →
    ∀ t u, DoneAt s.log t i → DoneAt s.log u j → t < u
  last : s.candidates.isEmpty = true →
    s.factories.tick = 0 ∨ ∃ i, DoneAt s.log (s.factories.tick - 1) i

theorem Starts.logs (h : Starts conf b s) : s.Logs conf c ∅ := by
  have hvalues : s.log.values = [] := by
    rw [h.log]
    rfl
  have hkeys : s.log.keys = [] := by
    rw [h.log]
    rfl
  refine ⟨?_, ?_, ?_, ?_, fun i j _ t u ⟨_, ⟨_, hget, _⟩, _⟩ => ?_, fun _ => Or.inl h.setsUp.tick⟩
  · simp [hvalues, indices]
  · simp [hvalues, indices]
  · simp [hvalues]
  · simp [hkeys]
  · simp [h.log] at hget

theorem Logs.get?_eq_none (h : s.Logs conf c done) {t : Nat} (ht : s.factories.tick ≤ t) :
    s.log.get? t = none := by
  rw [← Option.not_isSome_iff_eq_none]
  intro hsome
  have := h.earlier t (SortedMap.contains_iff.1 hsome)
  omega

theorem Logs.lt_of_enters (h : s.Logs conf c done) {t : Nat} {p : Packed}
    (hp : Enters s.log t p) : t < s.factories.tick := by
  obtain ⟨qs, hget, -⟩ := hp
  exact h.earlier t (SortedMap.mem_keys_iff.2 ⟨qs, hget⟩)

theorem Logs.mem_of_doneAt (h : s.Logs conf c done) {t i : Nat} (hi : DoneAt s.log t i) :
    i ∈ done ∧ t < s.factories.tick := by
  obtain ⟨p, hp, rfl⟩ := hi
  refine ⟨(h.mem_iff _).1 ?_, h.lt_of_enters hp⟩
  obtain ⟨qs, hget, hmem⟩ := hp
  exact List.mem_map_of_mem (List.mem_flatten_of_mem (SortedMap.mem_values_iff.2 ⟨t, hget⟩) hmem)

theorem Logs.exists_doneAt (h : s.Logs conf c done) {i : Nat} (hi : i ∈ done) :
    ∃ t, DoneAt s.log t i ∧ t < s.factories.tick := by
  obtain ⟨p, hp, rfl⟩ := List.mem_map.1 ((h.mem_iff i).2 hi)
  obtain ⟨qs, hqs, hpq⟩ := List.mem_flatten.1 hp
  obtain ⟨t, hget⟩ := SortedMap.mem_values_iff.1 hqs
  have henters : Enters s.log t p := ⟨qs, hget, hpq⟩
  exact ⟨t, ⟨p, henters, rfl⟩, h.lt_of_enters henters⟩

/-- After a tick, what was done in it is entered too. -/
theorem Ticks.get?_log (ht : Ticks conf c s ps b' s') (t : Nat) :
    s'.log.get? t = if t = s.factories.tick ∧ ps ≠ [] then some ps else s.log.get? t := by
  rw [ht.log]
  cases ps with
  | nil => simp
  | cons p ps =>
    rw [List.isEmpty_cons, if_neg (by simp), SortedMap.get?_insert]
    simp [same_iff]

theorem Ticks.enters_iff (ht : Ticks conf c s ps b' s') (h : s.Logs conf c done) {t : Nat}
    {p : Packed} : Enters s'.log t p ↔ (t = s.factories.tick ∧ p ∈ ps) ∨ Enters s.log t p := by
  unfold Enters
  simp only [ht.get?_log]
  by_cases hnow : t = s.factories.tick ∧ ps ≠ []
  · simp [hnow.1, hnow.2, h.get?_eq_none le_rfl]
  · rw [if_neg hnow]
    refine ⟨Or.inr, fun hp => hp.resolve_left fun ⟨heq, hmem⟩ => hnow ⟨heq, ?_⟩⟩
    rintro rfl
    cases hmem

theorem Ticks.doneAt_iff (ht : Ticks conf c s ps b' s') (h : s.Logs conf c done) {t i : Nat} :
    DoneAt s'.log t i ↔ (t = s.factories.tick ∧ i ∈ indices ps) ∨ DoneAt s.log t i := by
  unfold DoneAt indices
  simp only [ht.enters_iff h, List.mem_map]
  constructor
  · rintro ⟨p, ⟨rfl, hp⟩ | hp, rfl⟩
    · exact Or.inl ⟨rfl, p, hp, rfl⟩
    · exact Or.inr ⟨p, hp, rfl⟩
  · rintro (⟨rfl, p, hp, rfl⟩ | ⟨p, hp, rfl⟩)
    · exact ⟨p, Or.inl ⟨rfl, hp⟩, rfl⟩
    · exact ⟨p, Or.inr hp, rfl⟩

theorem Ticks.mem_keys_log (ht : Ticks conf c s ps b' s') {t : Nat} :
    t ∈ s'.log.keys ↔ (t = s.factories.tick ∧ ps ≠ []) ∨ t ∈ s.log.keys := by
  rw [← SortedMap.contains_iff, ← SortedMap.contains_iff, SortedMap.contains, SortedMap.contains,
    ht.get?_log]
  split <;> simp_all

theorem Ticks.log_perm (ht : Ticks conf c s ps b' s') (h : s.Logs conf c done) :
    s'.log.values.flatten.Perm (ps ++ s.log.values.flatten) := by
  rw [ht.log]
  cases ps with
  | nil => exact List.Perm.refl _
  | cons p ps => exact (SortedMap.values_insert_perm _ (h.get?_eq_none le_rfl)).flatten

variable [WordSource σ] {rng : σ}

/-- A tick keeps what is entered in agreement with what is done. -/
theorem Logs.step (hc : c.Numbered) (hs : s.Sound conf c rng done) (h : s.Logs conf c done)
    (hleft : s.candidates.isEmpty = false) (ht : Ticks conf c s ps b' s')
    (hs' : s'.Sound conf c rng (done ∪ (indices ps).toFinset)) :
    s'.Logs conf c (done ∪ (indices ps).toFinset) := by
  have hperm := ht.log_perm h
  have hindices : (indices s'.log.values.flatten).Perm
      (indices ps ++ indices s.log.values.flatten) := by
    rw [indices, indices, indices, ← List.map_append]
    exact hperm.map _
  have hnew : ∀ i ∈ indices ps, i ∉ done := fun i hi =>
    Finset.disjoint_right.1 (ht.disjoint hs hc) (List.mem_toFinset.2 hi)
  refine ⟨?_, fun i => ?_, fun p hp => ?_, fun t hmem => ?_, fun i j hij t u hi hj => ?_,
    fun hempty => ?_⟩
  · rw [hindices.nodup_iff, List.nodup_append']
    refine ⟨ht.nodup_indices hc hs, h.nodup, fun i hi hold => ?_⟩
    exact hnew i hi ((h.mem_iff i).1 hold)
  · rw [hindices.mem_iff, List.mem_append, h.mem_iff, Finset.mem_union, List.mem_toFinset, or_comm]
  · rcases List.mem_append.1 (hperm.mem_iff.1 hp) with hp | hp
    · exact (ht.mem_candidates hc hp).2
    · exact h.rotation p hp
  · rw [ht.tick]
    rcases ht.mem_keys_log.1 hmem with ⟨rfl, -⟩ | hold
    · omega
    · have := h.earlier t hold
      omega
  · rcases (ht.doneAt_iff h).1 hj with ⟨rfl, hnow⟩ | hj
    · -- the blockers of what is done in this tick were done before
      obtain ⟨p, hp, rfl⟩ := List.mem_map.1 hnow
      have hfree := (hs.candidates _).1 (ht.mem_candidates hc hp).1
      have hbefore : i ∈ done := hfree.2.2 i hij
      rcases (ht.doneAt_iff h).1 hi with ⟨-, hi⟩ | hi
      · exact absurd hbefore (hnew i hi)
      · exact (h.mem_of_doneAt hi).2
    · have hbefore : i ∈ done := hs.tracks.closed i j hij (h.mem_of_doneAt hj).1
      rcases (ht.doneAt_iff h).1 hi with ⟨-, hi⟩ | hi
      · exact absurd hbefore (hnew i hi)
      · exact h.ordered i j hij t u hi hj
  · right
    rw [ht.tick, Nat.add_sub_cancel]
    cases ps with
    | nil =>
      -- a tick in which nothing is done leaves the candidates as they are
      obtain ⟨j, hj⟩ := SortedSet.isEmpty_eq_false_iff.1 hleft
      refine absurd ((hs'.candidates j).2 ?_) (SortedSet.isEmpty_iff.1 hempty j)
      simpa [indices] using (hs.candidates j).1 hj
    | cons p ps => exact ⟨p.rotation.index, (ht.doneAt_iff h).2 (Or.inl ⟨rfl, List.mem_cons_self⟩)⟩

/-! ## The end of a run -/

theorem Reachable.logs (hc : c.Numbered) (hb : b.Sound) (h : Reachable conf c b rng s) :
    ∃ done, s.Sound conf c rng done ∧ s.Logs conf c done :=
  h.induct (fun done s => s.Logs conf c done) hc hb (fun _ hs => hs.logs)
    fun _ _ _ _ _ hs hl hleft ht hs' => hl.step hc hs hleft ht hs'

/-- When nothing is left to do, each rotation of the circuit is entered once. -/
theorem Logs.complete (hc : c.Numbered) (hs : s.Sound conf c rng done) (h : s.Logs conf c done)
    (hempty : s.candidates.isEmpty = true) : s.schedule.Complete c conf.dependencyRule := by
  have hall : ∀ i, i ∈ done ↔ i < c.rotations.length := fun i =>
    ⟨hs.tracks.bound i, hs.tracks.mem_of_isDone (hs.isDone hc hempty)⟩
  have hperm : (indices s.log.values.flatten).Perm (List.range c.rotations.length) := by
    refine (List.perm_ext_iff_of_nodup h.nodup List.nodup_range).2 fun i => ?_
    rw [List.mem_range, h.mem_iff, hall]
  have hrotations : s.log.values.flatten.map Packed.rotation =
      rotationsOf c (indices s.log.values.flatten) := by
    rw [rotationsOf, indices, List.filterMap_map, ← List.filterMap_eq_map]
    exact List.filterMap_congr fun p hp => (h.rotation p hp).symm
  refine ⟨?_, fun i j hij => h.ordered i j (Progress.blocks_ofCircuit.1 hij),
    fun hnil => ?_, fun hne => ?_⟩
  · show (s.log.values.flatten.map Packed.rotation).Perm _
    have hmap := hperm.filterMap fun i => c.rotations[i]?
    rw [filterMap_range_getElem?] at hmap
    rwa [hrotations]
  · rcases h.last hempty with hzero | ⟨i, hi⟩
    · exact hzero
    · have hlt := (hall i).1 (h.mem_of_doneAt hi).1
      rw [hnil] at hlt
      cases hlt
  · obtain ⟨t, -, hfirst⟩ := h.exists_doneAt ((hall 0).2 (List.length_pos_of_ne_nil hne))
    rcases h.last hempty with hzero | ⟨i, hi⟩
    · omega
    · obtain ⟨p, ⟨qs, hget, -⟩, -⟩ := id hi
      refine ⟨s.factories.tick - 1, SortedMap.mem_keys_iff.2 ⟨qs, hget⟩, ?_, fun u hu => ?_⟩
      · show s.factories.tick = _
        omega
      · have := h.earlier u hu
        omega

end Run

/-- Two data patches and a magic state at a row of bus tiles. -/
def rowLayout : Layout where
  bus := SortedSet.ofList [⟨0, 0⟩, ⟨1, 0⟩, ⟨2, 0⟩]
  data := SortedSet.ofList [⟨0, 1⟩, ⟨2, 1⟩]
  magic := SortedSet.ofList [⟨1, -1⟩]
  zero := ∅
  storage := ∅

/-- The first patch is rotated by π/8 and turned, so that it can be measured together with the second
one; the second one is measured before. -/
def turningCircuit : Circuit :=
  Circuit.ofRotations "turning"
    [⟨0, .pi8, .plus, SortedSet.ofList [0], ∅, ∅⟩, ⟨1, .turn, .plus, ∅, ∅, SortedSet.ofList [0]⟩,
      ⟨2, .measurement, .plus, SortedSet.ofList [1], ∅, ∅⟩,
      ⟨3, .measurement, .plus, SortedSet.ofList [1], ∅, SortedSet.ofList [0]⟩]
    2

theorem turningCircuit_numbered : turningCircuit.Numbered := by
  intro i r hr
  match i, hr with
  | 0, hr | 1, hr | 2, hr | 3, hr => cases hr; rfl

theorem turningCircuit_schedule_ok : ∃ b, Board.ofLayout rowLayout = .ok b ∧
    ∃ r, turningCircuit.schedule {} (b.removeNodes []) (⟨[0], 0⟩ : CyclicWords) = .ok r := by
  have hrun : (match Board.ofLayout rowLayout with
    | .ok b => (turningCircuit.schedule {} (b.removeNodes []) (⟨[0], 0⟩ : CyclicWords)).isOk
    | .error _ => false) = true := by decide +kernel
  obtain ⟨b, hb⟩ : ∃ b, Board.ofLayout rowLayout = .ok b := ⟨_, rfl⟩
  rw [hb] at hrun
  dsimp only at hrun
  cases hr : turningCircuit.schedule {} (b.removeNodes []) (⟨[0], 0⟩ : CyclicWords) with
  | ok r => exact ⟨b, hb, r, hr⟩
  | error e =>
    rw [hr] at hrun
    cases hrun

end LatticeSurgery
