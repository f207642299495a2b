import LatticeSurgery.Proofs.Schedule.Corners
import LatticeSurgery.Proofs.Schedule.Orientation

/-!
# Measurements of a single boundary

A measurement of a single boundary needs no state and no way to one. It is due when its blockers are done
and its patch is not busy (`Run.Due`), and the packer then packs it, whatever else there is to pack. A
packing that is used again may lack it, though, because its patch was busy when that packing was made
(`Run.PassesOver`). So such a measurement is done in the first tick in which it is due and not passed over
(`lone_measurement_done_when_due`).
-/

namespace LatticeSurgery

open Ordered WordSource

/-- A measurement of a single boundary. -/
def Rotation.Lone (r : Rotation) : Prop := r.kind = .measurement ∧ r.activeNodes.size = 1

theorem Rotation.Lone.exists_node {r : Rotation} (h : r.Lone) : ∃ n, r.activeNodes.toList = [n] :=
  List.length_eq_one_iff.1 h.2

theorem Rotation.Lone.exists_qubit {r : Rotation} (h : r.Lone) : ∃ q, q ∈ r.activeQubits := by
  obtain ⟨n, hn⟩ := h.exists_node
  have hmem : n ∈ r.activeNodes := by
    rw [SortedSet.mem_def, hn]
    exact List.mem_singleton.2 rfl
  exact ⟨_, Rotation.id_mem_activeQubits hmem⟩

/-- A measurement that was fitted acts on free patches. -/
theorem Packed.Refits.freeOn {b : Board} {p q : Packed} (hq : PackingCache.Kept p.rotation.key q)
    (h : Refits b q p.rotation p) (hk : p.rotation.kind = .measurement) :
    Packer.FreeOn b p.rotation := by
  intro id hid basis
  obtain ⟨hkind, hqubits⟩ := Rotation.key_eq_iff.1 hq.key
  obtain ⟨basis', hmem⟩ := hq.serves.exists_boundary (by rw [hkind, hk]; simp) (hqubits ▸ hid)
  exact h.free id basis' hmem basis

namespace Run

variable {σ : Type} [WordSource σ] {conf : Configuration} {c : Circuit} {b : Board} {rng : σ}
  {done : Finset Nat} {s s' : Run σ} {r : Rotation} {ps : List Packed}

/-- The rotation can be done as far as its blockers and its patches are concerned: it is not done yet, its
blockers were done in earlier ticks, and no boundary of its patches is busy. -/
def Due (conf : Configuration) (c : Circuit) (s : Run σ) (r : Rotation) : Prop :=
  s.Unblocked conf c r.index ∧ Packer.FreeOn s.board r

/-- An earlier packing is used again that has no rotation of this kind on these patches. -/
def PassesOver (conf : Configuration) (c : Circuit) (s : Run σ) (r : Rotation) : Prop :=
  s.reusable conf c ≠ [] ∧ ∀ p ∈ s.reusable conf c, p.rotation.key ≠ r.key

section Tick

variable (hc : c.Numbered) (hs : s.Sound conf c rng done)

include hc

omit [WordSource σ] in
theorem mem_offered_iff (hr : r ∈ c.rotations) :
    r ∈ offered conf c s ↔ r.index ∈ s.candidates := by
  refine ⟨fun hmem => (mem_offered hc hmem).1, fun hmem => ?_⟩
  obtain ⟨i, hi⟩ := List.mem_iff_getElem?.1 hr
  refine (arrange_perm conf.packingOrder _).mem_iff.2 (List.mem_filterMap.2 ⟨r.index, hmem, ?_⟩)
  rw [hc i r hi, hi]

include hs

/-- Of the rotations that are offered, one that shares its kind and its patches with a measurement is that
measurement. -/
theorem Sound.eq_of_key (hr : r ∈ offered conf c s) (hlone : r.Lone) {r' : Rotation}
    (hr' : r' ∈ offered conf c s) (hkey : r'.key = r.key) : r' = r := by
  obtain ⟨hmem, hget⟩ := mem_offered hc hr
  obtain ⟨hmem', hget'⟩ := mem_offered hc hr'
  by_contra hne
  have hindex : r'.index ≠ r.index := fun heq => by
    rw [heq, hget] at hget'
    exact hne (Option.some.inj hget').symm
  have hapart : r'.RigidApart r := hs.tracks.rigidApart hc hindex
    ((hs.candidates _).1 hmem') ((hs.candidates _).1 hmem) hget' hget
  have hrigid : r.isRigid = true := by simp [Rotation.isRigid, hlone.1]
  have hdisjoint := hapart (Or.inr hrigid)
  rw [(Rotation.key_eq_iff.1 hkey).2] at hdisjoint
  obtain ⟨q, hq⟩ := hlone.exists_qubit
  exact SortedSet.disjoint_iff.1 hdisjoint q hq hq

/-- In a tick, a measurement of a single boundary is done if and only if it is offered, its patch is free
and it is not passed over. -/
theorem Assigns.lone_iff (h : Assigns conf c s ps) (hr : r ∈ c.rotations) (hlone : r.Lone) :
    (∃ p ∈ ps, p.rotation = r) ↔
      r ∈ offered conf c s ∧ Packer.FreeOn s.board r ∧ ¬ s.PassesOver conf c r := by
  cases h with
  | waits hpi8 =>
    have hnot : r ∉ offered conf c s := fun hmem => by
      have hk := of_decide_eq_true (List.all_eq_true.1 hpi8 r hmem)
      rw [hlone.1] at hk
      cases hk
    simp [hnot]
  | packs hnone hpack =>
    have hresult := (Packer.pack_ends hs.packer hs.board _ s.rng _).of_ok hpack
    constructor
    · rintro ⟨p, hp, rfl⟩
      exact ⟨hresult.packs.order.subset (List.mem_map_of_mem hp),
        Packer.freeOn_of_pack hs.packer hs.board hpack hp, fun hpasses => hpasses.1 hnone⟩
    · rintro ⟨hmem, hfree, -⟩
      obtain ⟨n, hn⟩ := hlone.exists_node
      exact Packer.exists_packed_of_lone hs.packer hs.board hpack hmem hlone.1 hn hfree
  | reuses hsome =>
    obtain ⟨hfound, hsub, -⟩ := PackingCache.find_spec hs.cache (PackingCache.key
      (s.board.withStatus .magic .ready ∪ s.board.withStatus .storage .ready) (offered conf c s))
      (offered conf c s) s.board
    have hoffered : ∀ p ∈ s.reusable conf c, p.rotation ∈ offered conf c s := fun p hp =>
      hsub.subset (List.mem_map_of_mem hp)
    constructor
    · rintro ⟨p, hp, rfl⟩
      obtain ⟨-, -, q, -, hq, hrefits⟩ := hfound p hp
      exact ⟨hoffered p hp, hrefits.freeOn hq hlone.1, fun hpasses => hpasses.2 p hp rfl⟩
    · rintro ⟨hmem, -, hnot⟩
      by_contra hnone
      refine hnot ⟨hsome, fun p hp hkey => hnone ⟨p, hp, ?_⟩⟩
      exact hs.eq_of_key hc hmem hlone (hoffered p hp) hkey

end Tick

section Run

variable (hc : c.Numbered) (hb : b.Sound) (hr : r ∈ c.rotations) (hlone : r.Lone)

include hc hb hr hlone

/-- A tick of a run does a measurement of a single boundary if and only if it is due and not passed
over. -/
theorem Reachable.lone_iff (h : Reachable conf c b rng s) {f : Filled σ}
    (hfill : s.fill conf c = .ok f) : (∃ p ∈ f.assigned, p.rotation = r) ↔
      s.Due conf c r ∧ ¬ s.PassesOver conf c r := by
  obtain ⟨done, hs⟩ := h.sound hc hb
  obtain ⟨i, hi⟩ := List.mem_iff_getElem?.1 hr
  have hlt : r.index < c.rotations.length := by
    rw [hc i r hi]
    exact (List.getElem?_eq_some_iff.1 hi).1
  rw [(assigns_of_fill hfill).lone_iff hc hs hr hlone, mem_offered_iff hc hr,
    h.mem_candidates_iff hc hb hlt, Due, and_assoc]

/-- A measurement of a single boundary that is entered was due in its tick and not passed over, and
whenever it was due before, it was passed over. -/
theorem Reachable.lone_entered (h : Reachable conf c b rng s) {t : Nat}
    (hentered : DoneAt s.log t r.index) (h' : Reachable conf c b rng s') :
    (s'.factories.tick = t → s'.Due conf c r ∧ ¬ s'.PassesOver conf c r) ∧
      (s'.factories.tick < t → s'.Due conf c r → s'.PassesOver conf c r) := by
  obtain ⟨p, ⟨ps, hget, hp⟩, hindex⟩ := hentered
  obtain ⟨s₀, f, h₀, rfl, hfill, rfl⟩ := h.exists_fill_of_log hc hb hget
  obtain ⟨done, hs₀⟩ := h₀.sound hc hb
  have hrotation : p.rotation = r := by
    obtain ⟨i, hi⟩ := List.mem_iff_getElem?.1 hr
    have hmem := ((fill_ends hs₀).of_ok hfill).packs.order.subset (List.mem_map_of_mem hp)
    have hget' := (mem_offered hc hmem).2
    rw [hindex, hc i r hi, hi] at hget'
    exact (Option.some.inj hget').symm
  have hdone := (h₀.lone_iff hc hb hr hlone hfill).1 ⟨p, hp, hrotation⟩
  refine ⟨fun hnow => ?_, fun hbefore hdue => ?_⟩
  · obtain rfl := h'.eq_of_tick hc hb h₀ hnow
    exact hdone
  · -- otherwise it would have been done before
    by_contra hnot
    obtain ⟨f', hfill', henters⟩ := h'.exists_fill_of_lt hc hb h₀ hbefore
    obtain ⟨p', hp', hrotation'⟩ := (h'.lone_iff hc hb hr hlone hfill').2 ⟨hdue, hnot⟩
    exact hdone.1.1.left _ ⟨p', henters p' hp', by rw [hrotation']⟩

end Run

end Run

/-- On a board of a layout, parts of which may be left unused, a tick does a measurement of a single
boundary exactly when it is due and no earlier packing without it is used again. A schedule has the
measurement in the first such tick. -/
theorem lone_measurement_done_when_due {σ : Type} [WordSource σ] (rng : σ) {l : Layout} {b : Board}
    (hb : Board.ofLayout l = .ok b) (unused : List Node) {c : Circuit} (hc : c.Numbered)
    (conf : Configuration) {r : Rotation} (hr : r ∈ c.rotations) (hlone : r.Lone) :
    (∀ (s : Run σ) (f : Run.Filled σ), Run.Reachable conf c (b.removeNodes unused) rng s →
      s.fill conf c = .ok f →
        ((∃ p ∈ f.assigned, p.rotation = r) ↔ s.Due conf c r ∧ ¬ s.PassesOver conf c r)) ∧
    ∀ result, c.schedule conf (b.removeNodes unused) rng = .ok result →
      ∃ t, DoneAt result.1.ticks t r.index ∧
        ∀ s : Run σ, Run.Reachable conf c (b.removeNodes unused) rng s →
          (s.factories.tick = t → s.Due conf c r ∧ ¬ s.PassesOver conf c r) ∧
            (s.factories.tick < t → s.Due conf c r → s.PassesOver conf c r) := by
  have hunused := (Board.ofLayout_spec hb).1.removeNodes unused
  refine ⟨fun s f hs hfill => hs.lone_iff hc hunused hr hlone hfill, fun result hresult => ?_⟩
  obtain ⟨s', hs', hempty, rfl⟩ := (Circuit.schedule_ends hc hunused conf rng).of_ok hresult
  obtain ⟨done, hsound, hlogs⟩ := hs'.logs hc hunused
  have hcomplete := hlogs.complete hc hsound hempty
  obtain ⟨p, hp, rfl⟩ := List.mem_map.1 (hcomplete.rotations.mem_iff.2 hr)
  obtain ⟨ps, hps, hmem⟩ := List.mem_flatten.1 hp
  obtain ⟨t, hget⟩ := SortedMap.mem_values_iff.1 hps
  have hentered : DoneAt s'.log t p.rotation.index := ⟨p, ⟨ps, hget, hmem⟩, rfl⟩
  exact ⟨t, hentered, fun s hs => hs'.lone_entered hc hunused hr hlone hentered hs⟩

/-- The first patch of the row is turned and measured, and the second one is measured three times. -/
def remeasuringCircuit : Circuit :=
  Circuit.ofRotations "remeasuring"
    [⟨0, .turn, .plus, ∅, ∅, SortedSet.ofList [0]⟩,
      ⟨1, .measurement, .plus, ∅, ∅, SortedSet.ofList [0]⟩,
      ⟨2, .measurement, .plus, SortedSet.ofList [1], ∅, ∅⟩,
      ⟨3, .measurement, .plus, SortedSet.ofList [1], ∅, ∅⟩,
      ⟨4, .measurement, .plus, SortedSet.ofList [1], ∅, ∅⟩]
    2

theorem remeasuringCircuit_numbered : remeasuringCircuit.Numbered := by
  intro i r hr
  match i, hr with
  | 0, hr | 1, hr | 2, hr | 3, hr | 4, hr => cases hr; rfl

/-- The measurement of the patch that is turned. -/
def turnedMeasurement : Rotation := ⟨1, .measurement, .plus, ∅, ∅, SortedSet.ofList [0]⟩

theorem turnedMeasurement_lone : turnedMeasurement.Lone := by
  unfold Rotation.Lone
  decide

/-- The states in which the ticks begin when the patches of the row are measured and a turn takes two
ticks. -/
def remeasuringTicks : List (Run CyclicWords) :=
  match Board.ofLayout rowLayout with
  | .error _ => []
  | .ok b =>
    match Run.start { turnTicks := 2 } remeasuringCircuit (b.removeNodes []) ⟨[0], 0⟩ with
    | .error _ => []
    | .ok s => Run.tickStarts { turnTicks := 2 } remeasuringCircuit 4 s

/-- After the turn, the packing of the tick before is used again, in which the second patch alone was
measured, and the first patch has to wait. -/
theorem exists_due_not_done : ∃ (b : Board) (s : Run CyclicWords) (f : Run.Filled CyclicWords),
    Board.ofLayout rowLayout = .ok b ∧
      Run.Reachable { turnTicks := 2 } remeasuringCircuit (b.removeNodes [])
        (⟨[0], 0⟩ : CyclicWords) s ∧
        s.fill { turnTicks := 2 } remeasuringCircuit = .ok f ∧
          s.Due { turnTicks := 2 } remeasuringCircuit turnedMeasurement ∧
            ∀ p ∈ f.assigned, p.rotation ≠ turnedMeasurement := by
  have hrun : remeasuringTicks.any (fun s => s.candidates.contains 1 &&
      turnedMeasurement.activeQubits.disjoint s.board.busyQubits &&
        (s.fill { turnTicks := 2 } remeasuringCircuit).toOption.any fun f =>
          f.assigned.all fun p => decide (p.rotation ≠ turnedMeasurement)) = true := by
    decide +kernel
  obtain ⟨b, hb⟩ : ∃ b, Board.ofLayout rowLayout = .ok b := ⟨_, rfl⟩
  obtain ⟨s, hs, hrun⟩ := List.any_eq_true.1 hrun
  rw [Bool.and_eq_true, Bool.and_eq_true, SortedSet.contains_iff] at hrun
  obtain ⟨⟨hcandidate, hfree⟩, hfill⟩ := hrun
  obtain ⟨f, hf, hall⟩ := exists_of_any_toOption hfill
  have hreach : Run.Reachable { turnTicks := 2 } remeasuringCircuit (b.removeNodes [])
      (⟨[0], 0⟩ : CyclicWords) s := by
    unfold remeasuringTicks at hs
    rw [hb] at hs
    dsimp only at hs
    split at hs
    · cases hs
    · next s₀ hs₀ => exact (Run.Reachable.start hs₀).of_mem_tickStarts hs
  have hunused := (Board.ofLayout_spec hb).1.removeNodes []
  refine ⟨b, s, f, hb, hreach, hf, ⟨?_, Packer.freeOn_iff.2 hfree⟩, fun p hp => ?_⟩
  · exact (hreach.mem_candidates_iff remeasuringCircuit_numbered hunused (by decide)).1 hcandidate
  · exact of_decide_eq_true (List.all_eq_true.1 hall p hp)

/-- The measurement of the first patch is passed over. -/
theorem turnedMeasurement_passed_over : ∃ (b : Board) (s : Run CyclicWords),
    Board.ofLayout rowLayout = .ok b ∧
      Run.Reachable { turnTicks := 2 } remeasuringCircuit (b.removeNodes [])
        (⟨[0], 0⟩ : CyclicWords) s ∧
        s.Due { turnTicks := 2 } remeasuringCircuit turnedMeasurement ∧
          s.PassesOver { turnTicks := 2 } remeasuringCircuit turnedMeasurement := by
  obtain ⟨b, s, f, hb, hs, hf, hdue, hnone⟩ := exists_due_not_done
  obtain ⟨hticks, -⟩ := lone_measurement_done_when_due (⟨[0], 0⟩ : CyclicWords) hb []
    remeasuringCircuit_numbered { turnTicks := 2 } (r := turnedMeasurement) (by decide)
    turnedMeasurement_lone
  refine ⟨b, s, hb, hs, hdue, ?_⟩
  by_contra hnot
  obtain ⟨p, hp, hrotation⟩ := (hticks s f hs hf).2 ⟨hdue, hnot⟩
  exact hnone p hp hrotation

/-- A measurement of a single boundary may have to wait although it is due. -/
theorem exists_lone_measurement_waiting : ∃ (l : Layout) (c : Circuit) (conf : Configuration)
    (b : Board) (s : Run CyclicWords) (f : Run.Filled CyclicWords) (r : Rotation),
    c.Numbered ∧ Board.ofLayout l = .ok b ∧
      Run.Reachable conf c (b.removeNodes []) (⟨[0], 0⟩ : CyclicWords) s ∧
        s.fill conf c = .ok f ∧ r ∈ c.rotations ∧ r.Lone ∧ s.Due conf c r ∧
          ∀ p ∈ f.assigned, p.rotation ≠ r := by
  obtain ⟨b, s, f, hb, hs, hf, hdue, hnone⟩ := exists_due_not_done
  exact ⟨_, _, _, b, s, f, _, remeasuringCircuit_numbered, hb, hs, hf, by decide,
    turnedMeasurement_lone, hdue, hnone⟩

end LatticeSurgery
