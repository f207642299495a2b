import LatticeSurgery.Placement.Policies
import LatticeSurgery.Proofs.Board.Facing
import LatticeSurgery.Proofs.Placement.Cluster

/-!
# Every policy places every qubit

Whatever policy is chosen, each qubit of a circuit gets a patch of its own next to the bus
(`choosePatches_placesAll`). On the board that is left both boundaries of these patches are there.
-/

namespace LatticeSurgery

open Ordered LatticeSurgery.Graph WordSource

namespace Placement

variable {σ : Type} [WordSource σ] {P : σ → Prop} {s s' : σ} {c : Circuit} {b : Board}
  {facings : SortedMap Nat Facing} {m : SortedMap Nat Nat} {n : Nat}

/-! ## Patches that are given -/

theorem manualFlaw?_none {ps : List Nat} {seen : SortedSet Nat}
    (h : manualFlaw? facings ps seen = none) :
    (∀ p ∈ ps, p ∈ facings.keys ∧ p ∉ seen) ∧ ps.Nodup := by
  induction ps generalizing seen with
  | nil => exact ⟨fun p hp => absurd hp List.not_mem_nil, List.nodup_nil⟩
  | cons p ps ih =>
    unfold manualFlaw? at h
    split at h
    · cases h
    · next husable =>
      split at h
      · cases h
      · next hseen =>
        rw [Bool.not_eq_true', Bool.not_eq_false, SortedMap.contains_iff] at husable
        rw [SortedSet.contains_iff] at hseen
        obtain ⟨hall, hnodup⟩ := ih h
        refine ⟨List.forall_mem_cons.2 ⟨⟨husable, hseen⟩, fun p' hp' => ?_⟩,
          List.nodup_cons.2 ⟨fun hp => ?_, hnodup⟩⟩
        · exact ⟨(hall p' hp').1, fun hp => (hall p' hp').2 (SortedSet.mem_insert.2 (Or.inr hp))⟩
        · exact (hall p hp).2 (SortedSet.mem_insert.2 (Or.inl rfl))

theorem manual_placesAll {given : Option (List Nat)} (h : manual facings n given = .ok m) :
    PlacesAll facings.keys n m := by
  unfold manual at h
  split at h
  · cases h
  · next ps =>
    split at h
    · cases h
    · next hlength =>
      split at h
      · cases h
      · next hflaw =>
        cases h
        obtain ⟨hall, hnodup⟩ := manualFlaw?_none hflaw
        rw [ne_eq, not_not] at hlength
        exact placesAll_zip (List.Perm.refl _) hnodup (fun p hp => (hall p hp).1) hlength.ge

/-! ## Crossings -/

/-- The corners that are left and the other patches are free, and there are enough of them. -/
theorem Places.giving_left (hm : Places (corners facings) n m) (hn : n ≤ facings.size) {qs : List Nat}
    (hqs : qs.Perm (List.range n)) :
    Giving facings.keys n m
      ((corners facings).filter (fun p => !m.values.contains p) ++ sides facings) ∧
    (qs.filter fun q => !m.contains q).length ≤
      ((corners facings).filter (fun p => !m.values.contains p) ++ sides facings).length := by
  have hperm := corners_append_sides_perm facings
  have hnodup : (corners facings ++ sides facings).Nodup := hperm.nodup_iff.2 (nodup_keys facings)
  obtain ⟨hcorners, -, hdisjoint⟩ := List.nodup_append.1 hnodup
  have hkeys : ∀ p ∈ corners facings ++ sides facings, p ∈ facings.keys := fun p hp =>
    hperm.mem_iff.1 hp
  refine ⟨⟨⟨hm.lt, fun q p h => hkeys p (List.mem_append_left _ (hm.mem q p h)), hm.injective⟩,
    hnodup.sublist (List.filter_sublist.append_right _), fun p hp => hkeys p
      ((List.filter_sublist.append_right _).subset hp), fun q p hq hp => ?_⟩, ?_⟩
  · rcases List.mem_append.1 hp with hp | hp
    · have hvalue : p ∈ m.values := SortedMap.mem_values_iff.2 ⟨q, hq⟩
      rw [List.mem_filter, Bool.not_eq_true', ← Bool.not_eq_true, List.contains_iff_mem] at hp
      exact hp.2 hvalue
    · exact hdisjoint p (hm.mem q p hq) p hp rfl
  · -- at most as many corners are used as qubits have patches
    have hused : ((corners facings).filter fun p => m.values.contains p).length ≤ m.entries.length := by
      refine (List.Nodup.subperm (hcorners.filter _) fun p hp => ?_).length_le.trans_eq
        (List.length_map Prod.snd)
      exact List.contains_iff_mem.1 (List.mem_filter.1 hp).2
    have hplaced : m.entries.length ≤ (qs.filter fun q => m.contains q).length := by
      refine (List.length_map Prod.fst).ge.trans
        (List.Nodup.subperm (nodup_keys m) fun q hq => ?_).length_le
      obtain ⟨p, hp⟩ := SortedMap.mem_keys_iff.1 hq
      exact List.mem_filter.2 ⟨hqs.mem_iff.2 (List.mem_range.2 (hm.lt q p hp)),
        SortedMap.contains_iff.2 hq⟩
    have hqubits := List.length_eq_length_filter_add (l := qs) fun q => m.contains q
    have hpatches := List.length_eq_length_filter_add (l := corners facings) fun p =>
      m.values.contains p
    have hall := hperm.length_eq
    have hsize := length_keys facings
    rw [hqs.length_eq, List.length_range] at hqubits
    rw [List.length_append] at hall ⊢
    omega

/-- The patches given out around the crossings are corners. -/
theorem seedCrossings_places (hP : Ranged P) (hs : P s)
    (hc : ∀ r ∈ c.rotations, ∀ q ∈ r.activeQubits, q < c.numQubits) {rounds : Nat} {cl : Clustering}
    (h : seedCrossings (CircuitStats.ofCircuit c) rounds (crossings b (corners b.facings))
      ⟨∅, (CircuitStats.ofCircuit c).byFlips⟩ s = .ok (cl, s')) :
    P s' ∧ Places (corners b.facings) c.numQubits cl.placed := by
  have hlt : ∀ q ∈ (CircuitStats.ofCircuit c).byFlips, q < c.numQubits := fun _ =>
    CircuitStats.lt_of_mem_byFlips hc
  have hcrossings : (crossings b (corners b.facings)).flatten.Perm (corners b.facings) :=
    crossingsIn_perm _ le_rfl
  have hcorners : (corners b.facings).Nodup :=
    ((corners_append_sides_perm b.facings).nodup_iff.2 (nodup_keys _)).of_append_left
  exact seedCrossings_spec hP hs hlt (c := ⟨∅, _⟩)
    ⟨giving_empty (hcrossings.nodup_iff.2 hcorners) fun p hp => hcrossings.mem_iff.1 hp,
      fun q hq => ⟨hlt q hq, rfl⟩⟩ h

theorem cluster_placesAll (hP : Ranged P) (hs : P s)
    (hc : ∀ r ∈ c.rotations, ∀ q ∈ r.activeQubits, q < c.numQubits) (hn : c.numQubits ≤ b.facings.size)
    (h : cluster (CircuitStats.ofCircuit c) b s = .ok (m, s')) :
    PlacesAll b.facings.keys c.numQubits m := by
  have hflips := CircuitStats.byFlips_ofCircuit_perm hc
  obtain ⟨⟨cl, t⟩, hseeds, h⟩ := exists_of_bind_eq_ok h
  obtain ⟨ht, hplaces⟩ := seedCrossings_places hP hs hc hseeds
  obtain ⟨hgiving, hcount⟩ := hplaces.giving_left hn hflips
  obtain ⟨hm, -, htotal⟩ := placeRest_spec hP ht (fun _ => CircuitStats.lt_of_mem_byFlips hc)
    (hflips.nodup_iff.2 List.nodup_range) hgiving hcount h
  refine ⟨hm, fun q hq => Option.isSome_iff_exists.1 (htotal q ?_)⟩
  exact hflips.mem_iff.2 (List.mem_range.2 hq)

/-! ## All policies -/

/-- The patches of any policy are different patches next to the bus, one for each qubit. -/
theorem choosePatches_placesAll (hP : Ranged P) (hs : P s)
    (hc : ∀ r ∈ c.rotations, ∀ q ∈ r.activeQubits, q < c.numQubits)
    (hn : c.numQubits ≤ b.facings.size) {policy : PlacementPolicy} {given : Option (List Nat)}
    (h : choosePatches c b policy given s = .ok (m, s')) :
    PlacesAll b.facings.keys c.numQubits m := by
  have hzip : ∀ qs ps : List Nat, qs.Perm (List.range c.numQubits) → ps.Perm b.facings.keys →
      PlacesAll b.facings.keys c.numQubits (SortedMap.ofList (qs.zip ps)) := fun qs ps hqs hps =>
    placesAll_zip hqs (hps.nodup_iff.2 (nodup_keys _)) (fun p hp => hps.mem_iff.1 hp)
      (by rw [hps.length_eq, length_keys]; exact hn)
  cases policy with
  | manual =>
    obtain ⟨m', hm, h⟩ := exists_of_bind_eq_ok h
    cases h
    exact manual_placesAll (eq_ok_of_orRefuse hm)
  | random =>
    obtain ⟨⟨ps, t⟩, hps, h⟩ := exists_of_bind_eq_ok h
    cases h
    exact hzip _ ps (List.Perm.refl _) (Draw.shuffle_perm (eq_ok_of_orHalt hps))
  | randomCorner =>
    obtain ⟨⟨ps, t⟩, hps, h⟩ := exists_of_bind_eq_ok h
    obtain ⟨⟨ps', t'⟩, hps', h⟩ := exists_of_bind_eq_ok h
    cases h
    exact hzip _ _ (CircuitStats.byFlips_ofCircuit_perm hc)
      (((Draw.shuffle_perm (eq_ok_of_orHalt hps)).append (Draw.shuffle_perm (eq_ok_of_orHalt hps'))).trans
        (corners_append_sides_perm _))
  | clusterCrossing => exact cluster_placesAll hP hs hc hn (eq_ok_of_orHalt h)
  | affinity =>
    cases h
    exact hzip _ _ (List.Perm.refl _) (List.Perm.refl _)

end Placement

section ChoosePlacement

variable {σ : Type} [WordSource σ] {P : σ → Prop} {s s' : σ} {c c' : Circuit} {b b' : Board}
  {policy : PlacementPolicy} {given : Option (List Nat)} {placement : Placement}

/-- A circuit is placed on the patches that the policy gives, if there are enough patches. -/
theorem Circuit.exists_choosePatches
    (h : c.choosePlacement b policy given s = .ok (placement, c', b', s')) :
    c.numQubits ≤ b.facings.size ∧
      ∃ m, Placement.choosePatches c b policy given s = .ok (m, s') ∧
        (placement, c', b') = Placement.apply c b m := by
  unfold choosePlacement at h
  dsimp only at h
  split at h
  · cases h
  · next hn =>
    obtain ⟨⟨m, t⟩, hm, h⟩ := exists_of_bind_eq_ok h
    cases h
    exact ⟨Nat.le_of_not_lt hn, m, eq_ok_of_mapError hm, rfl⟩

/-- What a policy makes of a circuit and of the board of a layout. -/
theorem Circuit.choosePlacement_spec (hP : Ranged P) (hs : P s)
    (hc : ∀ r ∈ c.rotations, ∀ q ∈ r.activeQubits, q < c.numQubits)
    (h : c.choosePlacement b policy given s = .ok (placement, c', b', s')) :
    Placement.PlacesAll b.facings.keys c.numQubits placement.patches ∧
      c' = c.place placement.patches ∧
      b' = b.removeNodes (Placement.unusedNodes b (SortedSet.ofList placement.patches.values)) := by
  obtain ⟨hn, m, hm, heq⟩ := exists_choosePatches h
  cases heq
  exact ⟨Placement.choosePatches_placesAll hP hs hc hn hm, rfl, rfl⟩

end ChoosePlacement

namespace Board

variable {b : Board} {id : Nat}

/-- Both boundaries of a patch next to the bus are on the board of a layout. -/
theorem hasNode_of_mem_facings {l : Layout} (hb : ofLayout l = .ok b) (h : id ∈ b.facings.keys)
    (basis : Basis) : b.graph.hasNode (.qubit id basis) = true := by
  obtain ⟨f, hf⟩ := SortedMap.mem_keys_iff.1 h
  obtain ⟨basis', hshows⟩ := f.exists_shows
  rw [get?_facings] at hf
  obtain ⟨m, hm⟩ := List.exists_mem_of_length_pos ((shows_of_facing? hf basis').1 hshows)
  have hnode := hasNode_of_mem_neighbors hm
  have hpaired := (laid_ofLayout hb).paired id
  cases basis <;> cases basis' <;> first | exact hnode | exact hpaired.1 hnode | exact hpaired.2 hnode

/-- The patches that are used keep their boundaries. -/
theorem hasNode_removeNodes_unusedNodes {used : SortedSet Nat} {basis : Basis}
    (hnode : b.graph.hasNode (.qubit id basis) = true) (hused : id ∈ used) :
    (b.removeNodes (Placement.unusedNodes b used)).graph.hasNode (.qubit id basis) = true := by
  refine hasNode_removeNodes.2 ⟨hnode, fun hmem => ?_⟩
  have hnot := (List.mem_filter.1 hmem).2
  rw [Bool.not_eq_true', ← Bool.not_eq_true, SortedSet.contains_iff] at hnot
  exact hnot hused

end Board

end LatticeSurgery
