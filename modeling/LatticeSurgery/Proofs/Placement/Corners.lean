import LatticeSurgery.Proofs.Placement.Outcome

/-!
# Who gets the corners

Two policies promise that corners are not wasted: as long as a corner is left, no other patch is given out
(`Placement.CornersFirst`). The policy that shuffles corners and sides pairs them with the qubits in the
order of their flips, so that no qubit on a side has more flips than one on a corner
(`Placement.CornersByFlips`). The policy that places around crossings drops crossings that are half used;
their corners are found again for the qubits that are left (`Placement.Reserving`).
-/

namespace LatticeSurgery

open Ordered WordSource

/-! ## The order by flips -/

namespace CircuitStats

theorem pairwise_placeByFlips (flips : Nat → Nat) (q : Nat) {qs : List Nat}
    (h : qs.Pairwise fun p p' => flips p' ≤ flips p) :
    (placeByFlips flips q qs).Pairwise fun p p' => flips p' ≤ flips p := by
  induction qs with
  | nil => exact List.pairwise_singleton _ _
  | cons p ps ih =>
    obtain ⟨hp, hps⟩ := List.pairwise_cons.1 h
    unfold placeByFlips
    split
    · next hle =>
      refine List.pairwise_cons.2 ⟨List.forall_mem_cons.2 ⟨hle, fun p' hp' => ?_⟩, h⟩
      exact (hp p' hp').trans hle
    · next hlt =>
      refine List.pairwise_cons.2 ⟨fun p' hp' => ?_, ih hps⟩
      rcases List.mem_cons.1 ((placeByFlips_perm flips q ps).mem_iff.1 hp') with rfl | hp'
      · exact Nat.le_of_not_le hlt
      · exact hp p' hp'

/-- Qubits with more flips come first. -/
theorem pairwise_byFlips (s : CircuitStats) :
    s.byFlips.Pairwise fun p q => (s.of q).flips ≤ (s.of p).flips := by
  unfold byFlips
  induction s.qubits.keys with
  | nil => exact List.Pairwise.nil
  | cons q qs ih => exact pairwise_placeByFlips (fun q => (s.of q).flips) q ih

end CircuitStats

namespace Placement

variable {σ : Type} [WordSource σ] {P : σ → Prop} {s s' : σ} {c : Circuit} {b : Board}
  {facings : SortedMap Nat Facing} {m m' : SortedMap Nat Nat} {n p q : Nat} {left left' : List Nat}

/-! ## Corners and sides -/

theorem mem_corners : p ∈ corners facings ↔ facings.get? p = some .both := by
  unfold corners
  simp [SortedMap.mem_keys_iff, SortedMap.get?_filter, Option.filter_eq_some_iff]

theorem get?_ne_of_mem_sides (h : p ∈ sides facings) : facings.get? p ≠ some .both := by
  obtain ⟨f, hf⟩ := SortedMap.mem_keys_iff.1 h
  rw [SortedMap.get?_filter, Option.filter_eq_some_iff] at hf
  intro hboth
  obtain rfl : Facing.both = f := Option.some.inj (hboth.symm.trans hf.1)
  cases hf.2

/-- A patch that is no corner is used only if every corner is. -/
def CornersFirst (facings : SortedMap Nat Facing) (m : SortedMap Nat Nat) : Prop :=
  ∀ p ∈ m.values, facings.get? p ≠ some .both → ∀ p', facings.get? p' = some .both → p' ∈ m.values

/-- A qubit on a corner has at least as many flips as a qubit on another patch. -/
def CornersByFlips (stats : CircuitStats) (facings : SortedMap Nat Facing) (m : SortedMap Nat Nat) :
    Prop :=
  ∀ q p, m.get? q = some p → facings.get? p = some .both →
    ∀ q' p', m.get? q' = some p' → facings.get? p' ≠ some .both →
      (stats.of q').flips ≤ (stats.of q).flips

/-! ## Corners before sides, in the order by flips -/

section Shuffled

variable {corners' sides' qs : List Nat} (hcorners : corners'.Perm (corners facings))
  (hsides : sides'.Perm (sides facings))

include hcorners hsides

/-- The corners are the patches at the first places. -/
theorem get?_eq_both_iff_lt {i : Nat} (h : (corners' ++ sides')[i]? = some p) :
    facings.get? p = some .both ↔ i < corners'.length := by
  constructor
  · intro hp
    by_contra hi
    rw [List.getElem?_append_right (Nat.le_of_not_lt hi)] at h
    exact get?_ne_of_mem_sides (hsides.mem_iff.1 (List.mem_of_getElem? h)) hp
  · intro hi
    rw [List.getElem?_append_left hi] at h
    exact mem_corners.1 (hcorners.mem_iff.1 (List.mem_of_getElem? h))

variable (hqs : qs.Nodup) (hle : qs.length ≤ (corners' ++ sides').length)

include hqs hle

theorem cornersFirst_zip : CornersFirst facings (SortedMap.ofList (qs.zip (corners' ++ sides'))) := by
  intro p hp hside p' hcorner
  obtain ⟨q, hq⟩ := SortedMap.mem_values_iff.1 hp
  obtain ⟨i, hqi, hpi⟩ := (get?_ofList_zip hqs hle).1 hq
  have hi := Nat.le_of_not_lt (mt (get?_eq_both_iff_lt hcorners hsides hpi).2 hside)
  -- the corner stands at an earlier place, so that there is a qubit for it
  obtain ⟨j, hj, hpj⟩ := List.getElem_of_mem (hcorners.mem_iff.2 (mem_corners.2 hcorner))
  have hlt : j < qs.length := (hj.trans_le hi).trans (List.getElem?_eq_some_iff.1 hqi).1
  refine SortedMap.mem_values_iff.2 ⟨qs[j], (get?_ofList_zip hqs hle).2
    ⟨j, List.getElem?_eq_getElem hlt, ?_⟩⟩
  rw [List.getElem?_append_left hj, List.getElem?_eq_getElem hj, hpj]

theorem cornersByFlips_zip {stats : CircuitStats}
    (hflips : qs.Pairwise fun p q => (stats.of q).flips ≤ (stats.of p).flips) :
    CornersByFlips stats facings (SortedMap.ofList (qs.zip (corners' ++ sides'))) := by
  intro q p hq hcorner q' p' hq' hside
  obtain ⟨i, hqi, hpi⟩ := (get?_ofList_zip hqs hle).1 hq
  obtain ⟨j, hqj, hpj⟩ := (get?_ofList_zip hqs hle).1 hq'
  have hi := (get?_eq_both_iff_lt hcorners hsides hpi).1 hcorner
  have hj := Nat.le_of_not_lt (mt (get?_eq_both_iff_lt hcorners hsides hpj).2 hside)
  obtain ⟨hi', rfl⟩ := List.getElem?_eq_some_iff.1 hqi
  obtain ⟨hj', rfl⟩ := List.getElem?_eq_some_iff.1 hqj
  exact List.pairwise_iff_getElem.1 hflips i j hi' hj' (hi.trans_le hj)

end Shuffled

/-! ## Corners around crossings -/

/-- While patches are given out, each corner is used or left, and another patch is only used when no
corner is left. -/
structure Reserving (facings : SortedMap Nat Facing) (left : List Nat) (m : SortedMap Nat Nat) : Prop where
  corner : ∀ p ∈ left, facings.get? p = some .both
  kept : ∀ p, facings.get? p = some .both → p ∈ m.values ∨ p ∈ left
  exhausted : ∀ p ∈ m.values, facings.get? p ≠ some .both → left = []

theorem Reserving.cornersFirst (h : Reserving facings left m) : CornersFirst facings m := by
  intro p hp hside p' hcorner
  have hleft := h.exhausted p hp hside
  exact (h.kept p' hcorner).resolve_right (hleft ▸ List.not_mem_nil)

/-- As long as only corners are used, the others are left. -/
theorem reserving_filter (hm : Places (corners facings) n m) :
    Reserving facings ((corners facings).filter fun p => !m.values.contains p) m where
  corner p hp := mem_corners.1 (List.mem_filter.1 hp).1
  kept p hp := by
    rw [List.mem_filter, Bool.not_eq_true', ← Bool.not_eq_true, List.contains_iff_mem]
    exact (em (p ∈ m.values)).imp_right fun hnot => ⟨mem_corners.2 hp, hnot⟩
  exhausted p hp hside := by
    obtain ⟨q, hq⟩ := SortedMap.mem_values_iff.1 hp
    exact absurd (mem_corners.1 (hm.mem q p hq)) hside

theorem mem_values_insert (hq : m.get? q = none) {p' : Nat} :
    p' ∈ (m.insert q p).values ↔ p' = p ∨ p' ∈ m.values := by
  rw [SortedMap.mem_values_iff, SortedMap.mem_values_iff]
  constructor
  · rintro ⟨q', hq'⟩
    by_cases heq : q' = q
    · rw [heq, SortedMap.get?_insert_self, Option.some_inj] at hq'
      exact Or.inl hq'.symm
    · rw [SortedMap.get?_insert_ne _ heq] at hq'
      exact Or.inr ⟨q', hq'⟩
  · rintro (rfl | ⟨q', hq'⟩)
    · exact ⟨q, SortedMap.get?_insert_self _ _ _⟩
    · refine ⟨q', ?_⟩
      rwa [SortedMap.get?_insert_ne]
      rintro rfl
      rw [hq] at hq'
      cases hq'

/-- A corner that is left is given to a qubit. -/
theorem Reserving.insert_corner (h : Reserving facings left m) (hperm : (p :: left').Perm left)
    (hq : m.get? q = none) : Reserving facings left' (m.insert q p) where
  corner p' hp' := h.corner p' (hperm.mem_iff.1 (List.mem_cons_of_mem _ hp'))
  kept p' hp' := by
    rw [mem_values_insert hq]
    rcases h.kept p' hp' with hold | hleft
    · exact Or.inl (Or.inr hold)
    · exact (List.mem_cons.1 (hperm.mem_iff.2 hleft)).imp_left Or.inl
  exhausted p' hp' hside := by
    rcases (mem_values_insert hq).1 hp' with rfl | hold
    · exact absurd (h.corner p' (hperm.mem_iff.1 List.mem_cons_self)) hside
    · have hleft := h.exhausted p' hold hside
      exact absurd (hleft ▸ hperm).length_eq (Nat.succ_ne_zero _)

/-- When no corner is left, any patch can be given to a qubit. -/
theorem Reserving.insert_side (h : Reserving facings [] m) (hq : m.get? q = none) (p : Nat) :
    Reserving facings [] (m.insert q p) where
  corner := h.corner
  kept p' hp' := Or.inl ((mem_values_insert hq).2
    (Or.inr ((h.kept p' hp').resolve_right List.not_mem_nil)))
  exhausted _ _ _ := rfl

theorem placeRest_reserving (hP : Ranged P) (hs : P s) {qs sides : List Nat}
    (hm : Reserving facings left m) (h : placeRest qs left sides m s = .ok (m', s')) :
    ∃ left', Reserving facings left' m' := by
  induction qs generalizing left sides m s with
  | nil =>
    cases h
    exact ⟨left, hm⟩
  | cons q qs ih =>
    unfold placeRest at h
    split at h
    · exact ih hs hm h
    · next hplaced =>
      have hq : m.get? q = none := by
        rwa [SortedMap.contains, Bool.not_eq_true, Option.isSome_eq_false_iff,
          Option.isNone_iff_eq_none] at hplaced
      obtain ⟨⟨r, t⟩, hr, hrest⟩ := exists_of_bind_eq_ok h
      obtain ⟨ht, ⟨rfl, rfl⟩ | ⟨patch, left', rfl, hperm⟩⟩ := takeRandom_spec hP hs hr
      · obtain ⟨⟨r, t'⟩, hr, hrest⟩ := exists_of_bind_eq_ok hrest
        obtain ⟨ht', ⟨rfl, rfl⟩ | ⟨patch, sides', rfl, -⟩⟩ := takeRandom_spec hP ht hr
        · exact ih ht' hm hrest
        · exact ih ht' (hm.insert_side hq patch) hrest
      · exact ih ht (hm.insert_corner hperm hq) hrest

theorem cluster_cornersFirst (hP : Ranged P) (hs : P s)
    (hc : ∀ r ∈ c.rotations, ∀ q ∈ r.activeQubits, q < c.numQubits)
    (h : cluster (CircuitStats.ofCircuit c) b s = .ok (m, s')) : CornersFirst b.facings m := by
  obtain ⟨⟨⟨placed, seeds⟩, t⟩, hseeds, hrest⟩ := exists_of_bind_eq_ok h
  obtain ⟨ht, hplaces⟩ := seedCrossings_places hP hs hc hseeds
  obtain ⟨left, hm⟩ := placeRest_reserving hP ht (reserving_filter hplaces) hrest
  exact hm.cornersFirst

end Placement

/-- Who gets the corners when a circuit is placed. When corners and sides are shuffled, the qubits on
corners have at least as many flips as the others. Then, and around crossings, another patch is used only
if every corner is. -/
theorem Circuit.choosePlacement_corners {σ : Type} [WordSource σ] {P : σ → Prop} {s s' : σ}
    {c c' : Circuit} {b b' : Board} {policy : PlacementPolicy} {given : Option (List Nat)}
    {placement : Placement} (hP : Ranged P) (hs : P s)
    (hc : ∀ r ∈ c.rotations, ∀ q ∈ r.activeQubits, q < c.numQubits)
    (h : c.choosePlacement b policy given s = .ok (placement, c', b', s')) :
    (policy = .randomCorner →
      Placement.CornersByFlips (CircuitStats.ofCircuit c) b.facings placement.patches) ∧
    (policy = .randomCorner ∨ policy = .clusterCrossing →
      Placement.CornersFirst b.facings placement.patches) := by
  obtain ⟨hn, m, hm, heq⟩ := exists_choosePatches h
  cases heq
  show _ ∧ (_ → Placement.CornersFirst b.facings m)
  have hflips := CircuitStats.byFlips_ofCircuit_perm hc
  cases policy with
  | randomCorner =>
    obtain ⟨⟨corners', t⟩, hcorners, hrest⟩ := exists_of_bind_eq_ok hm
    obtain ⟨⟨sides', t'⟩, hsides, hrest⟩ := exists_of_bind_eq_ok hrest
    cases hrest
    have hcorners := Draw.shuffle_perm (eq_ok_of_orHalt hcorners)
    have hsides := Draw.shuffle_perm (eq_ok_of_orHalt hsides)
    have hnodup := hflips.nodup_iff.2 List.nodup_range
    have hle : (CircuitStats.ofCircuit c).byFlips.length ≤ (corners' ++ sides').length := by
      rw [hflips.length_eq, List.length_range,
        ((hcorners.append hsides).trans (Placement.corners_append_sides_perm _)).length_eq,
        Placement.length_keys]
      exact hn
    exact ⟨fun _ => Placement.cornersByFlips_zip hcorners hsides hnodup hle
        (CircuitStats.pairwise_byFlips _),
      fun _ => Placement.cornersFirst_zip hcorners hsides hnodup hle⟩
  | clusterCrossing =>
    exact ⟨by simp, fun _ => Placement.cluster_cornersFirst hP hs hc (eq_ok_of_orHalt hm)⟩
  | manual => exact ⟨by simp, by simp⟩
  | random => exact ⟨by simp, by simp⟩
  | affinity => exact ⟨by simp, by simp⟩

/-- The patch in the bend goes to the qubit that changes its boundary, and around the crossing as well.
Both policies use a patch with one side at the bus besides. -/
theorem bendCircuit_corners : ∃ b, Board.ofLayout bendLayout = .ok b ∧ b.facings.get? 1 = some .both ∧
    ∃ shuffled around c₁ c₂ b₁ b₂ s₁ s₂,
      bendCircuit.choosePlacement b .randomCorner none (⟨[3, 0], 0⟩ : CyclicWords) =
        .ok (shuffled, c₁, b₁, s₁) ∧ shuffled.patches.entries = [(0, 2), (1, 1)] ∧
      Placement.CornersByFlips (CircuitStats.ofCircuit bendCircuit) b.facings shuffled.patches ∧
      Placement.CornersFirst b.facings shuffled.patches ∧
      bendCircuit.choosePlacement b .clusterCrossing none (⟨[9223372036854775808, 0], 0⟩ : CyclicWords) =
        .ok (around, c₂, b₂, s₂) ∧ around.patches.entries = [(0, 2), (1, 1)] ∧
      Placement.CornersFirst b.facings around.patches := by
  have hrun : Ends (Board.ofLayout bendLayout) (fun _ => False) fun b =>
      b.facings.get? 1 = some .both ∧
      Ends (bendCircuit.choosePlacement b .randomCorner none (⟨[3, 0], 0⟩ : CyclicWords))
        (fun _ => False) (fun r => r.1.patches.entries = [(0, 2), (1, 1)]) ∧
      Ends (bendCircuit.choosePlacement b .clusterCrossing none
          (⟨[9223372036854775808, 0], 0⟩ : CyclicWords))
        (fun _ => False) fun r => r.1.patches.entries = [(0, 2), (1, 1)] := by
    decide +kernel
  obtain ⟨b, hb, hcorner, hshuffled, haround⟩ := hrun.exists_ok
  obtain ⟨⟨shuffled, c₁, b₁, s₁⟩, h₁, hshuffled⟩ := hshuffled.exists_ok
  obtain ⟨⟨around, c₂, b₂, s₂⟩, h₂, haround⟩ := haround.exists_ok
  obtain ⟨hbyFlips, hfirst⟩ := Circuit.choosePlacement_corners (CyclicWords.ranged (by decide)) rfl
    bendCircuit_lt h₁
  obtain ⟨-, hfirst'⟩ := Circuit.choosePlacement_corners (CyclicWords.ranged (by decide)) rfl
    bendCircuit_lt h₂
  exact ⟨b, hb, hcorner, shuffled, around, c₁, c₂, b₁, b₂, s₁, s₂, h₁, hshuffled, hbyFlips rfl,
    hfirst (Or.inl rfl), h₂, haround, hfirst' (Or.inr rfl)⟩

end LatticeSurgery
