import LatticeSurgery.Layout.Patches
import LatticeSurgery.Proofs.Endings
import LatticeSurgery.Proofs.Layout.Matchings

/-!
# Pairing up zero-state tiles

The tiles of zero states are paired up step by step, each step taking the first tile that has a single
free neighbour together with this neighbour (`Layout.pairUp_eq`). Such a pair is forced, so nothing is
lost, and when no pair is forced the tiles have no perfect matching, or have several. So the steps
succeed exactly when the tiles can be paired up in one way only (`Layout.zeroPatches_decides`).
-/

namespace LatticeSurgery

open Tile

namespace Layout

variable {tiles : SortedSet Tile} {ts : List Tile} {t u : Tile} {e : LayoutError}

/-! ## One step -/

theorem mem_freeNeighbors : u ∈ freeNeighbors tiles t ↔ u ∈ tiles ∧ grid.Adj t u := by
  rw [freeNeighbors, List.mem_filter, SortedSet.contains_iff, and_comm]
  exact Iff.rfl

theorem nodup_freeNeighbors : (freeNeighbors tiles t).Nodup := t.nodup_neighbors.filter _

/-- The pair that a step finds: a tile and its only free neighbour. -/
theorem of_forcedPair (h : forcedPair tiles ts = .ok (t, u)) :
    t ∈ ts ∧ freeNeighbors tiles t = [u] := by
  induction ts with
  | nil => cases h
  | cons t' ts ih =>
    unfold forcedPair at h
    split at h
    · cases h
    · next hfree =>
      cases h
      exact ⟨List.mem_cons_self, hfree⟩
    · exact (ih h).imp_left (List.mem_cons_of_mem _)

/-- A step fails at a tile without a free neighbour, or when every tile has several. -/
theorem of_forcedPair_error (h : forcedPair tiles ts = .error e) :
    (∃ t ∈ ts, freeNeighbors tiles t = [] ∧ e = .unpairedResourceTiles t) ∨
      (∀ t ∈ ts, 1 < (freeNeighbors tiles t).length) ∧ e = .ambiguousResourceTiles := by
  induction ts with
  | nil =>
    cases h
    exact Or.inr ⟨by simp, rfl⟩
  | cons t ts ih =>
    unfold forcedPair at h
    split at h
    · next hfree =>
      cases h
      exact Or.inl ⟨t, List.mem_cons_self, hfree, rfl⟩
    · cases h
    · next hnil hone =>
      refine (ih h).imp ?_ ?_
      · rintro ⟨t', ht', hfree⟩
        exact ⟨t', List.mem_cons_of_mem _ ht', hfree⟩
      · rintro ⟨hseveral, he⟩
        refine ⟨List.forall_mem_cons.2 ⟨?_, hseveral⟩, he⟩
        match hlist : freeNeighbors tiles t with
        | [] => exact absurd hlist hnil
        | [u] => exact absurd hlist (hone u)
        | _ :: _ :: _ => simp

/-- What is known of the two tiles that a step takes. -/
structure Forced (tiles : SortedSet Tile) (t u : Tile) : Prop where
  left : t ∈ tiles
  right : u ∈ tiles
  iff : ∀ v ∈ tiles, grid.Adj t v ↔ v = u

theorem forced_of_forcedPair (h : forcedPair tiles tiles.toList = .ok (t, u)) : Forced tiles t u := by
  obtain ⟨ht, hfree⟩ := of_forcedPair h
  have hmem : ∀ v, v ∈ tiles ∧ grid.Adj t v ↔ v = u := by
    intro v
    rw [← mem_freeNeighbors, hfree, List.mem_singleton]
  exact ⟨ht, ((hmem u).2 rfl).1, fun v hv => ⟨fun h => (hmem v).1 ⟨hv, h⟩, fun h => ((hmem v).2 h).2⟩⟩

namespace Forced

theorem adj (h : Forced tiles t u) : grid.Adj t u := (h.iff u h.right).2 rfl

/-- A step takes two tiles away. -/
theorem perm (h : Forced tiles t u) :
    (t :: u :: ((tiles.erase t).erase u).toList).Perm tiles.toList := by
  have hout : t ∉ (tiles.erase t).erase u ∧ u ∉ (tiles.erase t).erase u := by
    simp
  have hnodup : (t :: u :: ((tiles.erase t).erase u).toList).Nodup := by
    refine List.nodup_cons.2 ⟨?_, List.nodup_cons.2 ⟨hout.2, SortedSet.nodup _⟩⟩
    exact List.not_mem_cons_of_ne_of_not_mem h.adj.ne hout.1
  refine (List.perm_ext_iff_of_nodup hnodup tiles.nodup).2 fun v => ?_
  rw [List.mem_cons, List.mem_cons, SortedSet.mem_toList, SortedSet.mem_toList, mem_erase_pair]
  have := h.left
  have := h.right
  constructor
  · rintro (rfl | rfl | hv) <;> tauto
  · tauto

theorem size (h : Forced tiles t u) : ((tiles.erase t).erase u).size + 2 = tiles.size :=
  h.perm.length_eq

end Forced

/-! ## The loop -/

theorem pairUpIn_of_isEmpty {steps : Nat} (h : tiles.isEmpty = true) :
    pairUpIn steps tiles = .ok [] := by
  cases steps with
  | zero => rfl
  | succ steps => exact if_pos h

theorem size_pos_of_not_isEmpty (h : ¬ tiles.isEmpty = true) : 0 < tiles.size := by
  rw [SortedSet.isEmpty, List.isEmpty_iff] at h
  exact List.length_pos_iff.2 h

/-- As many steps as there are tiles are enough. -/
theorem pairUpIn_congr {steps steps' : Nat} (h : tiles.size ≤ steps) (h' : tiles.size ≤ steps') :
    pairUpIn steps tiles = pairUpIn steps' tiles := by
  induction steps generalizing tiles steps' with
  | zero =>
    have hempty : tiles.isEmpty = true := by
      by_contra hne
      have := size_pos_of_not_isEmpty hne
      omega
    rw [pairUpIn_of_isEmpty hempty, pairUpIn_of_isEmpty hempty]
  | succ steps ih =>
    by_cases hempty : tiles.isEmpty = true
    · rw [pairUpIn_of_isEmpty hempty, pairUpIn_of_isEmpty hempty]
    · obtain ⟨steps', rfl⟩ : ∃ k, steps' = k + 1 :=
        Nat.exists_eq_add_one.2 ((size_pos_of_not_isEmpty hempty).trans_le h')
      rw [pairUpIn, pairUpIn, if_neg hempty, if_neg hempty]
      cases hpair : forcedPair tiles tiles.toList with
      | error e => rfl
      | ok p =>
        obtain ⟨t, u⟩ := p
        have hsize := (forced_of_forcedPair hpair).size
        have hrest : pairUpIn steps ((tiles.erase t).erase u) =
            pairUpIn steps' ((tiles.erase t).erase u) := ih (by omega) (by omega)
        simp only [bind, Except.bind, hrest]

/-- The loop: as long as tiles are left, a pair is taken away. -/
theorem pairUp_eq (tiles : SortedSet Tile) : pairUp tiles =
    if tiles.isEmpty then .ok []
    else do
      let (t, u) ← forcedPair tiles tiles.toList
      let rest ← pairUp ((tiles.erase t).erase u)
      return (t, u) :: rest := by
  split
  · next hempty => exact pairUpIn_of_isEmpty hempty
  · next hempty =>
    obtain ⟨k, hk⟩ := Nat.exists_eq_add_one.2 (size_pos_of_not_isEmpty hempty)
    rw [pairUp, hk, pairUpIn, if_neg hempty]
    cases hpair : forcedPair tiles tiles.toList with
    | error e => rfl
    | ok p =>
      obtain ⟨t, u⟩ := p
      have hsize := (forced_of_forcedPair hpair).size
      have hrest : pairUpIn k ((tiles.erase t).erase u) = pairUp ((tiles.erase t).erase u) :=
        pairUpIn_congr (by omega) le_rfl
      simp only [bind, Except.bind, hrest]

/-- What each step makes of a statement about the tiles that it leaves holds of the whole loop. -/
theorem pairUp_induction {P : SortedSet Tile → Except LayoutError (List (Tile × Tile)) → Prop}
    (done : ∀ tiles, (∀ t, t ∉ tiles) → P tiles (.ok []))
    (stuck : ∀ tiles e, (∃ t, t ∈ tiles) → forcedPair tiles tiles.toList = .error e →
      P tiles (.error e))
    (step : ∀ tiles t u r, Forced tiles t u → P ((tiles.erase t).erase u) r →
      P tiles (r.map ((t, u) :: ·))) (tiles : SortedSet Tile) : P tiles (pairUp tiles) := by
  induction hn : tiles.size using Nat.strong_induction_on generalizing tiles with
  | _ n ih =>
    rw [pairUp_eq]
    split
    · next hempty => exact done tiles (SortedSet.isEmpty_iff.1 hempty)
    · next hempty =>
      cases hpair : forcedPair tiles tiles.toList with
      | error e =>
        exact stuck tiles e (SortedSet.isEmpty_eq_false_iff.1 (Bool.not_eq_true _ ▸ hempty)) hpair
      | ok p =>
        obtain ⟨t, u⟩ := p
        have hforced := forced_of_forcedPair hpair
        have hsize := hforced.size
        exact step tiles t u _ hforced (ih _ (by omega) _ rfl)

/-! ## The result -/

/-- What pairing up says about the perfect matchings of the tiles. -/
structure Decides (tiles : SortedSet Tile) (r : Except LayoutError (List (Tile × Tile))) : Prop where
  /-- The pairs are those of the only perfect matching. -/
  matched : ∀ pairs, r = .ok pairs → (pairs.flatMap fun p => [p.1, p.2]).Perm tiles.toList ∧
    ∃ M, PerfectMatching tiles M ∧ (∀ M', PerfectMatching tiles M' → M' = M) ∧
      ∀ t u, M.Adj t u ↔ (t, u) ∈ pairs ∨ (u, t) ∈ pairs
  /-- No tile is left alone for nothing, and no choice is left open for nothing. -/
  refused : ∀ e, r = .error e →
    (∃ t ∈ tiles, e = .unpairedResourceTiles t ∧ ∀ M, ¬ PerfectMatching tiles M) ∨
      e = .ambiguousResourceTiles ∧ ¬ ∃! M, PerfectMatching tiles M

theorem decides_of_empty (hempty : ∀ t, t ∉ tiles) : Decides tiles (.ok []) := by
  refine ⟨fun pairs h => ?_, fun e h => (by cases h)⟩
  cases h
  have hnil : tiles.toList = [] := List.eq_nil_iff_forall_not_mem.2 hempty
  have hbot : PerfectMatching tiles ⊥ := by
    refine ⟨fun t ht => ht.elim, ?_⟩
    ext t
    exact ⟨fun ht => ht.elim, fun ht => hempty t ht⟩
  refine ⟨by rw [hnil]; rfl, ⊥, hbot, fun M hM => ?_, fun t u => by simp⟩
  exact hM.eq_of_le hbot fun t u h => absurd (hM.mem_left h) (hempty t)

theorem decides_of_stuck (hne : ∃ t, t ∈ tiles) (h : forcedPair tiles tiles.toList = .error e) :
    Decides tiles (.error e) := by
  refine ⟨fun pairs hpairs => (by cases hpairs), fun e' h' => ?_⟩
  cases h'
  refine (of_forcedPair_error h).imp ?_ ?_
  · rintro ⟨t, ht, hfree, rfl⟩
    refine ⟨t, ht, rfl, fun M hM => ?_⟩
    obtain ⟨u, hu⟩ := hM.exists_adj ht
    exact List.not_mem_nil (hfree ▸ mem_freeNeighbors.2 ⟨hM.mem_right hu, hu.adj_sub⟩)
  · rintro ⟨hseveral, rfl⟩
    refine ⟨rfl, fun ⟨M, hM, hunique⟩ => ?_⟩
    obtain ⟨M', hM', hother⟩ := hM.exists_other hne fun t ht u => by
      have hcard := hseveral t ht
      rw [← List.toFinset_card_of_nodup nodup_freeNeighbors] at hcard
      obtain ⟨v, hv, hvu⟩ := Finset.exists_mem_ne hcard u
      obtain ⟨hmem, hadj⟩ := mem_freeNeighbors.1 (List.mem_toFinset.1 hv)
      exact ⟨v, hmem, hadj, hvu⟩
    exact hother (hunique M' hM')

theorem Forced.decides (hforced : Forced tiles t u) {r : Except LayoutError (List (Tile × Tile))}
    (hr : Decides ((tiles.erase t).erase u) r) : Decides tiles (r.map ((t, u) :: ·)) := by
  refine ⟨fun pairs h => ?_, fun e h => ?_⟩
  · cases r with
    | error e => cases h
    | ok rest =>
      cases h
      obtain ⟨hperm, M, hM, hunique, hadj⟩ := hr.matched rest rfl
      refine ⟨((hperm.cons u).cons t).trans hforced.perm, ?_⟩
      obtain ⟨N, hN, hNunique⟩ := (existsUnique_iff_of_forced hforced.left hforced.right
        hforced.iff).2 ⟨M, hM, hunique⟩
      have htu := hN.adj_of_forced hforced.left hforced.iff
      refine ⟨N, hN, hNunique, fun v w => ?_⟩
      rw [hN.adj_remove_iff htu, hunique _ (hN.remove htu), hadj, Sym2.eq_iff, List.mem_cons,
        List.mem_cons, Prod.mk.injEq, Prod.mk.injEq]
      tauto
  · cases r with
    | ok rest => cases h
    | error e' =>
      cases h
      refine (hr.refused e rfl).imp ?_ (And.imp_right ?_)
      · rintro ⟨v, hv, rfl, hnone⟩
        refine ⟨v, (mem_erase_pair.1 hv).1, rfl, fun M hM => ?_⟩
        exact hnone _ (hM.remove (hM.adj_of_forced hforced.left hforced.iff))
      · exact mt (existsUnique_iff_of_forced hforced.left hforced.right hforced.iff).1

theorem pairUp_decides (tiles : SortedSet Tile) : Decides tiles (pairUp tiles) :=
  pairUp_induction (P := Decides) (fun _ => decides_of_empty) (fun _ _ => decides_of_stuck)
    (fun _ _ _ _ hforced hr => hforced.decides hr) tiles

/-! ## Zero states -/

/-- The patches of pairs of tiles, numbered in the order of the pairs. -/
def pairPatches (pairs : List (Tile × Tile)) : List Patch :=
  pairs.zipIdx.map fun p => Patch.twoTile .zero p.2 p.1.1 p.1.2

variable {pairs : List (Tile × Tile)} {p : Patch}

theorem zeroPatches_eq (l : Layout) : l.zeroPatches = (pairUp l.zero).map pairPatches := by
  unfold zeroPatches
  cases pairUp l.zero <;> rfl

theorem tiles_twoTile (kind : PatchKind) (id : Nat) (t u : Tile) :
    (Patch.twoTile kind id t u).tiles.Perm [t, u] := by
  unfold Patch.twoTile
  dsimp only
  split
  · exact .refl _
  · exact .swap ..

theorem mem_pairPatches : p ∈ pairPatches pairs ↔
    ∃ i t u, pairs[i]? = some (t, u) ∧ Patch.twoTile .zero i t u = p := by
  rw [pairPatches, List.mem_map]
  constructor
  · rintro ⟨⟨⟨t, u⟩, i⟩, hmem, rfl⟩
    exact ⟨i, t, u, List.mk_mem_zipIdx_iff_getElem?.1 hmem, rfl⟩
  · rintro ⟨i, t, u, hi, rfl⟩
    exact ⟨((t, u), i), List.mk_mem_zipIdx_iff_getElem?.2 hi, rfl⟩

theorem ids_pairPatches (pairs : List (Tile × Tile)) :
    (pairPatches pairs).map Patch.id = List.range (pairPatches pairs).length := by
  have hids : (pairPatches pairs).map Patch.id = pairs.zipIdx.map Prod.snd := List.map_map ..
  rw [hids, List.zipIdx_map_snd, ← List.range_eq_range', pairPatches, List.length_map,
    List.length_zipIdx]

theorem tiles_pairPatches (pairs : List (Tile × Tile)) :
    ((pairPatches pairs).flatMap Patch.tiles).Perm (pairs.flatMap fun p => [p.1, p.2]) := by
  rw [pairPatches, List.flatMap_map]
  conv_rhs => rw [← List.zipIdx_map_fst 0 pairs, List.flatMap_map]
  exact List.Perm.flatMap_left _ fun p _ => tiles_twoTile ..

/-- The patches are the pairs of a matching. -/
structure PairsOf (M : grid.Subgraph) (patches : List Patch) : Prop where
  patch : ∀ p ∈ patches, ∃ t u, M.Adj t u ∧ p = .twoTile .zero p.id t u
  adj : ∀ t u, M.Adj t u ↔ ∃ p ∈ patches, p.tiles.Perm [t, u]
  /-- They are numbered in their order. -/
  ids : patches.map Patch.id = List.range patches.length

theorem pairsOf_pairPatches {M : grid.Subgraph}
    (hadj : ∀ t u, M.Adj t u ↔ (t, u) ∈ pairs ∨ (u, t) ∈ pairs) : PairsOf M (pairPatches pairs) := by
  refine ⟨fun p hp => ?_, fun t u => ⟨fun h => ?_, ?_⟩, ids_pairPatches pairs⟩
  · obtain ⟨i, t, u, hi, rfl⟩ := mem_pairPatches.1 hp
    exact ⟨t, u, (hadj t u).2 (Or.inl (List.mem_of_getElem? hi)), rfl⟩
  · rcases (hadj t u).1 h with hmem | hmem
    · obtain ⟨i, hi⟩ := List.mem_iff_getElem?.1 hmem
      exact ⟨_, mem_pairPatches.2 ⟨i, t, u, hi, rfl⟩, tiles_twoTile ..⟩
    · obtain ⟨i, hi⟩ := List.mem_iff_getElem?.1 hmem
      exact ⟨_, mem_pairPatches.2 ⟨i, u, t, hi, rfl⟩, (tiles_twoTile ..).trans (.swap ..)⟩
  · rintro ⟨p, hp, hperm⟩
    obtain ⟨i, v, w, hi, rfl⟩ := mem_pairPatches.1 hp
    have hmem := List.mem_of_getElem? hi
    rw [hadj]
    rcases List.pair_perm.1 ((tiles_twoTile ..).symm.trans hperm) with heq | heq <;> cases heq
    · exact Or.inl hmem
    · exact Or.inr hmem

/-- Pairing up decides whether there is exactly one perfect matching of the zero-state tiles. It comes
to an end, since every step takes two of the tiles away. Then the patches are the pairs of that matching,
with every tile in one patch, or the error tells that there is no perfect matching, or that there is not
exactly one. -/
theorem zeroPatches_decides (l : Layout) :
    (∀ tiles, pairUp tiles =
      if tiles.isEmpty then .ok []
      else do
        let (t, u) ← forcedPair tiles tiles.toList
        let rest ← pairUp ((tiles.erase t).erase u)
        return (t, u) :: rest) ∧
    (∀ tiles t u, forcedPair tiles tiles.toList = .ok (t, u) →
      ((tiles.erase t).erase u).size + 2 = tiles.size) ∧
    ((∃ patches, l.zeroPatches = .ok patches) ↔ ∃! M, PerfectMatching l.zero M) ∧
    (∀ patches, l.zeroPatches = .ok patches →
      (patches.flatMap Patch.tiles).Perm l.zero.toList ∧
      ∃ M, PerfectMatching l.zero M ∧ PairsOf M patches) ∧
    ∀ e, l.zeroPatches = .error e →
      (∃ t ∈ l.zero, e = .unpairedResourceTiles t ∧ ∀ M, ¬ PerfectMatching l.zero M) ∨
        e = .ambiguousResourceTiles ∧ ¬ ∃! M, PerfectMatching l.zero M := by
  refine ⟨pairUp_eq, fun tiles t u h => (forced_of_forcedPair h).size, ?_⟩
  have hdecides := pairUp_decides l.zero
  rw [zeroPatches_eq]
  cases hpairs : pairUp l.zero with
  | error e =>
    have hrefused := hdecides.refused e hpairs
    refine ⟨⟨by rintro ⟨_, ⟨⟩⟩, fun hunique => ?_⟩, by rintro _ ⟨⟩, ?_⟩
    · rcases hrefused with ⟨t, -, -, hnone⟩ | ⟨-, hnot⟩
      · exact absurd hunique.exists.choose_spec (hnone _)
      · exact absurd hunique hnot
    · rintro _ ⟨⟩
      exact hrefused
  | ok pairs =>
    obtain ⟨hperm, M, hM, hunique, hadj⟩ := hdecides.matched pairs hpairs
    refine ⟨⟨fun _ => ⟨M, hM, hunique⟩, fun _ => ⟨_, rfl⟩⟩, ?_, by rintro _ ⟨⟩⟩
    rintro _ ⟨⟩
    exact ⟨(tiles_pairPatches pairs).trans hperm, M, hM, pairsOf_pairPatches hadj⟩

/-- Four zero-state tiles in a square, with two more tiles beside two corners of it. -/
def pinwheelLayout : Layout where
  bus := ∅
  data := ∅
  magic := ∅
  zero := SortedSet.ofList [⟨0, 0⟩, ⟨1, 0⟩, ⟨0, 1⟩, ⟨1, 1⟩, ⟨-1, 0⟩, ⟨0, 2⟩]
  storage := ∅

/-- The tiles of the square can be paired up in two ways, but those outside it force one. Without these,
the first step fails. -/
theorem pinwheelLayout_paired : ∃ patches, pinwheelLayout.zeroPatches = .ok patches ∧
    patches.map Patch.tiles = [[⟨-1, 0⟩, ⟨0, 0⟩], [⟨0, 1⟩, ⟨0, 2⟩], [⟨1, 0⟩, ⟨1, 1⟩]] ∧
    (∃ M, PerfectMatching pinwheelLayout.zero M ∧ PairsOf M patches) ∧
    (∃! M, PerfectMatching pinwheelLayout.zero M) ∧
    ¬ ∃! M, PerfectMatching ((pinwheelLayout.zero.erase ⟨-1, 0⟩).erase ⟨0, 2⟩) M := by
  have hrun : pinwheelLayout.zeroPatches.toOption.any (fun patches => decide (patches.map Patch.tiles =
      [[⟨-1, 0⟩, ⟨0, 0⟩], [⟨0, 1⟩, ⟨0, 2⟩], [⟨1, 0⟩, ⟨1, 1⟩]])) = true := by
    decide +kernel
  obtain ⟨patches, hpatches, htiles⟩ := exists_of_any_toOption hrun
  obtain ⟨-, -, hunique, hmatched, -⟩ := zeroPatches_decides pinwheelLayout
  obtain ⟨-, -, -, -, hrefused⟩ := zeroPatches_decides
    { pinwheelLayout with zero := (pinwheelLayout.zero.erase ⟨-1, 0⟩).erase ⟨0, 2⟩ }
  refine ⟨patches, hpatches, of_decide_eq_true htiles, (hmatched patches hpatches).2,
    hunique.1 ⟨patches, hpatches⟩, ?_⟩
  rcases hrefused .ambiguousResourceTiles (by decide +kernel) with ⟨t, -, heq, -⟩ | ⟨-, hnot⟩
  · cases heq
  · exact hnot

end Layout

end LatticeSurgery
