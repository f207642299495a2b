import LatticeSurgery.Proofs.Layout.Patches

/-!
# Layouts that are accepted

Tiles listed by role make a layout when there is a bus, no tile is listed twice and every other tile
lies beside the bus (`Layout.exists_ofRoles`). Its patches are found when every magic state and every
storage has one bus tile beside it and the zero-state tiles can be paired up (`Layout.exists_patches`),
for instance one pair after the other from left to right (`Layout.pairUp_lying`).
-/

namespace LatticeSurgery

open Tile

/-- The only neighbour of a tile that passes a test. -/
theorem Tile.filter_neighbors_eq {t u : Tile} {p : Tile → Bool}
    (h : ∀ v, grid.Adj t v ∧ p v = true ↔ v = u) : t.neighbors.filter p = [u] := by
  refine List.perm_singleton.1 ((List.perm_ext_iff_of_nodup (t.nodup_neighbors.filter p)
    (List.nodup_singleton u)).2 fun v => ?_)
  rw [List.mem_filter, List.mem_singleton]
  exact h v

/-- The first member of a set that comes before all others. -/
theorem SortedSet.exists_toList_eq_cons {α : Type} [Ordered α] {s : SortedSet α} {a : α} (ha : a ∈ s)
    (h : ∀ b ∈ s, b ≠ a → Ordered.before a b = true) : ∃ l, s.toList = a :: l := by
  cases hlist : s.toList with
  | nil =>
    rw [mem_def, hlist] at ha
    cases ha
  | cons b l =>
    have hsorted := s.sorted
    rw [hlist, List.pairwise_cons] at hsorted
    by_cases hb : b = a
    · exact ⟨l, by rw [hb]⟩
    · have hbefore := h b (by rw [mem_def, hlist]; exact List.mem_cons_self) hb
      have hal : a ∈ l := (List.mem_cons.1 (hlist ▸ ha)).resolve_left (Ne.symm hb)
      rw [Ordered.before_asymm (hsorted.1 a hal)] at hbefore
      cases hbefore

namespace Layout

variable {l : Layout} {r : TileRoles} {t : Tile} {ts : List Tile}

/-! ## Roles -/

/-- Different tiles without a role can be given one. -/
theorem exists_occupy (taken : SortedSet Tile) (hnodup : ts.Nodup) (hfree : ∀ t ∈ ts, t ∉ taken) :
    ∃ role taken', occupy ts taken = .ok (role, taken') := by
  induction ts generalizing taken with
  | nil => exact ⟨_, _, rfl⟩
  | cons t ts ih =>
    obtain ⟨hout, hnodup⟩ := List.nodup_cons.1 hnodup
    obtain ⟨role, taken', hok⟩ := ih (taken.insert t) hnodup fun u hu hin => by
      rcases SortedSet.mem_insert.1 hin with rfl | hin
      · exact hout hu
      · exact hfree u (List.mem_cons_of_mem _ hu) hin
    refine ⟨role.insert t, taken', ?_⟩
    rw [occupy, if_neg (hfree t List.mem_cons_self), hok]
    rfl

/-- The layout of some roles has the tiles of the roles. -/
structure Roled (r : TileRoles) (l : Layout) : Prop where
  bus : ∀ t, t ∈ l.bus ↔ t ∈ r.bus
  data : ∀ t, t ∈ l.data ↔ t ∈ r.data
  magic : ∀ t, t ∈ l.magic ↔ t ∈ r.magic
  zero : ∀ t, t ∈ l.zero ↔ t ∈ r.zero
  storage : ∀ t, t ∈ l.storage ↔ t ∈ r.storage

/-- Roles with a bus, without a tile that is listed twice and with every other tile beside the bus make
a layout. -/
theorem exists_ofRoles (hbus : r.bus ≠ [])
    (hnodup : (r.bus ++ (r.data ++ (r.magic ++ (r.zero ++ r.storage)))).Nodup)
    (hbeside : ∀ t ∈ r.data ++ r.magic ++ r.zero ++ r.storage, ∃ u ∈ r.bus, grid.Adj t u) :
    ∃ l, ofRoles r = .ok l ∧ Roled r l := by
  simp only [List.nodup_append', List.disjoint_append_right] at hnodup
  obtain ⟨hbusNodup, ⟨hdataNodup, ⟨hmagicNodup, ⟨hzeroNodup, hstorageNodup, hzs⟩, hmz, hms⟩, hdm, hdz,
    hds⟩, hbd, hbm, hbz, hbs⟩ := hnodup
  obtain ⟨bus, taken₁, hok₁⟩ := exists_occupy ∅ hbusNodup (by simp)
  obtain ⟨hbusRole, htaken₁, -⟩ := mem_of_occupy hok₁
  obtain ⟨data, taken₂, hok₂⟩ := exists_occupy taken₁ hdataNodup fun t ht => by
    simpa [htaken₁] using fun h => hbd h ht
  obtain ⟨hdataRole, htaken₂, -⟩ := mem_of_occupy hok₂
  obtain ⟨magic, taken₃, hok₃⟩ := exists_occupy taken₂ hmagicNodup fun t ht => by
    simpa [htaken₁, htaken₂] using ⟨fun h => hbm h ht, fun h => hdm h ht⟩
  obtain ⟨hmagicRole, htaken₃, -⟩ := mem_of_occupy hok₃
  obtain ⟨zero, taken₄, hok₄⟩ := exists_occupy taken₃ hzeroNodup fun t ht => by
    simpa [htaken₁, htaken₂, htaken₃] using
      ⟨⟨fun h => hbz h ht, fun h => hdz h ht⟩, fun h => hmz h ht⟩
  obtain ⟨hzeroRole, htaken₄, -⟩ := mem_of_occupy hok₄
  obtain ⟨storage, taken₅, hok₅⟩ := exists_occupy taken₄ hstorageNodup fun t ht => by
    simpa [htaken₁, htaken₂, htaken₃, htaken₄] using
      ⟨⟨⟨fun h => hbs h ht, fun h => hds h ht⟩, fun h => hms h ht⟩, fun h => hzs h ht⟩
  obtain ⟨hstorageRole, -, -⟩ := mem_of_occupy hok₅
  refine ⟨⟨bus, data, magic, zero, storage⟩, ?_,
    ⟨hbusRole, hdataRole, hmagicRole, hzeroRole, hstorageRole⟩⟩
  have hfind : (patchTiles ⟨bus, data, magic, zero, storage⟩).find? (fun t =>
      (busNeighbors ⟨bus, data, magic, zero, storage⟩ t).isEmpty) = none := by
    refine List.find?_eq_none.2 fun t ht hempty => ?_
    simp only [patchTiles, List.mem_append, SortedSet.mem_toList, hdataRole, hmagicRole, hzeroRole,
      hstorageRole] at ht
    obtain ⟨u, hu, hadj⟩ := hbeside t (by simpa only [List.mem_append] using ht)
    refine List.eq_nil_iff_forall_not_mem.1 (List.isEmpty_iff.1 hempty) u ?_
    exact List.mem_filter.2 ⟨hadj, SortedSet.contains_iff.2 ((hbusRole u).2 hu)⟩
  simp only [ofRoles, List.isEmpty_iff, hbus, if_false, hok₁, hok₂, hok₃, hok₄, hok₅, bind, Except.bind,
    pure, Except.pure, hfind]

/-! ## Patches -/

/-- Magic states and storages with one bus tile beside each are turned to it. -/
theorem exists_facingPatches (kind : PatchKind) (refuse : Tile → Nat → LayoutError) (id : Nat)
    (h : ∀ t ∈ ts, ∃ u, l.busNeighbors t = [u]) : ∃ ps, l.facingPatches kind refuse id ts = .ok ps := by
  induction ts generalizing id with
  | nil => exact ⟨[], rfl⟩
  | cons t ts ih =>
    obtain ⟨u, hu⟩ := h t List.mem_cons_self
    obtain ⟨ps, hps⟩ := ih (id + 1) fun t ht => h t (List.mem_cons_of_mem _ ht)
    refine ⟨.facing kind id t u :: ps, ?_⟩
    rw [facingPatches, hu, hps]
    rfl

/-- A first pair that lies apart from the other tiles to the right of it is taken first. -/
theorem pairUp_lying {tiles : SortedSet Tile} (t : Tile) (rest : SortedSet Tile)
    (h : ∀ v, v ∈ tiles ↔ v = t ∨ v = t.right ∨ v ∈ rest)
    (hbefore : ∀ v ∈ rest, Ordered.before t v = true) (happ : ∀ v ∈ rest, ¬ grid.Adj t v) :
    pairUp tiles = (pairUp rest).map ((t, t.right) :: ·) := by
  have hright : grid.Adj t t.right := by simp [adj_grid]
  obtain ⟨ts, hts⟩ := SortedSet.exists_toList_eq_cons ((h t).2 (Or.inl rfl)) fun v hv hne => by
    rcases (h v).1 hv with rfl | rfl | hv
    · exact absurd rfl hne
    · exact before_right t
    · exact hbefore v hv
  have hfree : freeNeighbors tiles t = [t.right] := filter_neighbors_eq fun v => by
    rw [SortedSet.contains_iff, h]
    constructor
    · rintro ⟨hadj, rfl | rfl | hv⟩
      · exact absurd rfl hadj.ne
      · rfl
      · exact absurd hadj (happ v hv)
    · rintro rfl
      exact ⟨hright, Or.inr (Or.inl rfl)⟩
  have hrest : (tiles.erase t).erase t.right = rest := SortedSet.ext_mem fun v => by
    rw [mem_erase_pair, h]
    constructor
    · tauto
    · refine fun hv => ⟨Or.inr (Or.inr hv), ?_, ?_⟩
      · exact (Ordered.ne_of_before (hbefore v hv)).symm
      · rintro rfl
        exact happ _ hv hright
  have hne : tiles.isEmpty = false := SortedSet.isEmpty_eq_false_iff.2 ⟨t, (h t).2 (Or.inl rfl)⟩
  rw [pairUp_eq, hne, hts, forcedPair, hfree]
  dsimp only [bind, Except.bind]
  rw [hrest]
  cases pairUp rest <;> rfl

/-- The patches of a layout are found if each magic state and each storage has one bus tile beside it and
the zero-state tiles are paired up. -/
theorem exists_patches {pairs : List (Tile × Tile)}
    (hmagic : ∀ t ∈ l.magic, ∃ u, l.busNeighbors t = [u])
    (hstorage : ∀ t ∈ l.storage, ∃ u, l.busNeighbors t = [u]) (hzero : pairUp l.zero = .ok pairs) :
    ∃ ps, l.patches = .ok ps := by
  obtain ⟨magic, hmagic⟩ := @exists_facingPatches l l.magic.toList .magic
    .magicStateBusNeighbours 0 hmagic
  obtain ⟨storage, hstorage⟩ := @exists_facingPatches l l.storage.toList .storage
    .storageBusNeighbours 0 hstorage
  refine ⟨(l.data.toList.zipIdx.map fun p => Patch.oneTile .qubit p.2 p.1 .X) ++ magic ++ storage ++
    pairPatches pairs, ?_⟩
  rw [patches, hmagic, hstorage, zeroPatches_eq, hzero]
  rfl

end Layout

end LatticeSurgery
