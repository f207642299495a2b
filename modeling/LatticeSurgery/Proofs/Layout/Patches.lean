import LatticeSurgery.Proofs.Layout.PairUp
import LatticeSurgery.Proofs.Layout.Sides

/-!
# The patches of a layout

In a layout made of roles, no tile of a patch is a bus tile (`Layout.not_mem_bus_of_ofRoles`). The
patches of each kind are numbered from zero. Data patches, magic states and storages cover one tile each,
in the order of the tiles, and zero states two tiles side by side; every tile of a role belongs to one
patch (`Layout.Patched`).
-/

namespace LatticeSurgery

open Tile

namespace Layout

/-! ## Roles -/

section Roles

variable {ts : List Tile} {taken role taken' : SortedSet Tile} {t : Tile}

/-- Tiles that are given a role had none before, and have one afterwards. -/
theorem mem_of_occupy (h : occupy ts taken = .ok (role, taken')) :
    (∀ t, t ∈ role ↔ t ∈ ts) ∧ (∀ t, t ∈ taken' ↔ t ∈ taken ∨ t ∈ ts) ∧ ∀ t ∈ ts, t ∉ taken := by
  induction ts generalizing taken role with
  | nil =>
    cases h
    simp
  | cons t ts ih =>
    unfold occupy at h
    split at h
    · cases h
    · next hfree =>
      obtain ⟨⟨role', taken''⟩, hrest, h⟩ := exists_of_bind_eq_ok h
      cases h
      obtain ⟨hrole, htaken, hnew⟩ := ih hrest
      refine ⟨fun u => ?_, fun u => ?_, List.forall_mem_cons.2 ⟨hfree, fun u hu => ?_⟩⟩
      · rw [SortedSet.mem_insert, hrole, List.mem_cons]
      · rw [htaken, SortedSet.mem_insert, List.mem_cons]
        tauto
      · exact fun h => hnew u hu (SortedSet.mem_insert.2 (Or.inr h))

/-- A layout made of roles has no patch on the bus. -/
theorem not_mem_bus_of_ofRoles {r : TileRoles} {l : Layout} (h : ofRoles r = .ok l)
    (ht : t ∈ l.patchTiles) : t ∉ l.bus := by
  unfold ofRoles at h
  dsimp only at h
  split at h
  · cases h
  obtain ⟨⟨bus, taken₁⟩, hbus, h⟩ := exists_of_bind_eq_ok h
  obtain ⟨⟨data, taken₂⟩, hdata, h⟩ := exists_of_bind_eq_ok h
  obtain ⟨⟨magic, taken₃⟩, hmagic, h⟩ := exists_of_bind_eq_ok h
  obtain ⟨⟨zero, taken₄⟩, hzero, h⟩ := exists_of_bind_eq_ok h
  obtain ⟨⟨storage, taken₅⟩, hstorage, h⟩ := exists_of_bind_eq_ok h
  dsimp only at h
  split at h
  · cases h
  cases h
  obtain ⟨hbusRole, htaken₁, -⟩ := mem_of_occupy hbus
  obtain ⟨hdataRole, htaken₂, hdataFree⟩ := mem_of_occupy hdata
  obtain ⟨hmagicRole, htaken₃, hmagicFree⟩ := mem_of_occupy hmagic
  obtain ⟨hzeroRole, htaken₄, hzeroFree⟩ := mem_of_occupy hzero
  obtain ⟨hstorageRole, -, hstorageFree⟩ := mem_of_occupy hstorage
  -- a bus tile is taken when the other roles are given
  have hkept₁ : ∀ t, t ∈ bus → t ∈ taken₁ := fun t ht => (htaken₁ t).2 (Or.inr ((hbusRole t).1 ht))
  have hkept₂ : ∀ t, t ∈ bus → t ∈ taken₂ := fun t ht => (htaken₂ t).2 (Or.inl (hkept₁ t ht))
  have hkept₃ : ∀ t, t ∈ bus → t ∈ taken₃ := fun t ht => (htaken₃ t).2 (Or.inl (hkept₂ t ht))
  have hkept₄ : ∀ t, t ∈ bus → t ∈ taken₄ := fun t ht => (htaken₄ t).2 (Or.inl (hkept₃ t ht))
  intro hin
  simp only [patchTiles, List.mem_append, SortedSet.mem_toList] at ht
  rcases ht with ((ht | ht) | ht) | ht
  · exact hdataFree t ((hdataRole t).1 ht) (hkept₁ t hin)
  · exact hmagicFree t ((hmagicRole t).1 ht) (hkept₂ t hin)
  · exact hzeroFree t ((hzeroRole t).1 ht) (hkept₃ t hin)
  · exact hstorageFree t ((hstorageRole t).1 ht) (hkept₄ t hin)

end Roles

/-! ## Patches -/

/-- The tiles of the patches of a kind. -/
def tilesOf (l : Layout) : PatchKind → SortedSet Tile
  | .qubit => l.data
  | .magic => l.magic
  | .zero => l.zero
  | .storage => l.storage

/-- Patches of one kind, numbered from a first number on. -/
structure Numbered (kind : PatchKind) (first : Nat) (ps : List Patch) : Prop where
  kind : ∀ p ∈ ps, p.kind = kind
  ids : ps.map Patch.id = List.range' first ps.length

/-- The patches of a kind among others. -/
def ofKind (kind : PatchKind) (ps : List Patch) : List Patch :=
  ps.filter fun p => decide (p.kind = kind)

theorem mem_ofKind {kind : PatchKind} {ps : List Patch} {p : Patch} :
    p ∈ ofKind kind ps ↔ p ∈ ps ∧ p.kind = kind := by
  rw [ofKind, List.mem_filter, decide_eq_true_iff]

theorem ofKind_append (kind : PatchKind) (ps qs : List Patch) :
    ofKind kind (ps ++ qs) = ofKind kind ps ++ ofKind kind qs := List.filter_append ..

theorem Numbered.ofKind {kind kind' : PatchKind} {first : Nat} {ps : List Patch}
    (h : Numbered kind first ps) : Layout.ofKind kind' ps = if kind = kind' then ps else [] := by
  split
  · next heq => exact List.filter_eq_self.2 fun p hp => decide_eq_true ((h.kind p hp).trans heq)
  · next hne =>
    exact List.filter_eq_nil_iff.2 fun p hp hk => hne ((h.kind p hp).symm.trans (of_decide_eq_true hk))

/-- The patches of a layout. -/
structure Patched (l : Layout) (ps : List Patch) : Prop where
  /-- The patches of each kind are numbered from zero. -/
  numbered : ∀ kind, Numbered kind 0 (ofKind kind ps)
  /-- Patches other than zero states cover one tile each, in the order of the tiles. -/
  single : ∀ kind, kind ≠ .zero →
    (ofKind kind ps).map Patch.tiles = (l.tilesOf kind).toList.map fun t => [t]
  /-- A zero state covers two tiles side by side. -/
  double : ∀ p ∈ ps, p.kind = .zero → ∃ t, p.tiles = [t, t.right] ∨ p.tiles = [t, t.up]
  /-- Every zero-state tile belongs to one zero state. -/
  zero : ((ofKind .zero ps).flatMap Patch.tiles).Perm l.zero.toList

variable {l : Layout} {kind : PatchKind} {refuse : Tile → Nat → LayoutError} {id : Nat}
  {ts : List Tile} {ps : List Patch} {p : Patch}

/-- How the patch of a kind lies on its tiles. -/
inductive Placed (l : Layout) : Patch → Prop
  /-- A data patch has X above and below. -/
  | data (id : Nat) (t : Tile) : Placed l (.oneTile .qubit id t .X)
  /-- A magic state or a storage is turned to the only bus tile beside it. -/
  | facing {kind : PatchKind} (id : Nat) {t bus : Tile} (hkind : kind = .magic ∨ kind = .storage)
      (hbus : l.busNeighbors t = [bus]) : Placed l (.facing kind id t bus)
  /-- A zero state lies on two tiles, -/
  | lying (id : Nat) (t : Tile) : Placed l (.twoTile .zero id t t.right)
  /-- or stands on them. -/
  | standing (id : Nat) (t : Tile) : Placed l (.twoTile .zero id t t.up)

theorem placed_twoTile {t u : Tile} (h : grid.Adj t u) : Placed l (.twoTile .zero id t u) := by
  obtain ⟨v, heq | heq⟩ := Patch.exists_twoTile_eq .zero id h
  · exact heq ▸ .lying id v
  · exact heq ▸ .standing id v

theorem tiles_facing (kind : PatchKind) (id : Nat) (t bus : Tile) :
    (Patch.facing kind id t bus).tiles = [t] := by
  unfold Patch.facing
  split <;> rfl

/-- Patches that face the bus, one on each tile. -/
theorem of_facingPatches (hkind : kind = .magic ∨ kind = .storage)
    (h : l.facingPatches kind refuse id ts = .ok ps) :
    Numbered kind id ps ∧ ps.map Patch.tiles = ts.map (fun t => [t]) ∧ ∀ p ∈ ps, Placed l p := by
  induction ts generalizing id ps with
  | nil =>
    cases h
    exact ⟨⟨by simp, rfl⟩, rfl, by simp⟩
  | cons t ts ih =>
    unfold facingPatches at h
    split at h
    case h_2 => cases h
    next bus hbus =>
    obtain ⟨rest, hrest, h⟩ := exists_of_bind_eq_ok h
    cases h
    obtain ⟨hnumbered, htiles, hplaced⟩ := ih hrest
    obtain ⟨hk, hid⟩ := Patch.kind_of_facing kind id t bus
    refine ⟨⟨List.forall_mem_cons.2 ⟨hk, hnumbered.kind⟩, ?_⟩, ?_,
      List.forall_mem_cons.2 ⟨.facing id hkind hbus, hplaced⟩⟩
    · rw [List.map_cons, hid, hnumbered.ids, List.length_cons, List.range'_succ]
    · rw [List.map_cons, List.map_cons, tiles_facing, htiles]

theorem of_zeroPatches (h : l.zeroPatches = .ok ps) : Numbered .zero 0 ps ∧
    (ps.flatMap Patch.tiles).Perm l.zero.toList ∧ ∀ p ∈ ps, Placed l p := by
  rw [zeroPatches_eq] at h
  cases hpairs : pairUp l.zero with
  | error e =>
    rw [hpairs] at h
    cases h
  | ok pairs =>
    rw [hpairs] at h
    cases h
    obtain ⟨hperm, M, -, -, hadj⟩ := (pairUp_decides l.zero).matched pairs hpairs
    refine ⟨⟨fun p hp => ?_, ?_⟩, (tiles_pairPatches pairs).trans hperm, fun p hp => ?_⟩
    · obtain ⟨i, t, u, -, rfl⟩ := mem_pairPatches.1 hp
      rfl
    · rw [ids_pairPatches, List.range_eq_range']
    · obtain ⟨i, t, u, hi, rfl⟩ := mem_pairPatches.1 hp
      exact placed_twoTile ((hadj t u).2 (Or.inl (List.mem_of_getElem? hi))).adj_sub

theorem of_dataPatches (l : Layout) (ts : List Tile) :
    Numbered .qubit 0 (ts.zipIdx.map fun p => Patch.oneTile .qubit p.2 p.1 .X) ∧
    (ts.zipIdx.map fun p => Patch.oneTile .qubit p.2 p.1 .X).map Patch.tiles = ts.map (fun t => [t]) ∧
    ∀ p ∈ ts.zipIdx.map fun p => Patch.oneTile .qubit p.2 p.1 .X, Placed l p := by
  refine ⟨⟨fun p hp => ?_, ?_⟩, ?_, fun p hp => ?_⟩
  · obtain ⟨_, -, rfl⟩ := List.mem_map.1 hp
    rfl
  · rw [List.map_map, List.length_map, List.length_zipIdx, ← List.zipIdx_map_snd]
    rfl
  · rw [List.map_map]
    conv_rhs => rw [← List.zipIdx_map_fst 0 ts, List.map_map]
    rfl
  · obtain ⟨q, -, rfl⟩ := List.mem_map.1 hp
    exact .data q.2 q.1

theorem Placed.double (h : Placed l p) (hkind : p.kind = .zero) :
    ∃ t, p.tiles = [t, t.right] ∨ p.tiles = [t, t.up] := by
  cases h with
  | data id t => cases hkind
  | facing id h hbus =>
    rw [(Patch.kind_of_facing _ _ _ _).1] at hkind
    rcases h with rfl | rfl <;> cases hkind
  | lying id t => exact ⟨t, Or.inl (by rw [Patch.twoTile_right])⟩
  | standing id t => exact ⟨t, Or.inr (by rw [Patch.twoTile_up])⟩

theorem of_patches (h : l.patches = .ok ps) : l.Patched ps ∧ ∀ p ∈ ps, Placed l p := by
  unfold patches at h
  obtain ⟨magic, hmagic, h⟩ := exists_of_bind_eq_ok h
  obtain ⟨storage, hstorage, h⟩ := exists_of_bind_eq_ok h
  obtain ⟨zero, hzero, h⟩ := exists_of_bind_eq_ok h
  obtain ⟨hdata, hdataTiles, hdataPlaced⟩ := of_dataPatches l l.data.toList
  obtain ⟨hmagic, hmagicTiles, hmagicPlaced⟩ := of_facingPatches (Or.inl rfl) hmagic
  obtain ⟨hstorage, hstorageTiles, hstoragePlaced⟩ := of_facingPatches (Or.inr rfl) hstorage
  obtain ⟨hzero, hzeroTiles, hzeroPlaced⟩ := of_zeroPatches hzero
  cases h
  have hplaced : ∀ p ∈ l.data.toList.zipIdx.map (fun p => Patch.oneTile .qubit p.2 p.1 .X) ++ magic ++
      storage ++ zero, Placed l p := by
    simp only [List.forall_mem_append]
    exact ⟨⟨⟨hdataPlaced, hmagicPlaced⟩, hstoragePlaced⟩, hzeroPlaced⟩
  have hkind : ∀ kind, ofKind kind (l.data.toList.zipIdx.map (fun p =>
      Patch.oneTile .qubit p.2 p.1 .X) ++ magic ++ storage ++ zero) = match kind with
        | .qubit => l.data.toList.zipIdx.map fun p => Patch.oneTile .qubit p.2 p.1 .X
        | .magic => magic
        | .zero => zero
        | .storage => storage := by
    intro kind
    rw [ofKind_append, ofKind_append, ofKind_append, hdata.ofKind, hmagic.ofKind, hstorage.ofKind,
      hzero.ofKind]
    cases kind <;> simp
  refine ⟨⟨fun kind => ?_, fun kind hne => ?_, fun p hp => (hplaced p hp).double, ?_⟩, hplaced⟩
  · rw [hkind]
    cases kind <;> assumption
  · rw [hkind]
    cases kind
    · exact hdataTiles
    · exact hmagicTiles
    · exact absurd rfl hne
    · exact hstorageTiles
  · rwa [hkind]

/-- The patches of a layout are told apart by their kinds and numbers. -/
theorem Patched.nodup_keys (h : l.Patched ps) : (ps.map fun p => (p.kind, p.id)).Nodup := by
  have hids : ∀ kind, ((ofKind kind ps).map Patch.id).Nodup := fun kind => by
    rw [(h.numbered kind).ids]
    exact List.nodup_range'
  clear h
  induction ps with
  | nil => exact List.nodup_nil
  | cons p ps ih =>
    have hcons : ∀ kind, ofKind kind (p :: ps) = ofKind kind [p] ++ ofKind kind ps :=
      fun kind => ofKind_append kind [p] ps
    rw [List.map_cons, List.nodup_cons, List.mem_map]
    refine ⟨?_, ih fun kind => ?_⟩
    · rintro ⟨q, hq, heq⟩
      obtain ⟨hk, hid⟩ := Prod.mk.inj heq
      have hnodup := hids p.kind
      rw [hcons, List.map_append, List.nodup_append'] at hnodup
      refine hnodup.2.2 (List.mem_map_of_mem (mem_ofKind.2 ⟨List.mem_singleton_self p, rfl⟩)) ?_
      rw [← hid]
      exact List.mem_map_of_mem (mem_ofKind.2 ⟨hq, hk⟩)
    · have hnodup := hids kind
      rw [hcons, List.map_append] at hnodup
      exact hnodup.of_append_right

theorem Patched.eq_of_key (h : l.Patched ps) {q : Patch} (hp : p ∈ ps) (hq : q ∈ ps)
    (hkind : p.kind = q.kind) (hid : p.id = q.id) : p = q :=
  List.inj_on_of_nodup_map h.nodup_keys hp hq (Prod.ext hkind hid)

/-! ## Sides that touch the bus -/

/-- A patch covers tiles of a role only. -/
theorem Patched.mem_patchTiles (h : l.Patched ps) (hp : p ∈ ps) {t : Tile} (ht : t ∈ p.tiles) :
    t ∈ l.patchTiles := by
  have hmem : t ∈ l.tilesOf p.kind := by
    by_cases hzero : p.kind = .zero
    · rw [hzero]
      exact h.zero.mem_iff.1 (List.mem_flatMap.2 ⟨p, mem_ofKind.2 ⟨hp, hzero⟩, ht⟩)
    · have htiles : p.tiles ∈ (ofKind p.kind ps).map Patch.tiles :=
        List.mem_map_of_mem (mem_ofKind.2 ⟨hp, rfl⟩)
      rw [h.single p.kind hzero] at htiles
      obtain ⟨u, hu, heq⟩ := List.mem_map.1 htiles
      rw [← heq, List.mem_singleton] at ht
      exact ht ▸ hu
  simp only [patchTiles, List.mem_append, SortedSet.mem_toList]
  cases hkind : p.kind <;> rw [hkind, tilesOf] at hmem <;> simp [hmem]

/-- The only bus tile beside a tile. -/
theorem adj_of_busNeighbors {t bus : Tile} (hbus : l.busNeighbors t = [bus]) :
    grid.Adj t bus ∧ ∀ u ∈ l.bus, grid.Adj t u → u = bus := by
  constructor
  · have hin : bus ∈ l.busNeighbors t := hbus ▸ List.mem_singleton_self bus
    exact (List.mem_filter.1 hin).1
  · intro u hu hadj
    rw [← List.mem_singleton, ← hbus, busNeighbors, List.mem_filter, SortedSet.contains_iff]
    exact ⟨hadj, hu⟩

namespace Placed

variable {u : Tile} {basis : Basis}

/-- The sides of a patch that touch a bus tile, with the boundary that they belong to. -/
theorem carries_iff (h : Placed l p) (hu : u ∈ l.bus) :
    (∃ s ∈ p.sides, s.outer = u ∧ s.basis = basis ∧ basis ∈ p.kind.exposed) ↔
      ∃ t, Carries p.kind p.tiles t u basis := by
  cases h with
  | data id t =>
    simp only [Patch.oneTile, Carries.data_iff, List.mem_cons, List.not_mem_nil, or_false]
    constructor
    · rintro ⟨s, rfl | rfl | rfl | rfl, rfl, rfl, -⟩ <;> simp [Basis.flipped]
    · rintro ⟨v, rfl, ⟨rfl | rfl, rfl⟩ | ⟨rfl | rfl, rfl⟩⟩ <;>
        simp [PatchKind.exposed, Basis.flipped]
  | lying id t =>
    rw [Patch.twoTile_right]
    simp only [Carries.lying_iff, List.mem_cons, List.not_mem_nil, or_false]
    constructor
    · rintro ⟨s, rfl | rfl | rfl | rfl | rfl | rfl, rfl, rfl, -⟩ <;> simp
    · rintro ⟨v, ⟨rfl, ⟨rfl, rfl⟩ | ⟨rfl | rfl, rfl⟩⟩ | ⟨rfl, ⟨rfl | rfl, rfl⟩ | ⟨rfl, rfl⟩⟩⟩ <;>
        simp [PatchKind.exposed]
  | standing id t =>
    rw [Patch.twoTile_up]
    simp only [Carries.standing_iff, List.mem_cons, List.not_mem_nil, or_false]
    constructor
    · rintro ⟨s, rfl | rfl | rfl | rfl | rfl | rfl, rfl, rfl, -⟩ <;> simp
    · rintro ⟨v, ⟨rfl, ⟨rfl, rfl⟩ | ⟨rfl | rfl, rfl⟩⟩ | ⟨rfl, ⟨rfl | rfl, rfl⟩ | ⟨rfl, rfl⟩⟩⟩ <;>
        simp [PatchKind.exposed]
  | @facing kind id t bus hkind hbus =>
    obtain ⟨hadj, hmem⟩ := adj_of_busNeighbors hbus
    have hexposed : kind.exposed = [.Z] := by rcases hkind with rfl | rfl <;> rfl
    obtain ⟨⟨s, hs, hout⟩, hz⟩ := Patch.mem_sides_facing kind id hadj
    rw [(Patch.kind_of_facing kind id t bus).1, tiles_facing, hexposed]
    simp only [Carries.delivering_iff hkind, List.mem_singleton]
    constructor
    · rintro ⟨s', hs', rfl, hbasis, hz'⟩
      exact ⟨t, rfl, Patch.outer_of_facing hs', hz'⟩
    · rintro ⟨v, rfl, huv, rfl⟩
      rw [hmem u hu huv]
      exact ⟨s, hs, hout, hz s hs hout, rfl⟩

/-- A magic state or a storage is used through the side towards its only bus tile. -/
theorem exists_bus (h : Placed l p) (hkind : p.kind = .magic ∨ p.kind = .storage) :
    ∃ bus ∈ l.bus, ∀ u ∈ l.bus, ∀ basis,
      (∃ t, Carries p.kind p.tiles t u basis) ↔ u = bus ∧ basis = .Z := by
  cases h with
  | data id t => rcases hkind with hkind | hkind <;> cases hkind
  | lying id t => rcases hkind with hkind | hkind <;> cases hkind
  | standing id t => rcases hkind with hkind | hkind <;> cases hkind
  | @facing kind id t bus hfaces hbus =>
    obtain ⟨hadj, hmem⟩ := adj_of_busNeighbors hbus
    have hin : bus ∈ l.busNeighbors t := hbus ▸ List.mem_singleton_self bus
    refine ⟨bus, SortedSet.contains_iff.1 (List.mem_filter.1 hin).2, fun u hu basis => ?_⟩
    rw [(Patch.kind_of_facing kind id t bus).1, tiles_facing]
    simp only [Carries.delivering_iff hfaces, exists_eq_left]
    refine and_congr_left fun _ => ⟨hmem u hu, ?_⟩
    rintro rfl
    exact hadj

/-- Every side of a patch carries an operator through which the patch is used, towards the bus. -/
theorem exists_carries (h : Placed l p) {t : Tile} (ht : t ∈ p.tiles) (hadj : grid.Adj t u)
    (hu : u ∉ p.tiles) : ∃ basis, Carries p.kind p.tiles t u basis := by
  cases h with
  | data id v =>
    obtain rfl := List.mem_singleton.1 ht
    rcases mem_neighbors.1 hadj with rfl | rfl | rfl | rfl
    · exact ⟨.Z, .dataZ (Or.inr rfl)⟩
    · exact ⟨.X, .dataX (Or.inl rfl)⟩
    · exact ⟨.Z, .dataZ (Or.inl rfl)⟩
    · exact ⟨.X, .dataX (Or.inr rfl)⟩
  | facing id hkind hbus =>
    rw [tiles_facing] at ht ⊢
    obtain rfl := List.mem_singleton.1 ht
    rw [(Patch.kind_of_facing _ _ _ _).1]
    exact ⟨.Z, (Carries.delivering_iff hkind).2 ⟨rfl, hadj, rfl⟩⟩
  | lying id v =>
    rw [Patch.twoTile_right] at ht hu ⊢
    rcases mem_neighbors.1 hadj with rfl | rfl | rfl | rfl <;>
      rcases List.mem_pair.1 ht with rfl | rfl
    · simp at hu
    · exact ⟨.X, .rightX (Or.inl rfl)⟩
    · exact ⟨.Z, .leftZ (Or.inr rfl)⟩
    · exact ⟨.X, .rightX (Or.inr rfl)⟩
    · exact ⟨.Z, .leftZ (Or.inl rfl)⟩
    · simp at hu
    · exact ⟨.X, .leftX⟩
    · exact ⟨.Z, .rightZ⟩
  | standing id v =>
    rw [Patch.twoTile_up] at ht hu ⊢
    rcases mem_neighbors.1 hadj with rfl | rfl | rfl | rfl <;>
      rcases List.mem_pair.1 ht with rfl | rfl
    · exact ⟨.X, .lowerX⟩
    · exact ⟨.Z, .upperZ⟩
    · simp at hu
    · exact ⟨.X, .upperX (Or.inl rfl)⟩
    · exact ⟨.Z, .lowerZ (Or.inr rfl)⟩
    · exact ⟨.X, .upperX (Or.inr rfl)⟩
    · exact ⟨.Z, .lowerZ (Or.inl rfl)⟩
    · simp at hu

/-- A tile beside a patch touches one tile of it only. -/
theorem eq_of_adj (h : Placed l p) {t t' : Tile} (ht : t ∈ p.tiles) (ht' : t' ∈ p.tiles)
    (hadj : grid.Adj t u) (hadj' : grid.Adj t' u) : t = t' := by
  have hwhite : t.IsWhite ↔ t'.IsWhite := by
    have h₁ := isWhite_of_adj hadj
    have h₂ := isWhite_of_adj hadj'
    tauto
  have hdouble : ∀ v w, p.tiles = [v, w] → grid.Adj v w → t = t' := by
    intro v w htiles hvw
    have hcolour := isWhite_of_adj hvw
    rw [htiles, List.mem_pair] at ht ht'
    rcases ht with rfl | rfl <;> rcases ht' with rfl | rfl <;> tauto
  cases h with
  | data id v => exact (List.mem_singleton.1 ht).trans (List.mem_singleton.1 ht').symm
  | facing id hkind hbus =>
    rw [tiles_facing] at ht ht'
    exact (List.mem_singleton.1 ht).trans (List.mem_singleton.1 ht').symm
  | lying id v => exact hdouble v v.right (by rw [Patch.twoTile_right]) (by simp [adj_grid])
  | standing id v => exact hdouble v v.up (by rw [Patch.twoTile_up]) (by simp [adj_grid])

end Placed

end Layout

end LatticeSurgery
