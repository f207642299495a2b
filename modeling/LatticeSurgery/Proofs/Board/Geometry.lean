import LatticeSurgery.Proofs.Board.Facing
import LatticeSurgery.Proofs.Board.LayoutGraph
import LatticeSurgery.Proofs.Board.Weights

/-!
# The resource graph is the geometry of the layout

The nodes of the board of a layout stand for bus tiles and for boundaries of patches, and its edges for
sides that a bus tile shares with another bus tile or with a patch (`Board.Geometry`). The drawing of the
layout decides everything: which operator a side carries follows from the kind of the patch and from how
its tiles lie (`Carries`). Routes over the graph are routes over the plane for this reason.
-/

namespace LatticeSurgery

open Ordered LatticeSurgery.Graph Tile

/-- A node with one neighbour. -/
theorem Graph.WellFormed.degree_eq_one {g : Graph Node} (hg : g.WellFormed) {n : Node}
    (h : ∃! m, g.Adj n m) : g.degree n = 1 := by
  obtain ⟨m, hm, hunique⟩ := h
  have hperm : (g.neighbors n).Perm [m] := by
    refine (List.perm_ext_iff_of_nodup (hg.nodup n) (List.nodup_singleton m)).2 fun k => ?_
    rw [hg.mem_neighbors, List.mem_singleton]
    refine ⟨hunique k, ?_⟩
    rintro rfl
    exact hm
  exact hperm.length_eq

namespace Board

variable {l : Layout} {ps : List Patch} {b : Board} {t u : Tile} {i j : Nat}

/-- A node stands for a bus tile. -/
def BusTile (b : Board) (i : Nat) (t : Tile) : Prop :=
  b.graph.hasNode (.bus i) = true ∧ b.tilesOf (.bus i) = [t]

/-- The graph of a board shows the geometry of a layout with some patches. -/
structure Geometry (l : Layout) (ps : List Patch) (b : Board) : Prop where
  /-- A bus node stands for a tile of the bus. -/
  busTile : ∀ i, b.graph.hasNode (.bus i) = true → ∃ t ∈ l.bus, b.BusTile i t
  /-- Each bus tile has one node. -/
  busNode : ∀ t ∈ l.bus, ∃! i, b.BusTile i t
  /-- Two of them are joined, lightly, when their tiles share a side. -/
  busEdge : ∀ i j w, b.graph.weight? (.bus i) (.bus j) = some w ↔
    w = busWeight ∧ ∃ t u, b.BusTile i t ∧ b.BusTile j u ∧ grid.Adj t u
  /-- Each patch has a Z node, and data patches and zero states have an X node too. -/
  node : ∀ kind id basis, b.graph.hasNode (.boundary kind id basis) = true ↔
    (basis = .Z ∨ kind = .qubit ∨ kind = .zero) ∧ ∃ p ∈ ps, p.kind = kind ∧ p.id = id
  /-- The nodes of a patch stand for its tiles. -/
  tiles : ∀ p ∈ ps, ∀ basis, b.graph.hasNode (.boundary p.kind p.id basis) = true →
    b.tilesOf (.boundary p.kind p.id basis) = p.tiles
  /-- A node of a patch is joined to a bus node, heavily, when the patch and the tile share a side that
  carries the operator of the node. -/
  port : ∀ p ∈ ps, ∀ basis i w, b.graph.weight? (.boundary p.kind p.id basis) (.bus i) = some w ↔
    w = patchWeight ∧ ∃ t u, b.BusTile i u ∧ Carries p.kind p.tiles t u basis
  /-- A side that a patch and a bus tile share gives one edge, -/
  side : ∀ p ∈ ps, ∀ t ∈ p.tiles, ∀ i u, b.BusTile i u → grid.Adj t u →
    ∃! basis, b.graph.Adj (.boundary p.kind p.id basis) (.bus i)
  /-- and no two sides give the same one. -/
  inner : ∀ p ∈ ps, ∀ t ∈ p.tiles, ∀ t' ∈ p.tiles, ∀ u, grid.Adj t u → grid.Adj t' u → t = t'
  /-- Magic states and storages have one neighbour. -/
  deadEnd : ∀ kind id basis, kind = .magic ∨ kind = .storage →
    b.graph.hasNode (.boundary kind id basis) = true → b.graph.degree (.boundary kind id basis) = 1
  /-- There is no other edge. -/
  onBus : ∀ n m, b.graph.Adj n m → n.isBus = true ∨ m.isBus = true

/-! ## Tiles behind the nodes -/

/-- No two bus tiles and no two boundaries are one node. -/
theorem nodup_keys_tilesBehind (h : l.Patched ps) :
    (((busNumbers l).entries.map fun e => (Node.bus e.2, [e.1])) ++ ps.flatMap fun p =>
      p.kind.exposed.map fun basis => (Node.boundary p.kind p.id basis, p.tiles)).map
        Prod.fst |>.Nodup := by
  have hbus : ((busNumbers l).entries.map fun e => Node.bus e.2).Nodup := by
    refine List.Nodup.map_on ?_ (List.Nodup.of_map Prod.fst (busNumbers l).keySet.nodup)
    rintro ⟨t, i⟩ ht ⟨u, j⟩ hu heq
    cases heq
    rw [mem_entries_busNumbers] at ht hu
    exact Prod.ext (Option.some.inj (ht.symm.trans hu)) rfl
  have hpatch : (ps.flatMap fun p =>
      p.kind.exposed.map fun basis => Node.boundary p.kind p.id basis).Nodup := by
    rw [List.nodup_flatMap]
    constructor
    · intro p _
      cases p.kind <;> simp [PatchKind.exposed]
    · refine (List.pairwise_map.1 h.nodup_keys).imp fun hne => List.disjoint_left.2 ?_
      intro n hn hn'
      obtain ⟨basis, -, rfl⟩ := List.mem_map.1 hn
      obtain ⟨basis', -, heq⟩ := List.mem_map.1 hn'
      injection heq with hkind hid
      exact hne (Prod.ext hkind.symm hid.symm)
  rw [List.map_append, List.map_map, List.map_flatMap]
  simp only [List.map_map]
  refine List.nodup_append'.2 ⟨hbus, hpatch, List.disjoint_left.2 fun n hn hn' => ?_⟩
  obtain ⟨e, -, rfl⟩ := List.mem_map.1 hn
  obtain ⟨p, -, hp⟩ := List.mem_flatMap.1 hn'
  obtain ⟨basis, -, heq⟩ := List.mem_map.1 hp
  cases heq

theorem tilesOf_bus (h : l.Patched ps) (ht : l.bus.toList[i]? = some t) :
    (tilesBehind l ps).getD (.bus i) [] = [t] := by
  rw [SortedMap.getD, tilesBehind, (SortedMap.get?_ofList_iff (nodup_keys_tilesBehind h)).2]
  · rfl
  · exact List.mem_append_left _ (List.mem_map.2 ⟨(t, i), mem_entries_busNumbers.2 ht, rfl⟩)

theorem tilesOf_boundary (h : l.Patched ps) {p : Patch} (hp : p ∈ ps) {basis : Basis}
    (hbasis : basis ∈ p.kind.exposed) :
    (tilesBehind l ps).getD (.boundary p.kind p.id basis) [] = p.tiles := by
  rw [SortedMap.getD, tilesBehind, (SortedMap.get?_ofList_iff (nodup_keys_tilesBehind h)).2]
  · rfl
  · exact List.mem_append_right _ (List.mem_flatMap.2 ⟨p, hp, List.mem_map.2 ⟨basis, hbasis, rfl⟩⟩)

/-! ## The geometry -/

theorem mem_exposed_iff {kind : PatchKind} {basis : Basis} :
    basis ∈ kind.exposed ↔ basis = .Z ∨ kind = .qubit ∨ kind = .zero := by
  cases kind <;> cases basis <;> decide

theorem exists_patches (hb : ofLayout l = .ok b) :
    ∃ ps, l.patches = .ok ps ∧ b.graph = graphOf l ps ∧ b.tiles = tilesBehind l ps := by
  unfold ofLayout at hb
  obtain ⟨ps, hps, hb⟩ := exists_of_bind_eq_ok hb
  cases hb
  exact ⟨ps, hps, rfl, rfl⟩

section OfLayout

variable (hgraph : b.graph = graphOf l ps) (htiles : b.tiles = tilesBehind l ps)
  (hpatched : l.Patched ps)

include hgraph in
theorem hasNode_bus_iff : b.graph.hasNode (.bus i) = true ↔ ∃ t, l.bus.toList[i]? = some t := by
  rw [hgraph, hasNode_graphOf]
  constructor
  · rintro (⟨e, he, heq⟩ | ⟨p, -, basis, -, heq⟩)
    · cases heq
      exact ⟨e.1, mem_entries_busNumbers.1 he⟩
    · cases heq
  · rintro ⟨t, ht⟩
    exact Or.inl ⟨(t, i), mem_entries_busNumbers.2 ht, rfl⟩

include hgraph in
theorem hasNode_boundary_iff {kind : PatchKind} {id : Nat} {basis : Basis} :
    b.graph.hasNode (.boundary kind id basis) = true ↔
      (basis = .Z ∨ kind = .qubit ∨ kind = .zero) ∧ ∃ p ∈ ps, p.kind = kind ∧ p.id = id := by
  rw [hgraph, hasNode_graphOf, ← mem_exposed_iff]
  constructor
  · rintro (⟨e, -, heq⟩ | ⟨p, hp, basis', hexposed, heq⟩)
    · cases heq
    · cases heq
      exact ⟨hexposed, p, hp, rfl, rfl⟩
  · rintro ⟨hexposed, p, hp, rfl, rfl⟩
    exact Or.inr ⟨p, hp, basis, hexposed, rfl⟩

include hgraph htiles hpatched

/-- Bus nodes are numbered in the order of their tiles. -/
theorem busTile_iff : b.BusTile i t ↔ l.bus.toList[i]? = some t := by
  unfold BusTile
  rw [hasNode_bus_iff hgraph]
  constructor
  · rintro ⟨⟨u, hu⟩, ht⟩
    rw [tilesOf, htiles, tilesOf_bus hpatched hu] at ht
    rwa [← (List.cons.inj ht).1]
  · exact fun ht => ⟨⟨t, ht⟩, by rw [tilesOf, htiles, tilesOf_bus hpatched ht]⟩

/-- A boundary of a patch is joined to a bus node when the two share a side with its operator. -/
theorem adj_port_iff (hplaced : ∀ p ∈ ps, l.Placed p) {p : Patch} (hp : p ∈ ps) {basis : Basis} :
    b.graph.Adj (.boundary p.kind p.id basis) (.bus i) ↔
      ∃ t u, b.BusTile i u ∧ Carries p.kind p.tiles t u basis := by
  simp only [busTile_iff hgraph htiles hpatched]
  rw [hgraph, adj_boundary_graphOf hplaced]
  constructor
  · rintro ⟨q, hq, hk, hid, t, u, j, hcarries, hj, heq⟩
    obtain rfl := hpatched.eq_of_key hq hp hk hid
    cases heq
    exact ⟨t, u, hj, hcarries⟩
  · rintro ⟨t, u, hj, hcarries⟩
    exact ⟨p, hp, rfl, rfl, t, u, i, hcarries, hj, rfl⟩

end OfLayout

/-- The board of a layout that was made of roles shows the geometry of the layout. -/
theorem geometry_ofLayout {r : TileRoles} (hl : Layout.ofRoles r = .ok l) (hb : ofLayout l = .ok b) :
    ∃ ps, l.patches = .ok ps ∧ l.Patched ps ∧ Geometry l ps b := by
  have hgraded := graded_ofLayout hb
  have hlaid := laid_ofLayout hb
  obtain ⟨ps, hps, hgraph, htiles⟩ := exists_patches hb
  obtain ⟨hpatched, hplaced⟩ := Layout.of_patches hps
  have hbusTile : ∀ {i t}, b.BusTile i t ↔ l.bus.toList[i]? = some t :=
    busTile_iff hgraph htiles hpatched
  have hport : ∀ {p}, p ∈ ps → ∀ {basis i}, b.graph.Adj (.boundary p.kind p.id basis) (.bus i) ↔
      ∃ t u, b.BusTile i u ∧ Carries p.kind p.tiles t u basis :=
    fun hp _ _ => adj_port_iff hgraph htiles hpatched hplaced hp
  -- the weight of an edge follows from its ends
  have hweight : ∀ {n m w}, b.graph.weight? n m = some w ↔ w = stepWeight n m ∧ b.graph.Adj n m := by
    intro n m w
    refine ⟨fun h => ⟨hgraded n m w h, adj_iff.2 ⟨w, h⟩⟩, ?_⟩
    rintro ⟨rfl, hadj⟩
    exact hgraded.weight? hadj
  refine ⟨ps, hps, hpatched, ?_⟩
  constructor
  case busTile =>
    intro i hi
    obtain ⟨t, ht⟩ := (hasNode_bus_iff hgraph).1 hi
    exact ⟨t, List.mem_of_getElem? ht, hbusTile.2 ht⟩
  case busNode =>
    intro t ht
    obtain ⟨i, hi⟩ := List.mem_iff_getElem?.1 ht
    exact ⟨i, hbusTile.2 hi, fun j hj => eq_of_getElem?_bus (hbusTile.1 hj) hi⟩
  case busEdge =>
    intro i j w
    rw [hweight, stepWeight_bus, hgraph, adj_bus_graphOf]
    simp only [hbusTile]
  case node => exact fun _ _ _ => hasNode_boundary_iff hgraph
  case tiles =>
    intro p hp basis hn
    rw [tilesOf, htiles]
    exact tilesOf_boundary hpatched hp (mem_exposed_iff.2 ((hasNode_boundary_iff hgraph).1 hn).1)
  case port =>
    intro p hp basis i w
    rw [hweight, stepWeight_boundary, hport hp]
  case side =>
    intro p hp t ht i u hu hadj
    have hout : u ∉ p.tiles := fun hin => Layout.not_mem_bus_of_ofRoles hl
      (hpatched.mem_patchTiles hp hin) (List.mem_of_getElem? (hbusTile.1 hu))
    obtain ⟨basis, hcarries⟩ := (hplaced p hp).exists_carries ht hadj hout
    refine ⟨basis, (hport hp).2 ⟨t, u, hu, hcarries⟩, fun basis' hbasis' => ?_⟩
    obtain ⟨t', u', hu', hcarries'⟩ := (hport hp).1 hbasis'
    obtain rfl := Option.some.inj ((hbusTile.1 hu').symm.trans (hbusTile.1 hu))
    obtain rfl := (hplaced p hp).eq_of_adj hcarries'.mem ht hcarries'.adj hadj
    exact hcarries'.basis_unique hcarries
  case inner => exact fun p hp t ht t' ht' u => (hplaced p hp).eq_of_adj ht ht'
  case deadEnd =>
    intro kind id basis hkind hn
    refine hlaid.wellFormed.degree_eq_one ?_
    rw [hgraph] at hn ⊢
    exact existsUnique_adj_graphOf hps hkind hn
  case onBus => exact hlaid.onBus

/-- A row of bus tiles, with a data patch and a lying zero state above it, and a magic state and a
storage below. -/
def stationRoles : TileRoles where
  bus := [⟨0, 0⟩, ⟨1, 0⟩, ⟨2, 0⟩, ⟨3, 0⟩]
  data := [⟨0, 1⟩]
  magic := [⟨0, -1⟩]
  zero := [⟨2, 1⟩, ⟨3, 1⟩]
  storage := [⟨2, -1⟩]

/-- Three steps along the row and five sides: the zero state touches the row with X on the left and with
Z on the right. -/
theorem stationRoles_geometry : ∃ l b ps, Layout.ofRoles stationRoles = .ok l ∧ ofLayout l = .ok b ∧
    l.patches = .ok ps ∧ l.Patched ps ∧ Geometry l ps b ∧ b.graph.edgeCount = 8 ∧
    b.graph.weight? (.zero 0 .X) (.bus 2) = some patchWeight ∧
    b.graph.weight? (.zero 0 .Z) (.bus 3) = some patchWeight := by
  have hrun : (Layout.ofRoles stationRoles).toOption.any (fun l => (ofLayout l).toOption.any fun b =>
      decide (b.graph.edgeCount = 8 ∧ b.graph.weight? (.zero 0 .X) (.bus 2) = some patchWeight ∧
        b.graph.weight? (.zero 0 .Z) (.bus 3) = some patchWeight)) = true := by
    decide +kernel
  obtain ⟨l, hl, hrun⟩ := exists_of_any_toOption hrun
  obtain ⟨b, hb, hrun⟩ := exists_of_any_toOption hrun
  obtain ⟨ps, hps, hpatched, hgeometry⟩ := geometry_ofLayout hl hb
  exact ⟨l, b, ps, hl, hb, hps, hpatched, hgeometry, of_decide_eq_true hrun⟩

end Board

end LatticeSurgery
