import LatticeSurgery.Proofs.Board.OfLayout
import LatticeSurgery.Proofs.Layout.Patches

/-!
# The graph of a layout

The graph of a layout grows tile by tile and patch by patch. It has a node for each bus tile and for each
boundary through which a patch is used (`Board.hasNode_graphOf`). Bus tiles are joined when they lie side
by side (`Board.adj_bus_graphOf`), and a boundary is joined to the bus tiles that touch a side of its
patch with its operator (`Board.adj_boundary_graphOf`); magic states and storages touch one bus tile each
(`Board.existsUnique_adj_graphOf`).
-/

namespace LatticeSurgery

open Ordered LatticeSurgery.Graph Tile

namespace Board

variable {l : Layout} {ps : List Patch} {numbers : SortedMap Tile Nat} {g : Graph Node}
  {n m : Node} {t u : Tile} {i j : Nat}

/-! ## Numbers of bus tiles -/

/-- Bus tiles are numbered in order. -/
theorem get?_busNumbers : (busNumbers l).get? t = some i ↔ l.bus.toList[i]? = some t := by
  have hkeys : (l.bus.toList.zipIdx.map Prod.fst).Nodup := by
    rw [List.zipIdx_map_fst]
    exact l.bus.nodup
  rw [busNumbers, SortedMap.get?_ofList_iff hkeys]
  exact List.mk_mem_zipIdx_iff_getElem?

theorem mem_entries_busNumbers {e : Tile × Nat} :
    e ∈ (busNumbers l).entries ↔ l.bus.toList[e.2]? = some e.1 := by
  rw [← get?_busNumbers, ← SortedMap.mem_entries_iff]

/-- A bus tile has one number. -/
theorem eq_of_getElem?_bus (hi : l.bus.toList[i]? = some t) (hj : l.bus.toList[j]? = some t) :
    i = j := by
  obtain ⟨hlt, -⟩ := List.getElem?_eq_some_iff.1 hi
  exact (List.getElem?_inj hlt l.bus.nodup).1 (hi.trans hj.symm)

/-! ## What each tile and each patch adds -/

/-- What holds of a graph that grew by the entries of a list: it held before, or an entry brought it. -/
theorem foldl_grow_iff {β : Type} {f : Graph Node → β → Graph Node} {Q : Graph Node → Prop}
    {R : β → Prop} (hwell : ∀ g e, g.WellFormed → (f g e).WellFormed)
    (hstep : ∀ g e, g.WellFormed → (Q (f g e) ↔ Q g ∨ R e)) (es : List β) (hg : g.WellFormed) :
    Q (es.foldl f g) ↔ Q g ∨ ∃ e ∈ es, R e := by
  induction es generalizing g with
  | nil => simp
  | cons e es ih =>
    rw [List.foldl_cons, ih (hwell g e hg), hstep g e hg, or_assoc]
    simp

theorem adj_addEdge_iff {a b : Node} {w : Nat} :
    (g.addEdge a b w).Adj n m ↔ g.Adj n m ∨ s(n, m) = s(a, b) := by
  rw [adj_addEdge, Sym2.eq_iff]
  tauto

/-- The edges that a bus tile brings. -/
theorem adj_addBusTile (hg : g.WellFormed) (t : Tile) (i : Nat) :
    (addBusTile numbers g t i).Adj n m ↔ g.Adj n m ∨
      ∃ u ∈ [t.right, t.up], ∃ j, numbers.get? u = some j ∧ s(n, m) = s(.bus i, .bus j) := by
  unfold addBusTile
  rw [← adj_addNode (.bus i) (g := g)]
  refine foldl_grow_iff (Q := fun g => g.Adj n m) (fun g u hg => ?_) (fun g u hg => ?_) _ (hg.addNode _)
  · split
    · exact hg.addEdge _ _ _
    · exact hg
  · split
    · next j hj => simp [hj, adj_addEdge_iff]
    · next hnone => simp [hnone]

/-- The nodes that a bus tile brings. -/
theorem hasNode_addBusTile (hg : g.WellFormed) (t : Tile) (i : Nat) :
    (addBusTile numbers g t i).hasNode n = true ↔ (g.hasNode n = true ∨ n = .bus i) ∨
      ∃ u ∈ [t.right, t.up], ∃ j, numbers.get? u = some j ∧ (n = .bus i ∨ n = .bus j) := by
  unfold addBusTile
  rw [or_comm (a := g.hasNode n = true), ← hasNode_addNode (.bus i) (g := g)]
  refine foldl_grow_iff (Q := fun g => g.hasNode n = true) (fun g u hg => ?_) (fun g u hg => ?_) _
    (hg.addNode _)
  · split
    · exact hg.addEdge _ _ _
    · exact hg
  · split
    · next j hj =>
      rw [hasNode_addEdge hg, ← or_assoc, or_comm]
      simp [hj]
    · next hnone => simp [hnone]

/-- The edges that a patch brings, one for each of its sides that touches a bus tile. -/
theorem adj_addPatch (hg : g.WellFormed) (p : Patch) : (addPatch numbers g p).Adj n m ↔ g.Adj n m ∨
    ∃ s ∈ p.sides, s.basis ∈ p.kind.exposed ∧ ∃ j, numbers.get? s.outer = some j ∧
      s(n, m) = s(.boundary p.kind p.id s.basis, .bus j) := by
  unfold addPatch
  rw [← adj_foldl_addNode g (Node.boundary p.kind p.id) p.kind.exposed]
  refine foldl_grow_iff (Q := fun g => g.Adj n m) (fun g s hg => ?_) (fun g s hg => ?_) _
    (hg.foldl_addNode _ _)
  · split
    · split
      · exact hg.addEdge _ _ _
      · exact hg
    · exact hg
  · split
    · next hexposed =>
      rw [List.contains_iff_mem] at hexposed
      split
      · next j hj => simp [hexposed, hj, adj_addEdge_iff]
      · next hnone => simp [hnone]
    · next hhidden =>
      rw [List.contains_iff_mem] at hhidden
      simp [hhidden]

/-- The nodes that a patch brings, one for each boundary through which it is used. -/
theorem hasNode_addPatch (hg : g.WellFormed) (p : Patch) :
    (addPatch numbers g p).hasNode n = true ↔
      (g.hasNode n = true ∨ ∃ basis ∈ p.kind.exposed, n = .boundary p.kind p.id basis) ∨
      ∃ s ∈ p.sides, s.basis ∈ p.kind.exposed ∧ ∃ j, numbers.get? s.outer = some j ∧
        (n = .boundary p.kind p.id s.basis ∨ n = .bus j) := by
  unfold addPatch
  rw [← hasNode_foldl_addNode g (Node.boundary p.kind p.id) p.kind.exposed]
  refine foldl_grow_iff (Q := fun g => g.hasNode n = true) (fun g s hg => ?_) (fun g s hg => ?_) _
    (hg.foldl_addNode _ _)
  · split
    · split
      · exact hg.addEdge _ _ _
      · exact hg
    · exact hg
  · split
    · next hexposed =>
      rw [List.contains_iff_mem] at hexposed
      split
      · next j hj =>
        rw [hasNode_addEdge hg, ← or_assoc, or_comm]
        simp [hexposed, hj]
      · next hnone => simp [hnone]
    · next hhidden =>
      rw [List.contains_iff_mem] at hhidden
      simp [hhidden]

/-! ## The graph -/

/-- The bus tiles are entered first. -/
theorem wellFormed_busPart (l : Layout) : ((busNumbers l).entries.foldl
    (fun g e => addBusTile (busNumbers l) g e.1 e.2) ∅).WellFormed :=
  wellFormed_foldl _ (fun _ e hg => wellFormed_addBusTile hg e.1 e.2) wellFormed_empty

theorem adj_graphOf : (graphOf l ps).Adj n m ↔
    (∃ e ∈ (busNumbers l).entries, ∃ u ∈ [e.1.right, e.1.up], ∃ j,
      (busNumbers l).get? u = some j ∧ s(n, m) = s(.bus e.2, .bus j)) ∨
    ∃ p ∈ ps, ∃ s ∈ p.sides, s.basis ∈ p.kind.exposed ∧ ∃ j,
      (busNumbers l).get? s.outer = some j ∧ s(n, m) = s(.boundary p.kind p.id s.basis, .bus j) := by
  refine (foldl_grow_iff (Q := fun g => g.Adj n m) (fun _ p hg => wellFormed_addPatch hg p)
    (fun _ p hg => adj_addPatch hg p) ps (wellFormed_busPart l)).trans (or_congr_left ?_)
  refine (foldl_grow_iff (Q := fun g => g.Adj n m) (fun _ e hg => wellFormed_addBusTile hg e.1 e.2)
    (fun _ e hg => adj_addBusTile hg e.1 e.2) _ wellFormed_empty).trans ?_
  exact or_iff_right (not_adj_empty n m)

theorem hasNode_graphOf : (graphOf l ps).hasNode n = true ↔
    (∃ e ∈ (busNumbers l).entries, n = .bus e.2) ∨
      ∃ p ∈ ps, ∃ basis ∈ p.kind.exposed, n = .boundary p.kind p.id basis := by
  have hlisted : ∀ {u j}, (busNumbers l).get? u = some j →
      ∃ e ∈ (busNumbers l).entries, Node.bus j = .bus e.2 := fun h =>
    ⟨_, SortedMap.mem_entries_iff.2 h, rfl⟩
  refine (foldl_grow_iff (Q := fun g => g.hasNode n = true) (fun _ p hg => wellFormed_addPatch hg p)
    (fun _ p hg => (hasNode_addPatch hg p).trans or_assoc) ps (wellFormed_busPart l)).trans ?_
  rw [foldl_grow_iff (Q := fun g => g.hasNode n = true) (fun _ e hg => wellFormed_addBusTile hg e.1 e.2)
    (fun _ e hg => (hasNode_addBusTile hg e.1 e.2).trans or_assoc) _ wellFormed_empty,
    not_hasNode_empty]
  constructor
  · rintro ((h | ⟨e, he, rfl | ⟨u, -, j, hj, rfl | rfl⟩⟩) |
      ⟨p, hp, ⟨basis, hbasis, rfl⟩ | ⟨s, -, hbasis, j, hj, rfl | rfl⟩⟩)
    · cases h
    · exact Or.inl ⟨e, he, rfl⟩
    · exact Or.inl ⟨e, he, rfl⟩
    · exact Or.inl (hlisted hj)
    · exact Or.inr ⟨p, hp, basis, hbasis, rfl⟩
    · exact Or.inr ⟨p, hp, s.basis, hbasis, rfl⟩
    · exact Or.inl (hlisted hj)
  · rintro (⟨e, he, rfl⟩ | ⟨p, hp, basis, hbasis, rfl⟩)
    · exact Or.inl (Or.inr ⟨e, he, Or.inl rfl⟩)
    · exact Or.inr ⟨p, hp, Or.inl ⟨basis, hbasis, rfl⟩⟩

/-- Two bus tiles are joined when they lie side by side. -/
theorem adj_bus_graphOf : (graphOf l ps).Adj (.bus i) (.bus j) ↔
    ∃ t u, l.bus.toList[i]? = some t ∧ l.bus.toList[j]? = some u ∧ grid.Adj t u := by
  rw [adj_graphOf]
  constructor
  · rintro (⟨e, he, u, hu, k, hk, heq⟩ | ⟨p, -, s, -, -, k, -, heq⟩)
    · rw [mem_entries_busNumbers] at he
      rw [get?_busNumbers] at hk
      have hadj : grid.Adj e.1 u := by
        rcases List.mem_pair.1 hu with rfl | rfl <;> simp [adj_grid]
      rcases Sym2.eq_iff.1 heq with ⟨hi, hj⟩ | ⟨hi, hj⟩ <;> cases hi <;> cases hj
      · exact ⟨e.1, u, he, hk, hadj⟩
      · exact ⟨u, e.1, hk, he, hadj.symm⟩
    · rcases Sym2.eq_iff.1 heq with ⟨hi, -⟩ | ⟨-, hj⟩
      · cases hi
      · cases hj
  · rintro ⟨t, u, ht, hu, hadj⟩
    refine Or.inl ?_
    simp only [Prod.exists, mem_entries_busNumbers, get?_busNumbers]
    rcases cases_of_adj hadj with rfl | rfl | rfl | rfl
    · exact ⟨t, i, ht, t.right, by simp, j, hu, rfl⟩
    · exact ⟨t, i, ht, t.up, by simp, j, hu, rfl⟩
    · exact ⟨u, j, hu, u.right, by simp, i, ht, Sym2.eq_swap⟩
    · exact ⟨u, j, hu, u.up, by simp, i, ht, Sym2.eq_swap⟩

variable {kind : PatchKind} {id : Nat} {basis : Basis}

/-- A boundary is joined to the bus tiles that touch a side of its patch with its operator. -/
theorem adj_boundary_graphOf (hplaced : ∀ p ∈ ps, l.Placed p) :
    (graphOf l ps).Adj (.boundary kind id basis) m ↔ ∃ p ∈ ps, p.kind = kind ∧ p.id = id ∧
      ∃ t u j, Carries kind p.tiles t u basis ∧ l.bus.toList[j]? = some u ∧ m = .bus j := by
  rw [adj_graphOf]
  constructor
  · rintro (⟨e, -, u, -, k, -, heq⟩ | ⟨p, hp, s, hs, hexposed, j, hj, heq⟩)
    · rcases Sym2.eq_iff.1 heq with ⟨hi, -⟩ | ⟨hi, -⟩ <;> cases hi
    · rcases Sym2.eq_iff.1 heq with ⟨hn, rfl⟩ | ⟨hn, -⟩
      · cases hn
        rw [get?_busNumbers] at hj
        obtain ⟨t, hcarries⟩ := ((hplaced p hp).carries_iff (List.mem_of_getElem? hj)).1
          ⟨s, hs, rfl, rfl, hexposed⟩
        exact ⟨p, hp, rfl, rfl, t, s.outer, j, hcarries, hj, rfl⟩
      · cases hn
  · rintro ⟨p, hp, rfl, rfl, t, u, j, hcarries, hj, rfl⟩
    obtain ⟨s, hs, rfl, rfl, hexposed⟩ :=
      ((hplaced p hp).carries_iff (List.mem_of_getElem? hj)).2 ⟨t, hcarries⟩
    exact Or.inr ⟨p, hp, s, hs, hexposed, j, get?_busNumbers.2 hj, rfl⟩

/-- A magic state or a storage has one neighbour. -/
theorem existsUnique_adj_graphOf (h : l.patches = .ok ps) (hkind : kind = .magic ∨ kind = .storage)
    (hn : (graphOf l ps).hasNode (.boundary kind id basis) = true) :
    ∃! m, (graphOf l ps).Adj (.boundary kind id basis) m := by
  obtain ⟨hpatched, hplaced⟩ := Layout.of_patches h
  rcases hasNode_graphOf.1 hn with ⟨e, -, heq⟩ | ⟨p, hp, basis', hexposed, heq⟩
  · cases heq
  cases heq
  obtain ⟨bus, hbus, honly⟩ := (hplaced p hp).exists_bus hkind
  have hz : basis = .Z := by
    rcases hkind with hk | hk <;> rw [hk] at hexposed <;> exact List.mem_singleton.1 hexposed
  obtain ⟨j, hj⟩ := List.mem_iff_getElem?.1 hbus
  obtain ⟨t, hcarries⟩ := (honly bus hbus basis).2 ⟨rfl, hz⟩
  refine ⟨.bus j, (adj_boundary_graphOf hplaced).2 ⟨p, hp, rfl, rfl, t, bus, j, hcarries, hj, rfl⟩, ?_⟩
  intro m hm
  obtain ⟨q, hq, hqk, hqid, t', u, i, hcarries', hi, rfl⟩ := (adj_boundary_graphOf hplaced).1 hm
  obtain rfl := hpatched.eq_of_key hq hp hqk hqid
  have hu : u = bus := ((honly u (List.mem_of_getElem? hi) basis).1 ⟨t', hcarries'⟩).1
  exact congrArg Node.bus (eq_of_getElem?_bus hi (hu ▸ hj))

end Board

end LatticeSurgery
