import LatticeSurgery.Proofs.Collections
import LatticeSurgery.Tile
import Mathlib.Combinatorics.SimpleGraph.Matching
import Mathlib.Dynamics.PeriodicPts.Defs

/-!
# Matchings of tiles

Tiles that lie side by side are joined in the graph of the grid (`Tile.grid`), and a set of tiles is
paired up by a perfect matching of it (`Tile.PerfectMatching`). A tile with a single neighbour in the
set is matched with it in every perfect matching, so the two can be taken away
(`existsUnique_iff_of_forced`). If every tile has several neighbours, no perfect matching is the only
one (`PerfectMatching.exists_other`): a partner other than the one of the matching leads from tile to tile
of one colour of the chessboard, and along a cycle of these tiles all partners can be exchanged.
-/

namespace LatticeSurgery

/-- A map of a finite set into itself permutes some points, and the other points can be kept. -/
theorem exists_perm_of_finite {α : Type} [Finite α] [Nonempty α] (f : α → α) :
    ∃ g : Equiv.Perm α, (∀ a, g a = f a ∨ g a = a) ∧ ∃ a, g a = f a := by
  classical
  obtain ⟨a⟩ := ‹Nonempty α›
  -- the points that return after the same number of steps as one point on the way of `a`
  obtain ⟨i, j, hne, hloop⟩ := Finite.exists_ne_map_eq_of_infinite fun k : ℕ => f^[k] a
  wlog hij : i < j generalizing i j
  · exact this j i hne.symm hloop.symm (by omega)
  have hbij := Function.bijOn_ptsOfPeriod f (n := j - i) (by omega)
  have hmem : f^[i] a ∈ Function.ptsOfPeriod f (j - i) := by
    rw [Function.mem_ptsOfPeriod, Function.IsPeriodicPt, Function.IsFixedPt,
      ← Function.iterate_add_apply, Nat.sub_add_cancel hij.le]
    exact hloop.symm
  have hcycle : ∀ c ∈ Function.ptsOfPeriod f (j - i), Equiv.Perm.ofSubtype hbij.equiv c = f c :=
    fun c hc => Equiv.Perm.ofSubtype_apply_of_mem _ hc
  refine ⟨Equiv.Perm.ofSubtype hbij.equiv, fun c => ?_, f^[i] a, hcycle _ hmem⟩
  by_cases hc : c ∈ Function.ptsOfPeriod f (j - i)
  · exact Or.inl (hcycle c hc)
  · exact Or.inr (Equiv.Perm.ofSubtype_apply_of_not_mem _ hc)

namespace Tile

variable {t u v w : Tile}

@[simp] theorem mem_neighbors :
    u ∈ t.neighbors ↔ u = t.right ∨ u = t.up ∨ u = t.left ∨ u = t.down := by
  simp [neighbors]

theorem nodup_neighbors (t : Tile) : t.neighbors.Nodup := by
  simp [neighbors, right, up, left, down]
  omega

theorem mem_neighbors_comm : u ∈ t.neighbors ↔ t ∈ u.neighbors := by
  obtain ⟨x, y⟩ := t
  obtain ⟨x', y'⟩ := u
  simp only [mem_neighbors, right, up, left, down, Tile.mk.injEq]
  omega

/-- The graph of the grid: tiles are joined when they lie side by side. -/
def grid : SimpleGraph Tile where
  Adj t u := u ∈ t.neighbors
  symm := ⟨fun _ _ => mem_neighbors_comm.1⟩
  loopless := ⟨fun t h => by
    obtain ⟨x, y⟩ := t
    simp only [mem_neighbors, right, up, left, down, Tile.mk.injEq] at h
    omega⟩

theorem adj_grid : grid.Adj t u ↔ u ∈ t.neighbors := Iff.rfl

/-- The chessboard has two colours. -/
def IsWhite (t : Tile) : Prop := (t.x + t.y) % 2 = 0

/-- Tiles side by side have different colours. -/
theorem isWhite_of_adj (h : grid.Adj t u) : u.IsWhite ↔ ¬ t.IsWhite := by
  obtain ⟨x, y⟩ := t
  obtain ⟨x', y'⟩ := u
  simp only [adj_grid, mem_neighbors, right, up, left, down, Tile.mk.injEq] at h
  simp only [IsWhite]
  omega

/-- A perfect matching of a set of tiles: every tile of the set, and no other tile, has exactly one
partner, which lies beside it. -/
structure PerfectMatching (tiles : SortedSet Tile) (M : grid.Subgraph) : Prop where
  isMatching : M.IsMatching
  verts : M.verts = {t | t ∈ tiles}

variable {tiles : SortedSet Tile} {M M' : grid.Subgraph}

namespace PerfectMatching

theorem mem_iff (hM : PerfectMatching tiles M) : t ∈ M.verts ↔ t ∈ tiles := by
  rw [hM.verts]
  exact Iff.rfl

theorem exists_adj (hM : PerfectMatching tiles M) (ht : t ∈ tiles) : ∃ u, M.Adj t u :=
  (hM.isMatching (hM.mem_iff.2 ht)).exists

theorem mem_left (hM : PerfectMatching tiles M) (h : M.Adj t u) : t ∈ tiles := hM.mem_iff.1 h.fst_mem

theorem mem_right (hM : PerfectMatching tiles M) (h : M.Adj t u) : u ∈ tiles := hM.mem_left h.symm

/-- A perfect matching whose pairs are all pairs of another one is the other one. -/
theorem eq_of_le (hM : PerfectMatching tiles M) (hM' : PerfectMatching tiles M')
    (hle : ∀ t u, M.Adj t u → M'.Adj t u) : M = M' := by
  refine SimpleGraph.Subgraph.ext (hM.verts.trans hM'.verts.symm) ?_
  ext t u
  refine ⟨hle t u, fun h => ?_⟩
  obtain ⟨v, hv⟩ := hM.exists_adj (hM'.mem_left h)
  rwa [hM'.isMatching.eq_of_adj_left h (hle t v hv)]

end PerfectMatching

/-! ## Forced pairs -/

section Forced

theorem mem_erase_pair : v ∈ (tiles.erase t).erase u ↔ v ∈ tiles ∧ v ≠ t ∧ v ≠ u := by
  simp only [SortedSet.mem_erase, ne_comm, and_assoc]

/-- A pair of a perfect matching can be taken away. -/
theorem PerfectMatching.remove (hM : PerfectMatching tiles M) (h : M.Adj t u) :
    PerfectMatching ((tiles.erase t).erase u) (M.deleteVerts {t, u}) := by
  constructor
  · rintro v ⟨hv, hout⟩
    obtain ⟨w, hw, hunique⟩ := hM.isMatching hv
    simp only [Set.mem_insert_iff, Set.mem_singleton_iff, not_or] at hout
    have hwt : w ≠ t := by
      rintro rfl
      exact hout.2 (hM.isMatching.eq_of_adj_right hw h.symm)
    have hwu : w ≠ u := by
      rintro rfl
      exact hout.1 (hM.isMatching.eq_of_adj_right hw h)
    refine ⟨w, ?_, fun w' hw' => hunique w' (SimpleGraph.Subgraph.deleteVerts_le.2 hw')⟩
    simp [hv, hout, hw.snd_mem, hwt, hwu, hw]
  · ext v
    rw [SimpleGraph.Subgraph.deleteVerts_verts, Set.mem_sdiff, hM.mem_iff, Set.mem_ofPred_eq,
      mem_erase_pair]
    simp

/-- The pairs of a perfect matching from which one was taken away. -/
theorem PerfectMatching.adj_remove_iff (hM : PerfectMatching tiles M) (h : M.Adj t u) :
    M.Adj v w ↔ (M.deleteVerts {t, u}).Adj v w ∨ s(v, w) = s(t, u) := by
  constructor
  · intro hvw
    by_cases hpair : s(v, w) = s(t, u)
    · exact Or.inr hpair
    · have hout : ∀ {x y}, M.Adj x y → s(x, y) ≠ s(t, u) → x ≠ t ∧ x ≠ u := by
        intro x y hxy hne
        constructor <;> rintro rfl
        · exact hne (by rw [hM.isMatching.eq_of_adj_left hxy h])
        · exact hne (by rw [hM.isMatching.eq_of_adj_left hxy h.symm, Sym2.eq_swap])
      have hv := hout hvw hpair
      have hw := hout hvw.symm (Sym2.eq_swap.trans_ne hpair)
      exact Or.inl (by simp [hvw.fst_mem, hvw.snd_mem, hv, hw, hvw])
  · rintro (hvw | heq)
    · exact SimpleGraph.Subgraph.deleteVerts_le.2 hvw
    · rcases Sym2.eq_iff.1 heq with ⟨rfl, rfl⟩ | ⟨rfl, rfl⟩
      · exact h
      · exact h.symm

/-- Two tiles side by side can be added to a perfect matching of the other tiles. -/
theorem PerfectMatching.add (hM : PerfectMatching ((tiles.erase t).erase u) M) (ht : t ∈ tiles)
    (hu : u ∈ tiles) (h : grid.Adj t u) : PerfectMatching tiles (M ⊔ grid.subgraphOfAdj h) := by
  constructor
  · refine hM.isMatching.sup (.subgraphOfAdj h) ?_
    rw [hM.isMatching.support_eq_verts,
      (SimpleGraph.Subgraph.IsMatching.subgraphOfAdj h).support_eq_verts, Set.disjoint_left]
    intro v hv
    rw [hM.mem_iff, mem_erase_pair] at hv
    simp [hv.2.1, hv.2.2]
  · ext v
    simp only [SimpleGraph.Subgraph.verts_sup, Set.mem_union, hM.mem_iff, mem_erase_pair,
      SimpleGraph.subgraphOfAdj_verts, Set.mem_insert_iff, Set.mem_singleton_iff, Set.mem_ofPred_eq]
    constructor
    · rintro (hv | rfl | rfl)
      · exact hv.1
      · exact ht
      · exact hu
    · tauto

variable (ht : t ∈ tiles) (hu : u ∈ tiles) (hforced : ∀ v ∈ tiles, grid.Adj t v ↔ v = u)

include ht hforced

/-- A tile with a single neighbour in the set is matched with it. -/
theorem PerfectMatching.adj_of_forced (hM : PerfectMatching tiles M) : M.Adj t u := by
  obtain ⟨v, hv⟩ := hM.exists_adj ht
  rwa [(hforced v (hM.mem_right hv)).1 hv.adj_sub] at hv

include hu

theorem existsUnique_iff_of_forced : (∃! M, PerfectMatching tiles M) ↔
    ∃! M, PerfectMatching ((tiles.erase t).erase u) M := by
  have hadj : grid.Adj t u := (hforced u hu).2 rfl
  constructor
  · rintro ⟨M, hM, hunique⟩
    have htu := hM.adj_of_forced ht hforced
    refine ⟨_, hM.remove htu, fun M' hM' => hM'.eq_of_le (hM.remove htu) fun v w hvw => ?_⟩
    have hsup : M.Adj v w := by
      rw [← hunique _ (hM'.add ht hu hadj)]
      exact Or.inl hvw
    refine ((hM.adj_remove_iff htu).1 hsup).resolve_right fun heq => ?_
    have hv := mem_erase_pair.1 (hM'.mem_left hvw)
    have hmem : v ∈ s(t, u) := heq ▸ Sym2.mem_mk_left v w
    exact (Sym2.mem_iff.1 hmem).elim hv.2.1 hv.2.2
  · rintro ⟨M', hM', hunique⟩
    refine ⟨_, hM'.add ht hu hadj, fun M hM => ?_⟩
    have htu := hM.adj_of_forced ht hforced
    refine hM.eq_of_le (hM'.add ht hu hadj) fun v w hvw => ?_
    refine ((hM.adj_remove_iff htu).1 hvw).imp (fun h => ?_) Eq.symm
    rwa [hunique _ (hM.remove htu)] at h

end Forced

/-! ## Exchanges along a cycle -/

variable (tiles) in
/-- The white tiles of a set. -/
def whiteTiles : Set Tile := {t | t ∈ tiles ∧ t.IsWhite}

variable (tiles) in
/-- The black tiles of a set. -/
def blackTiles : Set Tile := {t | t ∈ tiles ∧ ¬ t.IsWhite}

theorem finite_whiteTiles (tiles : SortedSet Tile) : (whiteTiles tiles).Finite :=
  (List.finite_toSet tiles.toList).subset fun _ ht => ht.1

theorem whiteTiles_union_blackTiles : whiteTiles tiles ∪ blackTiles tiles = {t | t ∈ tiles} := by
  ext t
  exact ⟨fun ht => ht.elim And.left And.left, fun ht => (em t.IsWhite).imp (⟨ht, ·⟩) (⟨ht, ·⟩)⟩

/-- A perfect matching as a bijection between the white tiles and the black ones. -/
theorem PerfectMatching.exists_equiv (hM : PerfectMatching tiles M) :
    ∃ e : whiteTiles tiles ≃ blackTiles tiles, ∀ t : whiteTiles tiles, M.Adj t (e t) := by
  choose! mate hmate using fun t (ht : t ∈ tiles) => hM.exists_adj ht
  have hback : ∀ t ∈ tiles, mate (mate t) = t := fun t ht =>
    hM.isMatching.eq_of_adj_left (hmate _ (hM.mem_right (hmate t ht))) (hmate t ht).symm
  have hcolour : ∀ t ∈ tiles, (mate t).IsWhite ↔ ¬ t.IsWhite := fun t ht =>
    isWhite_of_adj (hmate t ht).adj_sub
  let e : whiteTiles tiles ≃ blackTiles tiles :=
    { toFun := fun t => ⟨mate t, hM.mem_right (hmate t t.2.1), fun h => (hcolour t t.2.1).1 h t.2.2⟩
      invFun := fun t => ⟨mate t, hM.mem_right (hmate t t.2.1), (hcolour t t.2.1).2 t.2.2⟩
      left_inv := fun t => Subtype.ext (hback t t.2.1)
      right_inv := fun t => Subtype.ext (hback t t.2.1) }
  exact ⟨e, fun t => hmate t t.2.1⟩

/-- A bijection between the tiles of both colours that goes along edges of a part of the grid is a perfect
matching within this part. -/
theorem exists_of_equiv {H : SimpleGraph Tile} (hH : H ≤ grid) {e : whiteTiles tiles ≃ blackTiles tiles}
    (he : ∀ t : whiteTiles tiles, H.Adj t (e t)) :
    ∃ M, PerfectMatching tiles M ∧ ∀ t u, M.Adj t u → H.Adj t u := by
  obtain ⟨M, hverts, hM⟩ := SimpleGraph.Subgraph.IsMatching.exists_of_disjoint_sets_of_equiv
    (Set.disjoint_left.2 fun _ ht hu => hu.2 ht.2) e he
  refine ⟨M.map (.ofLE hH), ⟨hM.map_ofLE hH, ?_⟩, ?_⟩
  · rw [SimpleGraph.Subgraph.map_verts, hverts, whiteTiles_union_blackTiles]
    exact Set.image_id _
  · rintro t u ⟨t', u', htu, rfl, rfl⟩
    exact htu.adj_sub

/-- If every tile has a neighbour in the set besides any given one, a perfect matching is not the only
one. -/
theorem PerfectMatching.exists_other (hM : PerfectMatching tiles M) (hne : ∃ t, t ∈ tiles)
    (hseveral : ∀ t ∈ tiles, ∀ u, ∃ v ∈ tiles, grid.Adj t v ∧ v ≠ u) :
    ∃ M', PerfectMatching tiles M' ∧ M' ≠ M := by
  obtain ⟨e, he⟩ := hM.exists_equiv
  have hother : ∀ t : whiteTiles tiles, ∃ u : blackTiles tiles, grid.Adj t u ∧ u ≠ e t := by
    intro t
    obtain ⟨u, hu, hadj, hne⟩ := hseveral t t.2.1 (e t)
    exact ⟨⟨u, hu, fun h => (isWhite_of_adj hadj).1 h t.2.2⟩, hadj,
      fun h => hne (congrArg Subtype.val h)⟩
  choose other hadj hother using hother
  have : Finite (whiteTiles tiles) := finite_whiteTiles tiles
  have : Nonempty (whiteTiles tiles) := by
    obtain ⟨t, ht⟩ := hne
    by_cases hwhite : t.IsWhite
    · exact ⟨t, ht, hwhite⟩
    · exact ⟨e.symm ⟨t, ht, hwhite⟩⟩
  obtain ⟨g, hg, c, hc⟩ := exists_perm_of_finite fun t => e.symm (other t)
  have hexchange : ∀ t, e (g t) = other t ∨ e (g t) = e t := fun t =>
    (hg t).imp (fun h => by rw [h, Equiv.apply_symm_apply]) (congrArg e)
  have hchanged : e (g c) ≠ e c := by
    rw [hc, Equiv.apply_symm_apply]
    exact hother c
  -- the exchanged partners are joined also when the old edge at `c` is taken out of the grid
  have hkept : ∀ t : whiteTiles tiles,
      (grid.deleteEdges {s(↑c, ↑(e c))}).Adj t ((g.trans e) t) := by
    intro t
    rw [SimpleGraph.deleteEdges_adj, Set.mem_singleton_iff, Equiv.trans_apply]
    refine ⟨(hexchange t).elim (fun h => h ▸ hadj t) (fun h => h ▸ (he t).adj_sub), fun heq => ?_⟩
    rcases Sym2.eq_iff.1 heq with ⟨htc, hec⟩ | ⟨htc, -⟩
    · rw [Subtype.ext htc] at hec
      exact hchanged (Subtype.ext hec)
    · exact (e c).2.2 (htc ▸ t.2.2)
  obtain ⟨M', hM', hle⟩ := exists_of_equiv (SimpleGraph.deleteEdges_le _) hkept
  refine ⟨M', hM', ?_⟩
  rintro rfl
  have hold := hle _ _ (he c)
  rw [SimpleGraph.deleteEdges_adj] at hold
  exact hold.2 rfl

end Tile

end LatticeSurgery
