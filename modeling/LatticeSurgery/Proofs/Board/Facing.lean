import LatticeSurgery.Proofs.Board.OfLayout
import LatticeSurgery.Proofs.Board.Turning

/-!
# Which boundaries face the bus

The board of a layout lists the boundaries of its data patches that have neighbours
(`shows_of_facings`). Its edges end on the bus and its data patches have both of their nodes, also
after whole patches were removed.
-/

namespace LatticeSurgery

open Ordered LatticeSurgery.Graph

/-! ## Facings -/

namespace Facing

/-- The boundary is one of those that face the bus. -/
def shows : Facing → Basis → Bool
  | x, .X => true
  | z, .Z => true
  | both, _ => true
  | _, _ => false

/-- The facing of the patch after a turn. -/
def flipped : Facing → Facing
  | x => z
  | z => x
  | both => both

@[simp] theorem shows_flipped (f : Facing) (basis : Basis) :
    f.flipped.shows basis = f.shows basis.flipped := by
  cases f <;> cases basis <;> rfl

theorem exists_shows (f : Facing) : ∃ basis, f.shows basis = true := by
  cases f
  · exact ⟨.X, rfl⟩
  · exact ⟨.Z, rfl⟩
  · exact ⟨.X, rfl⟩

end Facing

namespace Board

variable {b : Board} {id : Nat} {f : Facing}

theorem shows_of_facing? (h : b.facing? id = some f) (basis : Basis) :
    f.shows basis = true ↔ 0 < b.graph.degree (.qubit id basis) := by
  unfold facing? at h
  split at h <;> cases h
  all_goals
    next hx hz =>
    cases basis
    · simpa [Facing.shows] using hx
    · simpa [Facing.shows] using hz

/-- The list of facings has an entry for each data patch that faces the bus. -/
theorem get?_facings (b : Board) (id : Nat) : b.facings.get? id = b.facing? id := by
  unfold facings
  cases hf : b.facing? id with
  | none =>
    refine List.foldlRecOn (motive := fun m : SortedMap Nat Facing => m.get? id = none) _ _
      rfl fun m hm i _ => ?_
    split
    · next f hf' =>
      rw [SortedMap.get?_insert_ne]
      · exact hm
      · rintro rfl
        rw [hf] at hf'
        cases hf'
    · exact hm
  | some f =>
    have hmem : id ∈ (b.idsOfKind .qubit).toList := by
      obtain ⟨basis, hshows⟩ := f.exists_shows
      obtain ⟨m, hm⟩ := List.exists_mem_of_length_pos ((shows_of_facing? hf basis).1 hshows)
      rw [SortedSet.mem_toList, idsOfKind, SortedSet.mem_map]
      exact ⟨.qubit id basis, mem_nodesOfKind.2 ⟨hasNode_of_mem_neighbors hm, rfl⟩, rfl⟩
    obtain ⟨l, l', hl⟩ := List.append_of_mem hmem
    rw [hl, List.foldl_append, List.foldl_cons, hf]
    -- a later entry for the patch would be the same
    refine List.foldlRecOn (motive := fun m : SortedMap Nat Facing => m.get? id = some f) _ _
      (SortedMap.get?_insert_self _ _ _) fun m hm i _ => ?_
    split
    · next f' hf' =>
      by_cases hid : id = i
      · subst hid
        rw [SortedMap.get?_insert_self, ← hf', hf]
      · rw [SortedMap.get?_insert_ne _ hid, hm]
    · exact hm

/-- A patch shows the boundaries that have neighbours. -/
theorem shows_of_facings (hb : b.Sound) (h : b.facings.get? id = some f) (basis : Basis) :
    f.shows basis = true ↔ b.graph.Touches (.qubit id basis) := by
  rw [get?_facings] at h
  rw [hb.graph.touches_iff]
  exact shows_of_facing? h basis

end Board

/-! ## Boards of layouts -/

namespace Graph

variable {numbers : SortedMap Tile Nat} {g g' : Graph Node}

/-- A graph as a layout gives rise to it. -/
structure Laid (g : Graph Node) : Prop where
  wellFormed : g.WellFormed
  onBus : g.OnBus
  paired : g.Paired

theorem OnBus.addEdge (hg : g.OnBus) {n m : Node} (w : Nat) (h : n.isBus = true ∨ m.isBus = true) :
    (g.addEdge n m w).OnBus := by
  intro n' m' hadj
  rcases adj_addEdge.1 hadj with ⟨rfl, rfl⟩ | ⟨rfl, rfl⟩ | hold
  · exact h
  · exact h.symm
  · exact hg n' m' hold

theorem Paired.congr (hg : g.Paired)
    (h : ∀ id basis, g'.hasNode (.qubit id basis) = true ↔ g.hasNode (.qubit id basis) = true) :
    g'.Paired := by
  intro id
  rw [h, h]
  exact hg id

theorem Laid.addBusTile (hg : g.Laid) (t : Tile) (i : Nat) :
    (Board.addBusTile numbers g t i).Laid := by
  unfold Board.addBusTile
  refine List.foldlRecOn (motive := Laid) _ _
    ⟨hg.wellFormed.addNode _, fun n m hadj => ?_, ?_⟩ fun g hg u _ => ?_
  · exact hg.onBus n m ((adj_addNode _ _).1 hadj)
  · exact hg.paired.congr fun id basis => by simp [hasNode_addNode]
  · split
    · next j _ =>
      refine ⟨hg.wellFormed.addEdge _ _ _, hg.onBus.addEdge _ (Or.inl rfl), ?_⟩
      refine hg.paired.congr fun id basis => ?_
      simp [hasNode_addEdge hg.wellFormed]
    · exact hg

theorem Laid.addPatch (hg : g.Laid) (p : Patch) : (Board.addPatch numbers g p).Laid := by
  unfold Board.addPatch
  set g₁ := p.kind.exposed.foldl (fun g basis => g.addNode (.boundary p.kind p.id basis)) g
  have hnode₁ : ∀ n, g₁.hasNode n = true ↔ g.hasNode n = true ∨
      ∃ basis ∈ p.kind.exposed, n = .boundary p.kind p.id basis := fun n =>
    hasNode_foldl_addNode g (Node.boundary p.kind p.id) p.kind.exposed
  have hlaid₁ : g₁.Laid := by
    refine ⟨hg.wellFormed.foldl_addNode _ _, fun n m hadj => ?_, fun id => ?_⟩
    · exact hg.onBus n m ((adj_foldl_addNode _ _ _).1 hadj)
    · rw [hnode₁, hnode₁, hg.paired id]
      refine or_congr_right ?_
      cases p.kind <;> simp [PatchKind.exposed]
  -- the sides of the patch are joined to bus tiles, through nodes that are there
  have hends : g₁.Laid ∧ ∀ basis ∈ p.kind.exposed,
      g₁.hasNode (.boundary p.kind p.id basis) = true := by
    refine ⟨hlaid₁, fun basis hbasis => ?_⟩
    rw [hnode₁]
    exact Or.inr ⟨basis, hbasis, rfl⟩
  refine (List.foldlRecOn (motive := fun g : Graph Node => g.Laid ∧ ∀ basis ∈ p.kind.exposed,
    g.hasNode (.boundary p.kind p.id basis) = true) _ _ hends fun g ⟨hg, hends⟩ s _ => ?_).1
  split
  · next hexposed =>
    split
    · next j _ =>
      refine ⟨⟨hg.wellFormed.addEdge _ _ _, hg.onBus.addEdge _ (Or.inr rfl), ?_⟩, ?_⟩
      · refine hg.paired.congr fun id basis => ?_
        rw [hasNode_addEdge hg.wellFormed]
        constructor
        · rintro (h | h | h)
          · rw [h]
            exact hends s.basis (List.contains_iff_mem.1 hexposed)
          · cases h
          · exact h
        · exact fun h => Or.inr (Or.inr h)
      · intro basis hbasis
        rw [hasNode_addEdge hg.wellFormed]
        exact Or.inr (Or.inr (hends basis hbasis))
    · exact ⟨hg, hends⟩
  · exact ⟨hg, hends⟩

theorem laid_graphOf (l : Layout) (patches : List Patch) : (Board.graphOf l patches).Laid := by
  have hempty : (∅ : Graph Node).Laid :=
    ⟨wellFormed_empty, fun n m hadj => absurd hadj (not_adj_empty n m), fun id => Iff.rfl⟩
  unfold Board.graphOf
  refine List.foldlRecOn (motive := Laid) _ _ ?_ fun g hg p _ => hg.addPatch p
  exact List.foldlRecOn (motive := Laid) _ _ hempty fun g hg e _ => hg.addBusTile e.1 e.2

end Graph

namespace Board

variable {b : Board}

theorem laid_ofLayout {l : Layout} (h : ofLayout l = .ok b) : b.graph.Laid := by
  unfold ofLayout at h
  obtain ⟨patches, -, h⟩ := exists_of_bind_eq_ok h
  cases h
  exact laid_graphOf l patches

/-- Leaving whole data patches unused keeps the other ones. -/
theorem laid_removeNodes (hb : b.graph.Laid) {unused : List Node}
    (h : ∀ id, .qubit id .X ∈ unused ↔ .qubit id .Z ∈ unused) :
    (b.removeNodes unused).graph.Laid := by
  refine ⟨?_, fun n m hadj => hb.onBus n m ((adj_removeNodes hb.wellFormed).1 hadj).1, fun id => ?_⟩
  · rw [graph_removeNodes]
    exact hb.wellFormed.foldl_removeNode _
  · rw [hasNode_removeNodes, hasNode_removeNodes, hb.paired id, h]

end Board

end LatticeSurgery
