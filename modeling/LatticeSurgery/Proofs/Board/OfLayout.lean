import LatticeSurgery.Board.OfLayout
import LatticeSurgery.Proofs.Board.Sound

/-!
# The board of a layout

The board that is read from a layout is sound, and every node of it has its first countdown.
-/

namespace LatticeSurgery

open Ordered LatticeSurgery.Graph

namespace Board

variable {numbers : SortedMap Tile Nat} {g : Graph Node}

theorem wellFormed_foldl {β : Type} {f : Graph Node → β → Graph Node} (l : List β)
    (hf : ∀ g e, g.WellFormed → (f g e).WellFormed) (hg : g.WellFormed) :
    (l.foldl f g).WellFormed := by
  induction l generalizing g with
  | nil => exact hg
  | cons e es ih => exact ih (hf g e hg)

theorem wellFormed_addBusTile (hg : g.WellFormed) (t : Tile) (i : Nat) :
    (addBusTile numbers g t i).WellFormed := by
  refine wellFormed_foldl _ (fun g u hg => ?_) (hg.addNode _)
  split
  · exact hg.addEdge _ _ _
  · exact hg

theorem wellFormed_addPatch (hg : g.WellFormed) (p : Patch) :
    (addPatch numbers g p).WellFormed := by
  refine wellFormed_foldl _ (fun g s hg => ?_)
    (wellFormed_foldl _ (fun g basis hg => hg.addNode _) hg)
  split
  · split
    · exact hg.addEdge _ _ _
    · exact hg
  · exact hg

theorem wellFormed_graphOf (l : Layout) (patches : List Patch) :
    (graphOf l patches).WellFormed :=
  wellFormed_foldl _ (fun _ p hg => wellFormed_addPatch hg p)
    (wellFormed_foldl _ (fun _ e hg => wellFormed_addBusTile hg e.1 e.2) wellFormed_empty)

theorem means_initialTicks (n : Node) : n.Means (initialTicks n) := by
  unfold initialTicks
  split
  · next hn => exact Node.means_storage hn (Or.inr (Or.inr rfl))
  · exact Node.means_of_nonneg (by omega)

/-- Placing the first countdowns of different nodes. -/
theorem foldl_place_spec {ns : List Node} {c : Countdowns} (hc : c.Sound) (hns : ns.Nodup)
    (hfresh : ∀ n ∈ ns, c.get? n = none) :
    (ns.foldl (fun c n => c.place n (initialTicks n)) c).Sound ∧
    ∀ n, (ns.foldl (fun c n => c.place n (initialTicks n)) c).get? n =
      if n ∈ ns then some (initialTicks n) else c.get? n := by
  induction ns generalizing c with
  | nil => exact ⟨hc, fun n => by simp⟩
  | cons m ns ih =>
    obtain ⟨hm, hns⟩ := List.nodup_cons.1 hns
    have hplaced := hc.place (hfresh m List.mem_cons_self) (means_initialTicks m)
    obtain ⟨hsound, hget⟩ := ih hplaced hns fun n hn => by
      rw [Countdowns.get?_place, if_neg]
      · exact hfresh n (List.mem_cons_of_mem _ hn)
      · rw [same_iff]
        rintro rfl
        exact hm hn
    refine ⟨hsound, fun n => ?_⟩
    rw [List.foldl_cons, hget, Countdowns.get?_place]
    by_cases hn : n = m
    · subst hn
      simp
    · simp [hn]

/-- The board of a layout is sound, and its nodes have their first countdowns. -/
theorem ofLayout_spec {l : Layout} {b : Board} (h : ofLayout l = .ok b) :
    b.Sound ∧ ∀ n t, b.ticksOf n = some t → t = initialTicks n := by
  unfold ofLayout at h
  cases hpatches : l.patches with
  | error e =>
    rw [hpatches] at h
    cases h
  | ok patches =>
    rw [hpatches] at h
    cases h
    obtain ⟨hsound, hget⟩ := foldl_place_spec Countdowns.sound_empty
      (graphOf l patches).adjacency.nodup fun n _ => rfl
    have hticks : ∀ n, ((graphOf l patches).nodes.foldl
        (fun c n => Countdowns.place c n (initialTicks n)) ∅).get? n =
          if (graphOf l patches).hasNode n = true then some (initialTicks n) else none := by
      intro n
      refine (hget n).trans ?_
      simp only [← mem_nodes]
      rfl
    refine ⟨⟨wellFormed_graphOf l patches, hsound, fun n => ?_⟩, fun n t ht => ?_⟩
    · show _ ↔ ∃ t, Countdowns.get? _ n = some t
      dsimp only
      rw [hticks]
      by_cases hn : (graphOf l patches).hasNode n = true <;> simp [hn]
    · have hn := (hticks n).symm.trans ht
      split at hn
      · exact (Option.some.inj hn).symm
      · cases hn

/-- At the start, no data patch is busy. -/
theorem ticksOf_qubit_of_ofLayout {l : Layout} {b : Board} (h : ofLayout l = .ok b)
    {unused : List Node} {id : Nat} {basis : Basis} {t : Int}
    (ht : (b.removeNodes unused).ticksOf (.qubit id basis) = some t) : t = 0 := by
  rw [ticksOf_removeNodes] at ht
  split at ht
  · cases ht
  · exact (ofLayout_spec h).2 _ t ht

end Board

end LatticeSurgery
