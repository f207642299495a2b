import LatticeSurgery.Proofs.Graph.Degrees
import LatticeSurgery.Proofs.Tree.Pruning

/-!
# Parts of a trim tree

A trim tree has no smaller part that still joins its ends: a connected part that contains all ends is
the whole tree (`Trim.contains_of_within`). Every node outside such a part would have two neighbours at
least, and some edge would lead into the part, which makes more steps than the edges outside the part
allow.
-/

namespace LatticeSurgery

open Ordered Relation

namespace Graph

variable {α : Type} [Ordered α] {g h : Graph α} {a b : α}

/-- A link from inside a set of nodes to the outside crosses its border. -/
theorem Linked.exists_crossing (hab : g.Linked a b) {p : α → Prop} (ha : p a) (hb : ¬ p b) :
    ∃ c d, g.Adj c d ∧ p c ∧ ¬ p d := by
  induction hab using ReflTransGen.head_induction_on with
  | refl => exact absurd ha hb
  | @head a c hstep _ ih =>
    by_cases hc : p c
    · exact ih hc
    · exact ⟨a, c, hstep, ha, hc⟩

/-- The edges of a part are edges of the whole. -/
theorem Within.edgeKeys_subset (hgh : g.Within h) (hg : g.WellFormed) (hh : h.WellFormed) :
    g.edgeKeys ⊆ h.edgeKeys := by
  intro k hk
  obtain ⟨hkey, hadj⟩ := hg.mem_edgeKeys.1 hk
  exact hh.mem_edgeKeys.2 ⟨hkey, hgh.edge _ _ hadj⟩

/-- The nodes outside a part are those that the part lacks. -/
theorem Within.nodeCount_add (hgh : g.Within h) :
    g.nodeCount + (h.nodes.filter fun a => !g.hasNode a).length = h.nodeCount := by
  have hinside : g.nodeCount = (h.nodes.filter g.hasNode).length := by
    refine nodeCount_eq (h.nodup_nodes.filter _) fun a => ?_
    rw [List.mem_filter, mem_nodes]
    exact and_iff_right_of_imp (hgh.node a)
  rw [hinside, ← length_nodes h]
  exact (List.length_eq_length_filter_add g.hasNode).symm

/-- The edges that leave a part, or lie outside of it, are not its own. -/
theorem Within.edgeCount_add_le (hgh : g.Within h) (hg : g.WellFormed) (hh : h.WellFormed) :
    g.edgeCount + (h.edgeKeys.filter fun k => !(g.hasNode k.1 && g.hasNode k.2)).length ≤
      h.edgeCount := by
  rw [← length_edgeKeys g, ← length_edgeKeys h, ← List.length_append]
  refine List.Nodup.length_le_of_subset ?_ fun k hk => ?_
  · refine List.nodup_append'.2 ⟨g.nodup_edgeKeys, h.nodup_edgeKeys.filter _, fun k hk hout => ?_⟩
    have hadj := (hg.mem_edgeKeys.1 hk).2
    have hnot := (List.mem_filter.1 hout).2
    rw [hg.hasNode_left hadj, hg.hasNode_right hadj] at hnot
    cases hnot
  · rcases List.mem_append.1 hk with hk | hk
    · exact hgh.edgeKeys_subset hg hh hk
    · exact (List.mem_filter.1 hk).1

end Graph

namespace Tree

open LatticeSurgery.Graph

variable {t f : Tree} {terminals : List Node} {n m : Node}

/-- Nodes of a trim tree that are no terminals have two neighbours each at least. -/
theorem Trim.two_mul_length_le (ht : t.Trim terminals) {ns : List Node}
    (hns : ∀ n ∈ ns, t.contains n = true ∧ n ∉ terminals) :
    2 * ns.length ≤ (ns.map t.shape.degree).sum := by
  have hsum := List.card_nsmul_le_sum (ns.map t.shape.degree) 2 fun d hd => by
    obtain ⟨n, hn, rfl⟩ := List.mem_map.1 hd
    obtain ⟨hnode, hinner⟩ := hns n hn
    by_contra hdegree
    exact hinner (ht.ends n hnode (show t.shape.degree n ≤ 1 by omega))
  simpa [Nat.mul_comm] using hsum

/-- A connected part of a trim tree that contains its ends has all of its nodes. -/
theorem Trim.contains_of_within (ht : t.Trim terminals) (hf : f.Sound)
    (hft : f.shape.Within t.shape) (hends : ∀ n ∈ terminals, f.contains n = true)
    (hm : f.contains m = true) (hn : t.contains n = true) : f.contains n = true := by
  by_contra hout
  obtain ⟨hwell, hconnected, hcount⟩ := ht.isTree
  set outside := t.shape.nodes.filter fun a => !f.shape.hasNode a with houtside
  set keys := t.shape.edgeKeys.filter fun k => !(f.shape.hasNode k.1 && f.shape.hasNode k.2) with hkeys
  have hmem : ∀ a, a ∈ outside ↔ t.contains a = true ∧ f.contains a = false := fun a => by
    rw [houtside, List.mem_filter, Graph.mem_nodes, Bool.not_eq_true']
    rfl
  have hkeyof : ∀ {a b}, t.shape.Adj a b → f.contains a = false → edgeKey a b ∈ keys := by
    intro a b hab ha
    rw [hkeys, List.mem_filter, hwell.edgeKey_mem_edgeKeys]
    refine ⟨hab, ?_⟩
    have ha' : f.shape.hasNode a = false := ha
    rcases edgeKey_eq_iff.1 (edgeKey_edgeKey a b) with ⟨h₁, h₂⟩ | ⟨h₁, h₂⟩ <;> rw [h₁, h₂, ha'] <;>
      simp
  -- some edge leads from the outside into the part
  obtain ⟨a, b, hab, ha, hb⟩ := (hconnected n m hn (hft.node m hm)).exists_crossing
    (p := fun a => f.contains a = false) (by simpa using hout) (by simp [hm])
  have hsteps : ((b, a) :: t.shape.stepsFrom outside).Nodup := by
    refine List.nodup_cons.2 ⟨fun hstep => ?_, nodup_stepsFrom hwell (t.shape.nodup_nodes.filter _)⟩
    exact hb ((hmem b).1 (mem_stepsFrom.1 hstep).1).2
  have hless : ((b, a) :: t.shape.stepsFrom outside).length ≤ 2 * keys.length := by
    refine length_le_of_steps hsteps fun p hp => ?_
    rcases List.mem_cons.1 hp with rfl | hp
    · rw [edgeKey_comm]
      exact hkeyof hab ha
    · obtain ⟨hp₁, hp₂⟩ := mem_stepsFrom.1 hp
      exact hkeyof ((hwell.mem_neighbors _ _).1 hp₂) ((hmem _).1 hp₁).2
  have hdegrees : 2 * outside.length ≤ (outside.map t.shape.degree).sum :=
    ht.two_mul_length_le fun a ha => by
      obtain ⟨hta, hfa⟩ := (hmem a).1 ha
      refine ⟨hta, fun hterminal => ?_⟩
      rw [hends a hterminal] at hfa
      cases hfa
  rw [List.length_cons, length_stepsFrom] at hless
  have hnodes := hft.nodeCount_add
  have hedges := hft.edgeCount_add_le hf.wellFormed hwell
  have hpart := hf.connected.nodeCount_le hf.wellFormed
  rw [← houtside] at hnodes
  rw [← hkeys] at hedges
  omega

/-- It also has all of its edges. -/
theorem Trim.edgeKeys_perm (ht : t.Trim terminals) (hf : f.Sound) (hft : f.shape.Within t.shape)
    (hends : ∀ n ∈ terminals, f.contains n = true) (hm : f.contains m = true) :
    f.shape.edgeKeys.Perm t.shape.edgeKeys := by
  obtain ⟨hwell, -, hcount⟩ := ht.isTree
  have hsub := List.subperm_of_subset f.shape.nodup_edgeKeys
    (hft.edgeKeys_subset hf.wellFormed hwell)
  refine hsub.perm_of_length_le ?_
  have hnodes : f.shape.nodeCount = t.shape.nodeCount := by
    rw [← length_nodes t.shape]
    refine nodeCount_eq t.shape.nodup_nodes fun n => ?_
    rw [Graph.mem_nodes]
    exact ⟨ht.contains_of_within hf hft hends hm, hft.node n⟩
  have hpart := hf.connected.nodeCount_le hf.wellFormed
  rw [length_edgeKeys, length_edgeKeys]
  omega

end Tree

end LatticeSurgery
