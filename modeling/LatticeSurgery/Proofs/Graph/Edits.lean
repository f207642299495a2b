import LatticeSurgery.Proofs.Graph.Paths

/-!
# Graphs after many edits

Boards and trees are changed by adding or removing the nodes and edges of a list one after the
other. Each of these folds keeps a graph well formed, and what is there afterwards does not depend
on the order of the list.
-/

namespace LatticeSurgery

open Ordered Relation

namespace Graph

variable {α β : Type} [Ordered α] {g : Graph α} {a b c : α}

/-! ## Adding -/

section AddNodes

variable (f : β → α) (l : List β) (g)

theorem hasNode_foldl_addNode : (l.foldl (fun g e => g.addNode (f e)) g).hasNode a = true ↔
    g.hasNode a = true ∨ ∃ e ∈ l, a = f e := by
  induction l generalizing g with
  | nil => simp
  | cons e es ih =>
    rw [List.foldl_cons, ih, hasNode_addNode, List.exists_mem_cons_iff]
    tauto

theorem adj_foldl_addNode : (l.foldl (fun g e => g.addNode (f e)) g).Adj a b ↔ g.Adj a b := by
  induction l generalizing g with
  | nil => rfl
  | cons e es ih => rw [List.foldl_cons, ih, adj_addNode]

variable {g} in
theorem WellFormed.foldl_addNode (hg : g.WellFormed) :
    (l.foldl (fun g e => g.addNode (f e)) g).WellFormed := by
  induction l generalizing g with
  | nil => exact hg
  | cons e es ih => exact ih (hg.addNode (f e))

end AddNodes

section AddEdges

variable (s t : β → α) (w : β → Nat) (l : List β)

theorem WellFormed.foldl_addEdge (hg : g.WellFormed) :
    (l.foldl (fun g e => g.addEdge (s e) (t e) (w e)) g).WellFormed := by
  induction l generalizing g with
  | nil => exact hg
  | cons e es ih => exact ih (hg.addEdge (s e) (t e) (w e))

theorem hasNode_foldl_addEdge (hg : g.WellFormed) :
    (l.foldl (fun g e => g.addEdge (s e) (t e) (w e)) g).hasNode a = true ↔
      g.hasNode a = true ∨ ∃ e ∈ l, a = s e ∨ a = t e := by
  induction l generalizing g with
  | nil => simp
  | cons e es ih =>
    rw [List.foldl_cons, ih (hg.addEdge _ _ _), hasNode_addEdge hg, List.exists_mem_cons_iff]
    simp only [or_assoc, or_left_comm]

theorem adj_foldl_addEdge :
    (l.foldl (fun g e => g.addEdge (s e) (t e) (w e)) g).Adj a b ↔
      g.Adj a b ∨ ∃ e ∈ l, (a = s e ∧ b = t e) ∨ (a = t e ∧ b = s e) := by
  induction l generalizing g with
  | nil => simp
  | cons e es ih =>
    rw [List.foldl_cons, ih, adj_addEdge, List.exists_mem_cons_iff]
    simp only [or_assoc, or_left_comm]

end AddEdges

/-- Edges that are added at one node leave those between other nodes alone. -/
theorem weight?_foldl_addEdge_of_ne {l : List (α × Nat)} (hb : b ≠ a) (hc : c ≠ a) :
    (l.foldl (fun g e => g.addEdge a e.1 e.2) g).weight? b c = g.weight? b c := by
  induction l generalizing g with
  | nil => rfl
  | cons e es ih =>
    rw [List.foldl_cons, ih, weight?_addEdge, if_neg]
    rw [same_iff, edgeKey_eq_iff]
    rintro (⟨rfl, -⟩ | ⟨-, rfl⟩)
    · exact hb rfl
    · exact hc rfl

/-- When edges to different nodes are added at a node, each of them is there with its weight. -/
theorem weight?_foldl_addEdge_self {l : List (α × Nat)} {w : Nat} (hl : (l.map Prod.fst).Nodup) :
    (l.foldl (fun g e => g.addEdge a e.1 e.2) g).weight? a c = some w ↔
      (c, w) ∈ l ∨ (c ∉ l.map Prod.fst ∧ g.weight? a c = some w) := by
  induction l generalizing g with
  | nil => simp
  | cons e es ih =>
    obtain ⟨he, hes⟩ := List.nodup_cons.1 hl
    have hkey : edgeKey a c = edgeKey a e.1 ↔ c = e.1 := by
      rw [edgeKey_eq_iff]
      constructor
      · rintro (⟨-, h⟩ | ⟨rfl, rfl⟩)
        · exact h
        · rfl
      · exact fun h => Or.inl ⟨rfl, h⟩
    rw [List.foldl_cons, ih hes, weight?_addEdge, List.mem_cons, List.map_cons, List.mem_cons,
      Prod.ext_iff]
    by_cases hc : c = e.1
    · subst hc
      have hnot : (e.1, w) ∉ es := fun h => he (List.mem_map.2 ⟨_, h, rfl⟩)
      rw [if_pos (same_self _), Option.some_inj]
      dsimp only at he ⊢
      simp only [hnot, he, false_or, not_false_iff, true_and, or_false, not_true, false_and]
      exact eq_comm
    · rw [if_neg (by rw [same_iff, hkey]; exact hc)]
      simp [hc]

/-! ## Removing -/

section RemoveEdges

variable (f : β → α) (l : List β)

theorem WellFormed.foldl_removeEdge (hg : g.WellFormed) :
    (l.foldl (fun g e => g.removeEdge a (f e)) g).WellFormed := by
  induction l generalizing g with
  | nil => exact hg
  | cons e es ih => exact ih (hg.removeEdge a (f e))

theorem hasNode_foldl_removeEdge :
    (l.foldl (fun g e => g.removeEdge a (f e)) g).hasNode b = g.hasNode b := by
  induction l generalizing g with
  | nil => rfl
  | cons e es ih => rw [List.foldl_cons, ih, hasNode_removeEdge]

theorem weight?_foldl_removeEdge {w : Nat} :
    (l.foldl (fun g e => g.removeEdge a (f e)) g).weight? b c = some w ↔
      g.weight? b c = some w ∧ ∀ e ∈ l, ¬ (b = a ∧ c = f e) ∧ ¬ (b = f e ∧ c = a) := by
  induction l generalizing g with
  | nil => simp
  | cons e es ih =>
    have hone : (g.removeEdge a (f e)).weight? b c = some w ↔
        g.weight? b c = some w ∧ ¬ (b = a ∧ c = f e) ∧ ¬ (b = f e ∧ c = a) := by
      rw [weight?_removeEdge, ← not_or, ← edgeKey_eq_iff]
      split
      · next h => simp [same_iff.1 h]
      · next h => simp [show edgeKey b c ≠ edgeKey a (f e) from fun heq => h (by simp [heq])]
    rw [List.foldl_cons, ih, hone, List.forall_mem_cons, and_assoc]

theorem adj_foldl_removeEdge :
    (l.foldl (fun g e => g.removeEdge a (f e)) g).Adj b c ↔
      g.Adj b c ∧ ∀ e ∈ l, ¬ (b = a ∧ c = f e) ∧ ¬ (b = f e ∧ c = a) := by
  simp only [adj_iff, weight?_foldl_removeEdge, exists_and_right]

end RemoveEdges

section RemoveNodes

variable (l : List α)

theorem WellFormed.foldl_removeNode (hg : g.WellFormed) : (l.foldl Graph.removeNode g).WellFormed := by
  induction l generalizing g with
  | nil => exact hg
  | cons a as ih => exact ih (hg.removeNode a)

theorem hasNode_foldl_removeNode :
    (l.foldl removeNode g).hasNode a = true ↔ g.hasNode a = true ∧ a ∉ l := by
  induction l generalizing g with
  | nil => simp
  | cons b bs ih =>
    rw [List.foldl_cons, ih, hasNode_removeNode, List.mem_cons, not_or, and_assoc]

theorem weight?_foldl_removeNode (hg : g.WellFormed) {w : Nat} :
    (l.foldl removeNode g).weight? a b = some w ↔ g.weight? a b = some w ∧ a ∉ l ∧ b ∉ l := by
  induction l generalizing g with
  | nil => simp
  | cons c cs ih =>
    rw [List.foldl_cons, ih (hg.removeNode c), weight?_removeNode hg, List.mem_cons, List.mem_cons]
    tauto

theorem adj_foldl_removeNode (hg : g.WellFormed) :
    (l.foldl removeNode g).Adj a b ↔ g.Adj a b ∧ a ∉ l ∧ b ∉ l := by
  simp only [adj_iff, weight?_foldl_removeNode l hg, exists_and_right]

end RemoveNodes

/-! ## Removing a node from a connected graph -/

/-- A node that is linked to `a` is linked to a neighbour of `a` without passing through `a`. -/
theorem Linked.before_node (hg : g.WellFormed) (hb : g.Linked b a) (hne : b ≠ a) :
    ∃ n, g.Adj n a ∧ n ≠ a ∧ (g.removeNode a).Linked b n := by
  induction hb using ReflTransGen.head_induction_on with
  | refl => exact absurd rfl hne
  | @head b m hstep _ ih =>
    by_cases hm : m = a
    · exact ⟨b, hm ▸ hstep, hne, ReflTransGen.refl⟩
    · obtain ⟨n, hn, hna, hlink⟩ := ih hm
      exact ⟨n, hn, hna, hlink.head ((adj_removeNode hg).2 ⟨hstep, hne, hm⟩)⟩

/-- A link between two nodes either avoids `a`, or both are linked to neighbours of `a`. -/
theorem Linked.avoid (hg : g.WellFormed) (hbc : g.Linked b c) (hb : b ≠ a) (hc : c ≠ a) :
    (g.removeNode a).Linked b c ∨ (g.Linked b a ∧ g.Linked c a) := by
  induction hbc with
  | refl => exact Or.inl ReflTransGen.refl
  | @tail m c hbm hstep ih =>
    by_cases hm : m = a
    · subst hm
      exact Or.inr ⟨hbm, ReflTransGen.single hstep.symm⟩
    · rcases ih hm with hlink | ⟨hba, hma⟩
      · exact Or.inl (hlink.tail ((adj_removeNode hg).2 ⟨hstep, hm, hc⟩))
      · exact Or.inr ⟨hba, hma.head hstep.symm⟩

/-- A connected graph stays connected when an end is cut off. -/
theorem Connected.removeNode (hg : g.WellFormed) (hconn : g.Connected)
    (hdegree : g.degree a ≤ 1) : (g.removeNode a).Connected := by
  have hunique : ∀ m n, g.Adj m a → g.Adj n a → m = n := by
    intro m n hm hn
    have hm' := (hg.mem_neighbors a m).2 hm.symm
    have hn' := (hg.mem_neighbors a n).2 hn.symm
    rw [degree] at hdegree
    match hl : g.neighbors a, hdegree with
    | [], _ => rw [hl] at hm'; cases hm'
    | [x], _ =>
      rw [hl, List.mem_singleton] at hm' hn'
      rw [hm', hn']
  intro b c hb hc
  obtain ⟨hb, hba⟩ := hasNode_removeNode.1 hb
  obtain ⟨hc, hca⟩ := hasNode_removeNode.1 hc
  rcases Linked.avoid hg (hconn b c hb hc) hba hca with hlink | ⟨hlb, hlc⟩
  · exact hlink
  · -- both links to `a` end in its only neighbour
    obtain ⟨m, hm, -, hbm⟩ := Linked.before_node hg hlb hba
    obtain ⟨n, hn, -, hcn⟩ := Linked.before_node hg hlc hca
    exact hbm.trans (hunique m n hm hn ▸ Linked.symm hcn)

theorem degree_removeNode_le (hg : g.WellFormed) (a b : α) :
    (g.removeNode a).degree b ≤ g.degree b := by
  refine ((hg.removeNode a).nodup b).length_le_of_subset fun c hc => ?_
  rw [(hg.removeNode a).mem_neighbors, adj_removeNode hg] at hc
  exact (hg.mem_neighbors b c).2 hc.1

/-- A connected graph stays connected when several ends are cut off, one after the other. -/
theorem Connected.foldl_removeNode {ends : List α} (hg : g.WellFormed) (hconn : g.Connected)
    (hends : ∀ a ∈ ends, g.degree a ≤ 1) : (ends.foldl Graph.removeNode g).Connected := by
  induction ends generalizing g with
  | nil => exact hconn
  | cons a as ih =>
    refine ih (hg.removeNode a) (hconn.removeNode hg (hends a List.mem_cons_self)) ?_
    exact fun b hb => (degree_removeNode_le hg a b).trans (hends b (List.mem_cons_of_mem _ hb))

end Graph

end LatticeSurgery
