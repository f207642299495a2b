import LatticeSurgery.Graph.Basic
import Mathlib.Data.List.Nodup

/-!
# Well-formed graphs

A graph lists its edges twice: under the neighbours of each node and in a table of weights.
`Graph.WellFormed` says that the two agree. Every operation keeps it, and is described by which
nodes are there afterwards (`hasNode_…`) and which of them are joined (`adj_…`).
-/

namespace LatticeSurgery

open Ordered

theorem SwapMap.contains_set {κ ν : Type} [Ordered κ] (m : SwapMap κ ν) (j k : κ) (v : ν) :
    (m.set k v).contains j = true ↔ j = k ∨ m.contains j = true := by
  rw [contains, get?_set, contains]
  split
  · next h => simp [same_iff.1 h]
  · next h => simp [show j ≠ k by simpa using h]

namespace Graph

variable {α : Type} [Ordered α]

theorem edgeKey_eq_iff {a b c d : α} :
    edgeKey a b = edgeKey c d ↔ (a = c ∧ b = d) ∨ (a = d ∧ b = c) := by
  constructor
  · unfold edgeKey least greatest
    split <;> split <;> simp only [Prod.mk.injEq] <;> tauto
  · rintro (⟨rfl, rfl⟩ | ⟨rfl, rfl⟩)
    · rfl
    · exact edgeKey_comm a b

/-- Two nodes are joined. -/
def Adj (g : Graph α) (a b : α) : Prop := g.hasEdge a b = true

instance (g : Graph α) (a b : α) : Decidable (g.Adj a b) :=
  inferInstanceAs (Decidable (g.hasEdge a b = true))

theorem adj_iff {g : Graph α} {a b : α} : g.Adj a b ↔ ∃ w, g.weight? a b = some w :=
  Option.isSome_iff_exists

theorem Adj.symm {g : Graph α} {a b : α} (h : g.Adj a b) : g.Adj b a := by
  rw [adj_iff] at h ⊢
  rwa [weight?_comm]

theorem adj_comm {g : Graph α} {a b : α} : g.Adj a b ↔ g.Adj b a := ⟨Adj.symm, Adj.symm⟩

/-- The neighbour lists and the table of weights agree. -/
structure WellFormed (g : Graph α) : Prop where
  mem_neighbors : ∀ a b, b ∈ g.neighbors a ↔ g.Adj a b
  nodup : ∀ a, (g.neighbors a).Nodup
  key : ∀ k w, g.edges.get? k = some w → edgeKey k.1 k.2 = k

theorem wellFormed_empty : (∅ : Graph α).WellFormed := by
  refine ⟨fun a b => ?_, fun a => List.nodup_nil, fun k w h => by cases h⟩
  exact ⟨fun h => absurd h List.not_mem_nil, fun h => by cases h⟩

theorem not_hasNode_empty (a : α) : (∅ : Graph α).hasNode a = false := rfl

theorem not_adj_empty (a b : α) : ¬ (∅ : Graph α).Adj a b := by
  intro h
  cases h

theorem mem_nodes {g : Graph α} {a : α} : a ∈ g.nodes ↔ g.hasNode a = true :=
  SwapMap.contains_iff.symm

theorem hasNode_of_mem_neighbors {g : Graph α} {a b : α} (h : b ∈ g.neighbors a) :
    g.hasNode a = true := by
  unfold neighbors at h
  unfold hasNode SwapMap.contains
  cases hg : g.adjacency.get? a with
  | none => simp [hg] at h
  | some l => rfl

section

variable {g : Graph α} (hg : g.WellFormed)

include hg

theorem WellFormed.hasNode_left {a b : α} (h : g.Adj a b) : g.hasNode a = true :=
  hasNode_of_mem_neighbors ((hg.mem_neighbors a b).2 h)

theorem WellFormed.hasNode_right {a b : α} (h : g.Adj a b) : g.hasNode b = true :=
  hg.hasNode_left h.symm

theorem WellFormed.mem_edgeList {e : (α × α) × Nat} :
    e ∈ g.edgeList ↔ edgeKey e.1.1 e.1.2 = e.1 ∧ g.weight? e.1.1 e.1.2 = some e.2 := by
  have hget : e ∈ g.edgeList ↔ g.edges.get? e.1 = some e.2 := SwapMap.get?_eq_some_iff.symm
  rw [hget, weight?]
  constructor
  · intro h
    have hk := hg.key _ _ h
    exact ⟨hk, by rw [hk, h]⟩
  · rintro ⟨hk, h⟩
    rwa [hk] at h

theorem WellFormed.adj_of_mem_edgeList {e : (α × α) × Nat} (h : e ∈ g.edgeList) :
    g.Adj e.1.1 e.1.2 :=
  adj_iff.2 ⟨e.2, (hg.mem_edgeList.1 h).2⟩

/-- Two joined nodes are the ends of an edge, one way or the other. -/
theorem WellFormed.exists_mem_edgeList {a b : α} (h : g.Adj a b) :
    ∃ e ∈ g.edgeList, (e.1.1 = a ∧ e.1.2 = b) ∨ (e.1.1 = b ∧ e.1.2 = a) := by
  obtain ⟨w, hw⟩ := adj_iff.1 h
  have hkey := hg.key _ _ hw
  refine ⟨(edgeKey a b, w), ?_, edgeKey_eq_iff.1 hkey⟩
  rw [hg.mem_edgeList]
  refine ⟨hkey, ?_⟩
  dsimp only
  rw [weight?, hkey]
  exact hw

theorem WellFormed.mem_incident {a : α} {e : α × Nat} :
    e ∈ g.incident a ↔ g.weight? a e.1 = some e.2 := by
  rw [incident, List.mem_filterMap]
  constructor
  · rintro ⟨b, -, hb⟩
    obtain ⟨w, hw, rfl⟩ := Option.map_eq_some_iff.1 hb
    exact hw
  · intro h
    exact ⟨e.1, (hg.mem_neighbors a e.1).2 (adj_iff.2 ⟨_, h⟩), by rw [h]; rfl⟩

theorem WellFormed.exists_mem_incident {a b : α} : (∃ e ∈ g.incident a, b = e.1) ↔ g.Adj a b := by
  rw [adj_iff]
  constructor
  · rintro ⟨e, he, rfl⟩
    exact ⟨e.2, hg.mem_incident.1 he⟩
  · rintro ⟨w, hw⟩
    exact ⟨(b, w), hg.mem_incident.2 hw, rfl⟩

end

theorem adj_of_mem_incident {g : Graph α} {a : α} {e : α × Nat} (h : e ∈ g.incident a) :
    g.Adj a e.1 := by
  rw [incident, List.mem_filterMap] at h
  obtain ⟨b, -, hb⟩ := h
  obtain ⟨w, hw, rfl⟩ := Option.map_eq_some_iff.1 hb
  exact adj_iff.2 ⟨w, hw⟩

/-! ## Adding a node -/

section AddNode

variable (g : Graph α) (a : α)

theorem hasNode_addNode {b : α} : (g.addNode a).hasNode b = true ↔ b = a ∨ g.hasNode b = true := by
  unfold addNode
  split
  · next h =>
    refine ⟨Or.inr, ?_⟩
    rintro (rfl | hb)
    · exact h
    · exact hb
  · exact SwapMap.contains_set _ _ _ _

theorem weight?_addNode (b c : α) : (g.addNode a).weight? b c = g.weight? b c := by
  unfold addNode
  split <;> rfl

theorem adj_addNode {b c : α} : (g.addNode a).Adj b c ↔ g.Adj b c := by
  rw [adj_iff, adj_iff, weight?_addNode]

theorem neighbors_addNode (b : α) : (g.addNode a).neighbors b = g.neighbors b := by
  unfold addNode
  split
  · rfl
  · next h =>
    unfold neighbors
    rw [SwapMap.get?_set]
    split
    · next hb =>
      have hnone : g.adjacency.get? a = none := by
        simpa [hasNode, SwapMap.contains] using h
      rw [same_iff.1 hb, hnone]
      rfl
    · rfl

theorem WellFormed.addNode {g : Graph α} (hg : g.WellFormed) (a : α) :
    (g.addNode a).WellFormed := by
  refine ⟨fun b c => ?_, fun b => ?_, fun k w h => ?_⟩
  · rw [neighbors_addNode, adj_addNode, hg.mem_neighbors]
  · rw [neighbors_addNode]
    exact hg.nodup b
  · refine hg.key k w ?_
    unfold Graph.addNode at h
    split at h <;> exact h

end AddNode

/-! ## Adding an edge -/

theorem get?_appendNeighbor (adjacency : SwapMap α (List α)) (a b c : α) :
    (appendNeighbor adjacency a b).get? c =
      if same c a then some ((adjacency.get? a).getD [] ++ [b]) else adjacency.get? c :=
  SwapMap.get?_set _ _ _ _

theorem weight?_addEdge (g : Graph α) (a b : α) (w : Nat) (c d : α) :
    (g.addEdge a b w).weight? c d =
      if same (edgeKey c d) (edgeKey a b) then some w else g.weight? c d := by
  unfold addEdge weight?
  split <;> exact SwapMap.get?_set _ _ _ _

theorem adj_addEdge {g : Graph α} {a b : α} {w : Nat} {c d : α} :
    (g.addEdge a b w).Adj c d ↔ (c = a ∧ d = b) ∨ (c = b ∧ d = a) ∨ g.Adj c d := by
  rw [adj_iff, adj_iff, weight?_addEdge, ← or_assoc, ← edgeKey_eq_iff]
  split
  · next h => simp [same_iff.1 h]
  · next h => simp [show edgeKey c d ≠ edgeKey a b by simpa using h]

theorem addEdge_of_adj {g : Graph α} {a b : α} (w : Nat) (h : g.Adj a b) :
    g.addEdge a b w = { g with edges := g.edges.set (edgeKey a b) w } :=
  if_pos h

theorem addEdge_of_not_adj {g : Graph α} {a b : α} (w : Nat) (h : ¬ g.Adj a b) :
    g.addEdge a b w =
      { adjacency := if same a b then appendNeighbor g.adjacency a b
          else appendNeighbor (appendNeighbor g.adjacency a b) b a
        edges := g.edges.set (edgeKey a b) w } :=
  if_neg h

/-- The neighbours after a new edge: each end is appended to the list of the other one. -/
theorem neighbors_addEdge_of_not_adj {g : Graph α} {a b : α} (w : Nat) (h : ¬ g.Adj a b) (c : α) :
    (g.addEdge a b w).neighbors c =
      if same c a then g.neighbors a ++ [b]
      else if same c b then g.neighbors b ++ [a] else g.neighbors c := by
  rw [addEdge_of_not_adj w h]
  unfold neighbors
  by_cases hab : a = b
  · subst hab
    simp only [same_self, if_true, get?_appendNeighbor]
    split <;> rfl
  · rw [if_neg (by simpa using hab), get?_appendNeighbor, get?_appendNeighbor, get?_appendNeighbor]
    by_cases hca : c = a
    · subst hca
      simp [hab]
    · by_cases hcb : c = b
      · subst hcb
        simp [hca]
      · simp [hca, hcb]

theorem hasNode_addEdge {g : Graph α} (hg : g.WellFormed) {a b : α} {w : Nat} {c : α} :
    (g.addEdge a b w).hasNode c = true ↔ c = a ∨ c = b ∨ g.hasNode c = true := by
  by_cases h : g.Adj a b
  · rw [addEdge_of_adj w h]
    constructor
    · exact fun hc => Or.inr (Or.inr hc)
    · rintro (rfl | rfl | hc)
      · exact hg.hasNode_left h
      · exact hg.hasNode_right h
      · exact hc
  · rw [addEdge_of_not_adj w h]
    unfold hasNode
    split
    · next hab =>
      rw [appendNeighbor, SwapMap.upsert, SwapMap.contains_set, same_iff.1 hab]
      tauto
    · rw [appendNeighbor, SwapMap.upsert, SwapMap.contains_set, appendNeighbor, SwapMap.upsert,
        SwapMap.contains_set]
      tauto

theorem edgeKey_edgeKey (a b : α) : edgeKey (edgeKey a b).1 (edgeKey a b).2 = edgeKey a b := by
  unfold edgeKey least greatest
  split <;> simp_all [before_asymm]

theorem WellFormed.addEdge {g : Graph α} (hg : g.WellFormed) (a b : α) (w : Nat) :
    (g.addEdge a b w).WellFormed := by
  have hkey : ∀ k v, (g.addEdge a b w).edges.get? k = some v → edgeKey k.1 k.2 = k := by
    intro k v h
    have hedges : (g.addEdge a b w).edges = g.edges.set (edgeKey a b) w := by
      unfold Graph.addEdge
      split <;> rfl
    rw [hedges, SwapMap.get?_set] at h
    split at h
    · next hk =>
      rw [same_iff.1 hk]
      exact edgeKey_edgeKey a b
    · exact hg.key k v h
  by_cases h : g.Adj a b
  · have hneighbors : ∀ c, (g.addEdge a b w).neighbors c = g.neighbors c := fun c => by
      rw [addEdge_of_adj w h]
      rfl
    refine ⟨fun c d => ?_, fun c => ?_, hkey⟩
    · rw [hneighbors, adj_addEdge, hg.mem_neighbors]
      constructor
      · exact fun hcd => Or.inr (Or.inr hcd)
      · rintro (⟨rfl, rfl⟩ | ⟨rfl, rfl⟩ | hcd)
        · exact h
        · exact h.symm
        · exact hcd
    · rw [hneighbors]
      exact hg.nodup c
  · have hnot : b ∉ g.neighbors a := fun hb => h ((hg.mem_neighbors a b).1 hb)
    have hnot' : a ∉ g.neighbors b := fun ha => h ((hg.mem_neighbors b a).1 ha).symm
    refine ⟨fun c d => ?_, fun c => ?_, hkey⟩
    · rw [neighbors_addEdge_of_not_adj w h, adj_addEdge, ← hg.mem_neighbors c d]
      by_cases hca : c = a
      · subst hca
        by_cases hcb : c = b
        · subst hcb; simp [or_comm]
        · simp [hcb, or_comm]
      · by_cases hcb : c = b
        · subst hcb; simp [hca, or_comm]
        · simp [hca, hcb]
    · rw [neighbors_addEdge_of_not_adj w h]
      split
      · exact List.nodup_append'.2 ⟨hg.nodup a, by simp, by simpa using hnot⟩
      · split
        · exact List.nodup_append'.2 ⟨hg.nodup b, by simp, by simpa using hnot'⟩
        · exact hg.nodup c

/-! ## Removing an edge -/

theorem mem_swapErase_same {a b : α} {l : List α} (hl : l.Nodup) :
    b ∈ swapErase (same a) l ↔ b ∈ l ∧ b ≠ a := by
  rw [(swapErase_perm _ l).mem_iff]
  constructor
  · intro h
    refine ⟨List.mem_of_mem_eraseP h, ?_⟩
    rintro rfl
    induction l with
    | nil => simp at h
    | cons x xs ih =>
      obtain ⟨hx, hxs⟩ := List.nodup_cons.1 hl
      rw [List.eraseP_cons] at h
      cases hs : same b x with
      | true =>
        rw [hs, cond_true] at h
        exact hx (same_iff.1 hs ▸ h)
      | false =>
        rw [hs, cond_false, List.mem_cons] at h
        rcases h with rfl | h
        · simp at hs
        · exact ih hxs h
  · rintro ⟨h, hne⟩
    exact (List.mem_eraseP_of_neg (by simpa using hne.symm)).2 h

theorem contains_dropNeighbor (adjacency : SwapMap α (List α)) (a b c : α) :
    (dropNeighbor adjacency a b).contains c = adjacency.contains c := by
  unfold dropNeighbor SwapMap.contains
  rw [SwapMap.get?_modify]
  split
  · rw [Option.isSome_map]
  · rfl

/-- The neighbours listed for a node in a table of adjacency. -/
def listed (adjacency : SwapMap α (List α)) (a : α) : List α := (adjacency.get? a).getD []

theorem listed_dropNeighbor (adjacency : SwapMap α (List α)) (a b c : α) :
    listed (dropNeighbor adjacency a b) c =
      if same c a then swapErase (same b) (listed adjacency c) else listed adjacency c := by
  unfold listed dropNeighbor
  rw [SwapMap.get?_modify]
  split
  · cases adjacency.get? c <;> rfl
  · rfl

theorem nodup_listed_dropNeighbor {adjacency : SwapMap α (List α)} {c : α}
    (h : (listed adjacency c).Nodup) (a b : α) : (listed (dropNeighbor adjacency a b) c).Nodup := by
  rw [listed_dropNeighbor]
  split
  · exact (swapErase_perm _ _).nodup_iff.2 (h.sublist List.eraseP_sublist)
  · exact h

theorem mem_listed_dropNeighbor {adjacency : SwapMap α (List α)} {a b c d : α}
    (h : (listed adjacency c).Nodup) :
    d ∈ listed (dropNeighbor adjacency a b) c ↔ d ∈ listed adjacency c ∧ ¬ (c = a ∧ d = b) := by
  rw [listed_dropNeighbor]
  split
  · next hc => rw [mem_swapErase_same h, same_iff.1 hc, not_and]; simp
  · next hc => simp [show c ≠ a by simpa using hc]

theorem weight?_removeEdge (g : Graph α) (a b c d : α) :
    (g.removeEdge a b).weight? c d =
      if same (edgeKey a b) (edgeKey c d) then none else g.weight? c d := by
  unfold removeEdge weight?
  exact SwapMap.get?_erase _ _ _

theorem adj_removeEdge {g : Graph α} {a b c d : α} :
    (g.removeEdge a b).Adj c d ↔ g.Adj c d ∧ ¬ (c = a ∧ d = b) ∧ ¬ (c = b ∧ d = a) := by
  rw [adj_iff, adj_iff, weight?_removeEdge, ← not_or, ← edgeKey_eq_iff]
  split
  · next h => simp [same_iff.1 h]
  · next h => simp [show edgeKey c d ≠ edgeKey a b from fun he => h (by simp [he])]

theorem hasNode_removeEdge (g : Graph α) (a b c : α) :
    (g.removeEdge a b).hasNode c = g.hasNode c := by
  unfold removeEdge hasNode
  rw [contains_dropNeighbor, contains_dropNeighbor]

theorem WellFormed.removeEdge {g : Graph α} (hg : g.WellFormed) (a b : α) :
    (g.removeEdge a b).WellFormed := by
  have hnodup : ∀ c, (listed (dropNeighbor g.adjacency a b) c).Nodup := fun c =>
    nodup_listed_dropNeighbor (hg.nodup c) a b
  refine ⟨fun c d => ?_, fun c => ?_, fun k w h => ?_⟩
  · have hmem : d ∈ (g.removeEdge a b).neighbors c ↔
        (d ∈ g.neighbors c ∧ ¬ (c = a ∧ d = b)) ∧ ¬ (c = b ∧ d = a) := by
      refine (mem_listed_dropNeighbor (hnodup c)).trans (and_congr_left fun _ => ?_)
      exact mem_listed_dropNeighbor (hg.nodup c)
    rw [hmem, adj_removeEdge, hg.mem_neighbors, and_assoc]
  · exact nodup_listed_dropNeighbor (hnodup c) b a
  · unfold Graph.removeEdge at h
    rw [SwapMap.get?_erase] at h
    split at h
    · cases h
    · exact hg.key k w h

/-! ## Removing a node -/

/-- Removes the edges from a node to some others, and the node from their lists. -/
def cutEdges (a : α) (ns : List α) (g : Graph α) : Graph α :=
  ns.foldl (fun g b =>
    { adjacency := dropNeighbor g.adjacency b a, edges := g.edges.erase (edgeKey a b) }) g

theorem cutEdges_cons (a b : α) (ns : List α) (g : Graph α) : cutEdges a (b :: ns) g =
    cutEdges a ns
      { adjacency := dropNeighbor g.adjacency b a, edges := g.edges.erase (edgeKey a b) } := rfl

theorem contains_cutEdges (a : α) (ns : List α) (g : Graph α) (c : α) :
    (cutEdges a ns g).hasNode c = g.hasNode c := by
  induction ns generalizing g with
  | nil => rfl
  | cons b ns ih =>
    rw [cutEdges_cons, ih]
    exact contains_dropNeighbor _ _ _ _

theorem mem_neighbors_cutEdges {a : α} {ns : List α} {g : Graph α}
    (hg : ∀ c, (g.neighbors c).Nodup) :
    (∀ c, ((cutEdges a ns g).neighbors c).Nodup) ∧
      ∀ c d, d ∈ (cutEdges a ns g).neighbors c ↔ d ∈ g.neighbors c ∧ ¬ (c ∈ ns ∧ d = a) := by
  induction ns generalizing g with
  | nil => exact ⟨hg, by simp [cutEdges]⟩
  | cons b ns ih =>
    obtain ⟨hnodup, hmem⟩ := ih
      (g := { adjacency := dropNeighbor g.adjacency b a, edges := g.edges.erase (edgeKey a b) })
      fun c => nodup_listed_dropNeighbor (hg c) b a
    refine ⟨hnodup, fun c d => (hmem c d).trans ?_⟩
    have hone : d ∈ listed (dropNeighbor g.adjacency b a) c ↔
        d ∈ g.neighbors c ∧ ¬ (c = b ∧ d = a) := mem_listed_dropNeighbor (hg c)
    rw [List.mem_cons]
    refine (and_congr_left fun _ => hone).trans ?_
    tauto

theorem get?_edges_cutEdges (a : α) (ns : List α) (g : Graph α) (k : α × α) (w : Nat) :
    (cutEdges a ns g).edges.get? k = some w ↔
      g.edges.get? k = some w ∧ ∀ b ∈ ns, edgeKey a b ≠ k := by
  induction ns generalizing g with
  | nil => simp [cutEdges]
  | cons b ns ih =>
    rw [cutEdges_cons, ih, SwapMap.get?_erase]
    by_cases h : edgeKey a b = k
    · subst h; simp
    · simp [h]

theorem removeNode_eq {g : Graph α} {a : α} (h : g.hasNode a = true) :
    g.removeNode a = cutEdges a (g.neighbors a) { g with adjacency := g.adjacency.erase a } := by
  unfold removeNode neighbors
  cases hl : g.adjacency.get? a with
  | none => simp [hasNode, SwapMap.contains, hl] at h
  | some l => rfl

theorem removeNode_of_not_hasNode {g : Graph α} {a : α} (h : g.hasNode a = false) :
    g.removeNode a = g := by
  unfold removeNode
  cases hl : g.adjacency.get? a with
  | none => rfl
  | some l => simp [hasNode, SwapMap.contains, hl] at h

theorem neighbors_erase (g : Graph α) (a c : α) :
    neighbors { g with adjacency := g.adjacency.erase a } c =
      if same a c then [] else g.neighbors c := by
  unfold neighbors
  dsimp only
  rw [SwapMap.get?_erase]
  split <;> rfl

theorem hasNode_removeNode {g : Graph α} {a b : α} :
    (g.removeNode a).hasNode b = true ↔ g.hasNode b = true ∧ b ≠ a := by
  by_cases h : g.hasNode a = true
  · rw [removeNode_eq h, contains_cutEdges]
    unfold hasNode SwapMap.contains
    rw [SwapMap.get?_erase]
    split
    · next hb => simp [same_iff.1 hb]
    · next hb => simp [show b ≠ a from fun h => hb (same_iff.2 h.symm)]
  · have hf : g.hasNode a = false := by simpa using h
    rw [removeNode_of_not_hasNode hf]
    refine ⟨fun hb => ⟨hb, ?_⟩, And.left⟩
    rintro rfl
    exact h hb

theorem weight?_removeNode {g : Graph α} (hg : g.WellFormed) {a b c : α} {w : Nat} :
    (g.removeNode a).weight? b c = some w ↔ g.weight? b c = some w ∧ b ≠ a ∧ c ≠ a := by
  by_cases h : g.hasNode a = true
  · rw [removeNode_eq h, weight?, get?_edges_cutEdges]
    refine and_congr_right fun hw => ?_
    have hbc : g.Adj b c := adj_iff.2 ⟨w, hw⟩
    constructor
    · intro hcut
      refine ⟨?_, ?_⟩
      · rintro rfl
        exact hcut c ((hg.mem_neighbors b c).2 hbc) rfl
      · rintro rfl
        exact hcut b ((hg.mem_neighbors c b).2 hbc.symm) (edgeKey_comm c b)
    · rintro ⟨hb, hc⟩ d - hd
      rcases edgeKey_eq_iff.1 hd with ⟨rfl, -⟩ | ⟨rfl, -⟩
      · exact hb rfl
      · exact hc rfl
  · have hf : g.hasNode a = false := by simpa using h
    rw [removeNode_of_not_hasNode hf]
    refine ⟨fun hw => ⟨hw, ?_, ?_⟩, And.left⟩
    · rintro rfl
      exact h (hg.hasNode_left (adj_iff.2 ⟨w, hw⟩))
    · rintro rfl
      exact h (hg.hasNode_right (adj_iff.2 ⟨w, hw⟩))

theorem adj_removeNode {g : Graph α} (hg : g.WellFormed) {a b c : α} :
    (g.removeNode a).Adj b c ↔ g.Adj b c ∧ b ≠ a ∧ c ≠ a := by
  simp only [adj_iff, weight?_removeNode hg, exists_and_right]

theorem WellFormed.removeNode {g : Graph α} (hg : g.WellFormed) (a : α) :
    (g.removeNode a).WellFormed := by
  by_cases h : g.hasNode a = true
  · have herase : ∀ c, (neighbors { g with adjacency := g.adjacency.erase a } c).Nodup := fun c => by
      rw [neighbors_erase]
      split
      · exact List.nodup_nil
      · exact hg.nodup c
    obtain ⟨hnodup, hmem⟩ := mem_neighbors_cutEdges (a := a) herase
    refine ⟨fun c d => ?_, fun c => ?_, fun k w hk => ?_⟩
    · rw [adj_removeNode hg, removeNode_eq h, hmem, neighbors_erase]
      by_cases hca : c = a
      · simp [hca]
      · rw [if_neg (by simpa using Ne.symm hca), hg.mem_neighbors, hg.mem_neighbors]
        refine and_congr_right fun hcd => ?_
        constructor
        · exact fun hnot => ⟨hca, fun hda => hnot ⟨hda ▸ hcd.symm, hda⟩⟩
        · exact fun hne hcut => hne.2 hcut.2
    · rw [removeNode_eq h]
      exact hnodup c
    · rw [removeNode_eq h, get?_edges_cutEdges] at hk
      exact hg.key k w hk.1
  · rw [removeNode_of_not_hasNode (by simpa using h)]
    exact hg

end Graph

end LatticeSurgery
