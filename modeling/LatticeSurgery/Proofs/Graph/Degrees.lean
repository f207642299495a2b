import LatticeSurgery.Proofs.Graph.Counting

/-!
# Counting steps

Each edge can be taken in two directions, so there are at most twice as many steps from node to node
as there are edges (`length_le_of_steps`). In particular the degrees of the nodes add up to at most
twice the number of edges (`sum_degree_le`). A node inside a path that meets no node twice has two
neighbours at least (`IsPath.two_le_degree`).
-/

namespace LatticeSurgery

open Ordered

namespace Graph

variable {α : Type} [Ordered α] {g : Graph α} {l : List α}

theorem WellFormed.edgeKey_mem_edgeKeys (hg : g.WellFormed) {a b : α} :
    edgeKey a b ∈ g.edgeKeys ↔ g.Adj a b := by
  rw [hg.mem_edgeKeys, and_iff_right (edgeKey_edgeKey a b)]
  rcases edgeKey_eq_iff.1 (edgeKey_edgeKey a b) with ⟨h₁, h₂⟩ | ⟨h₁, h₂⟩ <;> rw [h₁, h₂]
  exact adj_comm

/-- The steps that lead out of some nodes. -/
def stepsFrom (g : Graph α) (l : List α) : List (α × α) :=
  l.flatMap fun a => (g.neighbors a).map fun b => (a, b)

theorem mem_stepsFrom {p : α × α} : p ∈ g.stepsFrom l ↔ p.1 ∈ l ∧ p.2 ∈ g.neighbors p.1 := by
  obtain ⟨a, b⟩ := p
  simp only [stepsFrom, List.mem_flatMap, List.mem_map, Prod.mk.injEq]
  constructor
  · rintro ⟨c, hc, d, hd, rfl, rfl⟩
    exact ⟨hc, hd⟩
  · rintro ⟨ha, hb⟩
    exact ⟨a, ha, b, hb, rfl, rfl⟩

theorem length_stepsFrom (g : Graph α) (l : List α) :
    (g.stepsFrom l).length = (l.map g.degree).sum := by
  rw [stepsFrom, List.length_flatMap]
  simp only [List.length_map]
  rfl

theorem nodup_stepsFrom (hg : g.WellFormed) (hl : l.Nodup) : (g.stepsFrom l).Nodup := by
  refine List.nodup_flatMap.2 ⟨fun a _ => ?_, hl.imp fun {a b} hab => ?_⟩
  · exact (hg.nodup a).map_on fun b _ c _ h => congrArg Prod.snd h
  · rintro p ha hb
    obtain ⟨_, -, rfl⟩ := List.mem_map.1 ha
    obtain ⟨_, -, h⟩ := List.mem_map.1 hb
    exact hab (congrArg Prod.fst h).symm

/-- Steps along some edges are at most twice as many as these. -/
theorem length_le_of_steps {steps keys : List (α × α)} (hsteps : steps.Nodup)
    (hkeys : ∀ p ∈ steps, edgeKey p.1 p.2 ∈ keys) : steps.length ≤ 2 * keys.length := by
  have hsub : steps ⊆ keys ++ keys.map Prod.swap := by
    intro p hp
    have hkey := hkeys p hp
    rw [List.mem_append]
    rcases edgeKey_eq_iff.1 (edgeKey_edgeKey p.1 p.2) with ⟨h₁, h₂⟩ | ⟨h₁, h₂⟩
    · rw [show edgeKey p.1 p.2 = p from Prod.ext h₁ h₂] at hkey
      exact Or.inl hkey
    · rw [show edgeKey p.1 p.2 = p.swap from Prod.ext h₁ h₂] at hkey
      exact Or.inr (List.mem_map.2 ⟨p.swap, hkey, Prod.swap_swap p⟩)
  have hlength := hsteps.length_le_of_subset hsub
  rw [List.length_append, List.length_map] at hlength
  omega

/-- The degrees add up to twice the number of edges at most. -/
theorem sum_degree_le (hg : g.WellFormed) : (g.nodes.map g.degree).sum ≤ 2 * g.edgeCount := by
  rw [← length_stepsFrom, ← length_edgeKeys]
  refine length_le_of_steps (nodup_stepsFrom hg g.nodup_nodes) fun p hp => ?_
  exact hg.edgeKey_mem_edgeKeys.2 ((hg.mem_neighbors p.1 p.2).1 (mem_stepsFrom.1 hp).2)

/-- One node less takes its degree off the sum. -/
theorem sum_degree_filter {p : α → Bool} {a : α} (hl : l.Nodup) (ha : a ∈ l) (hp : p a = true) :
    ((l.filter p).map g.degree).sum =
      g.degree a + ((l.filter fun b => p b && !same b a).map g.degree).sum := by
  induction l with
  | nil => cases ha
  | cons b bs ih =>
    obtain ⟨hb, hbs⟩ := List.nodup_cons.1 hl
    rcases List.mem_cons.1 ha with rfl | ha
    · have hrest : bs.filter (fun b => p b && !same b a) = bs.filter p :=
        List.filter_congr fun c hc => by
          have hca : c ≠ a := fun h => hb (h ▸ hc)
          simp [hca]
      rw [List.filter_cons_of_pos hp, List.filter_cons_of_neg (by simp), hrest]
      rfl
    · have hba : b ≠ a := fun h => hb (h ▸ ha)
      by_cases hpb : p b = true
      · rw [List.filter_cons_of_pos hpb, List.filter_cons_of_pos (by simp [hpb, hba]), List.map_cons,
          List.map_cons, List.sum_cons, List.sum_cons, ih hbs ha]
        omega
      · rw [List.filter_cons_of_neg hpb, List.filter_cons_of_neg (by simp [hpb]), ih hbs ha]

/-! ## Degrees along a path -/

variable {a b c : α} {p : List α}

/-- A node of a path other than its ends stands between two others. -/
theorem IsPath.exists_around (hp : g.IsPath a b p) (hc : c ∈ p) (ha : c ≠ a) (hb : c ≠ b) :
    ∃ q x y r, p = q ++ x :: c :: y :: r := by
  obtain ⟨s, r, rfl⟩ := List.append_of_mem hc
  have hhead := hp.head
  have hlast := hp.last
  rcases s.eq_nil_or_concat with rfl | ⟨q, x, rfl⟩
  · exact absurd (Option.some.inj hhead) ha
  · cases r with
    | nil =>
      rw [List.getLast?_append] at hlast
      exact absurd (Option.some.inj hlast) hb
    | cons y r => exact ⟨q, x, y, r, by simp⟩

/-- A node inside a path that meets no node twice has two different neighbours. -/
theorem IsPath.two_le_degree (hg : g.WellFormed) (hp : g.IsPath a b p) (hnodup : p.Nodup)
    (hc : c ∈ p) (ha : c ≠ a) (hb : c ≠ b) : 2 ≤ g.degree c := by
  by_contra hdegree
  obtain ⟨q, x, y, r, rfl⟩ := hp.exists_around hc ha hb
  have hchain := (List.isChain_append.1 hp.chain).2.1
  obtain ⟨hxc, hrest⟩ := List.isChain_cons_cons.1 hchain
  have hcy := (List.isChain_cons_cons.1 hrest).1
  have hxy : x = y := hg.eq_of_degree_le_one (by omega) hxc.symm hcy
  have hx := (List.nodup_cons.1 (List.nodup_append.1 hnodup).2.1).1
  exact hx (by simp [hxy])

end Graph

end LatticeSurgery
