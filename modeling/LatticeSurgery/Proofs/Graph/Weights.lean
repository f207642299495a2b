import LatticeSurgery.Proofs.Graph.Degrees
import LatticeSurgery.Proofs.Graph.Distance
import LatticeSurgery.Proofs.Graph.Edits

/-!
# Weights from a table

A graph takes its weights from a table when every edge has the weight that the table gives its ends
(`Graph.WeighedBy`). Edits keep it so, as long as the edges that they add have the weights of the table
too. The weight of a path in such a graph is a sum over the edges that the path takes (`pathKeys`), and
depends on the table only.
-/

namespace LatticeSurgery

open Ordered

namespace Graph

variable {α β : Type} [Ordered α] {g : Graph α} {f : α → α → Option Nat} {a b : α} {w : Nat}

/-- Every edge has the weight that a table gives its ends. -/
def WeighedBy (g : Graph α) (f : α → α → Option Nat) : Prop :=
  ∀ a b w, g.weight? a b = some w → f a b = some w

/-! ## Edits -/

theorem weighedBy_refl (g : Graph α) : g.WeighedBy g.weight? := fun _ _ _ hw => hw

theorem weighedBy_empty (f : α → α → Option Nat) : (∅ : Graph α).WeighedBy f := by
  intro a b w hw
  cases hw

theorem WeighedBy.weight? (hg : g.WeighedBy f) (hab : g.Adj a b) : g.weight? a b = f a b := by
  obtain ⟨w, hw⟩ := adj_iff.1 hab
  rw [hw, hg a b w hw]

theorem WeighedBy.addNode (hg : g.WeighedBy f) (n : α) : (g.addNode n).WeighedBy f := by
  intro a b w hw
  rw [weight?_addNode] at hw
  exact hg a b w hw

theorem WeighedBy.foldl_addNode (hg : g.WeighedBy f) (s : β → α) (l : List β) :
    (l.foldl (fun g e => g.addNode (s e)) g).WeighedBy f :=
  List.foldlRecOn (motive := fun g : Graph α => g.WeighedBy f) l _ hg
    fun _ hg e _ => hg.addNode (s e)

theorem WeighedBy.removeEdge (hg : g.WeighedBy f) (a b : α) : (g.removeEdge a b).WeighedBy f := by
  intro c d w hw
  rw [weight?_removeEdge] at hw
  split at hw
  · cases hw
  · exact hg c d w hw

theorem WeighedBy.foldl_removeEdge (hg : g.WeighedBy f) (a : α) (s : β → α) (l : List β) :
    (l.foldl (fun g e => g.removeEdge a (s e)) g).WeighedBy f :=
  List.foldlRecOn (motive := fun g : Graph α => g.WeighedBy f) l _ hg
    fun _ hg e _ => hg.removeEdge a (s e)

theorem WeighedBy.removeNode (hg : g.WeighedBy f) (hwell : g.WellFormed) (a : α) :
    (g.removeNode a).WeighedBy f := by
  intro c d w hw
  exact hg c d w ((weight?_removeNode hwell).1 hw).1

theorem WeighedBy.foldl_removeNode (hg : g.WeighedBy f) (hwell : g.WellFormed) (l : List α) :
    (l.foldl Graph.removeNode g).WeighedBy f := by
  induction l generalizing g with
  | nil => exact hg
  | cons a as ih => exact ih (hg.removeNode hwell a) (hwell.removeNode a)

theorem WeighedBy.of_mem_incident (hg : g.WeighedBy f) (hwell : g.WellFormed) {e : α × Nat}
    (he : e ∈ g.incident a) : f a e.1 = some e.2 :=
  hg a e.1 e.2 (hwell.mem_incident.1 he)

section Symmetric

variable (hf : ∀ a b, f a b = f b a)

include hf

theorem WeighedBy.addEdge (hg : g.WeighedBy f) (hw : f a b = some w) :
    (g.addEdge a b w).WeighedBy f := by
  intro c d v hv
  rw [weight?_addEdge] at hv
  split at hv
  · next hkey =>
    cases hv
    rcases edgeKey_eq_iff.1 (same_iff.1 hkey) with ⟨rfl, rfl⟩ | ⟨rfl, rfl⟩
    · exact hw
    · rw [hf]
      exact hw
  · exact hg c d v hv

theorem WeighedBy.foldl_addEdge (hg : g.WeighedBy f) {s t : β → α} {w : β → Nat} {l : List β}
    (hl : ∀ e ∈ l, f (s e) (t e) = some (w e)) :
    (l.foldl (fun g e => g.addEdge (s e) (t e) (w e)) g).WeighedBy f :=
  List.foldlRecOn (motive := fun g : Graph α => g.WeighedBy f) l _ hg
    fun _ hg e he => hg.addEdge hf (hl e he)

end Symmetric

/-! ## The edges of a path -/

section Keys

variable {p : List α} {k : α × α}

/-- The edges that a path takes, under their keys. -/
def pathKeys : List α → List (α × α)
  | a :: b :: rest => edgeKey a b :: pathKeys (b :: rest)
  | _ => []

theorem length_pathKeys (a : α) (p : List α) : (pathKeys (a :: p)).length = p.length := by
  induction p generalizing a with
  | nil => rfl
  | cons b p ih => exact congrArg (· + 1) (ih b)

theorem mem_of_mem_pathKeys (hk : k ∈ pathKeys p) : k.1 ∈ p ∧ k.2 ∈ p := by
  induction p with
  | nil => cases hk
  | cons a p ih =>
    cases p with
    | nil => cases hk
    | cons b p =>
      rcases List.mem_cons.1 hk with rfl | hk
      · rcases edgeKey_eq_iff.1 (edgeKey_edgeKey a b) with ⟨h₁, h₂⟩ | ⟨h₁, h₂⟩ <;> rw [h₁, h₂] <;> simp
      · obtain ⟨h₁, h₂⟩ := ih hk
        exact ⟨List.mem_cons_of_mem _ h₁, List.mem_cons_of_mem _ h₂⟩

/-- A path that meets no node twice takes no edge twice. -/
theorem nodup_pathKeys (hp : p.Nodup) : (pathKeys p).Nodup := by
  induction p with
  | nil => exact List.nodup_nil
  | cons a p ih =>
    obtain ⟨ha, hp⟩ := List.nodup_cons.1 hp
    cases p with
    | nil => exact List.nodup_nil
    | cons b p =>
      refine List.nodup_cons.2 ⟨fun hk => ha ?_, ih hp⟩
      obtain ⟨h₁, h₂⟩ := mem_of_mem_pathKeys hk
      rcases edgeKey_eq_iff.1 (edgeKey_edgeKey a b) with ⟨h, -⟩ | ⟨-, h⟩
      · rwa [h] at h₁
      · rwa [h] at h₂

theorem WellFormed.pathKeys_subset (hg : g.WellFormed) (hp : p.IsChain g.Adj) :
    pathKeys p ⊆ g.edgeKeys := by
  induction p with
  | nil => exact List.nil_subset _
  | cons a p ih =>
    cases p with
    | nil => exact List.nil_subset _
    | cons b p =>
      obtain ⟨hab, hrest⟩ := List.isChain_cons_cons.1 hp
      exact List.cons_subset.2 ⟨hg.edgeKey_mem_edgeKeys.2 hab, ih hrest⟩

/-- A path goes from the one node to the other in one step, or back. -/
def Steps (p : List α) (a b : α) : Prop := edgeKey a b ∈ pathKeys p

theorem steps_iff : Steps p a b ↔ [a, b] <:+: p ∨ [b, a] <:+: p := by
  unfold Steps
  induction p with
  | nil => simp [pathKeys]
  | cons c p ih =>
    cases p with
    | nil => simp [pathKeys, List.infix_cons_iff]
    | cons d p =>
      have hpair : ∀ x y : α, [x, y] <:+: c :: d :: p ↔ (x = c ∧ y = d) ∨ [x, y] <:+: d :: p := by
        intro x y
        rw [List.infix_cons_iff, List.cons_prefix_cons, List.cons_prefix_cons]
        simp
      rw [pathKeys, List.mem_cons, edgeKey_eq_iff, ih, hpair, hpair]
      tauto

theorem steps_reverse : Steps p.reverse a b ↔ Steps p a b := by
  have hreverse : ∀ x y : α, [x, y] <:+: p.reverse ↔ [y, x] <:+: p := fun x y => by
    rw [← List.reverse_infix, List.reverse_reverse]
    rfl
  rw [steps_iff, steps_iff, hreverse, hreverse, or_comm]

theorem Steps.mem (h : Steps p a b) : a ∈ p := by
  rcases steps_iff.1 h with h | h <;> exact h.subset (by simp)

theorem Steps.adj (h : Steps p a b) (hg : g.WellFormed) (hp : p.IsChain g.Adj) : g.Adj a b :=
  hg.edgeKey_mem_edgeKeys.1 (hg.pathKeys_subset hp h)

/-- From its first node, a path that meets no node twice only steps to the second one. -/
theorem Steps.eq_second {n : α} (h : Steps (a :: n :: p) a b) (hnodup : (a :: n :: p).Nodup) :
    b = n := by
  obtain ⟨ha, -⟩ := List.nodup_cons.1 hnodup
  rcases List.mem_cons.1 h with hkey | hrest
  · rcases edgeKey_eq_iff.1 hkey with ⟨-, rfl⟩ | ⟨rfl, -⟩
    · rfl
    · exact absurd List.mem_cons_self ha
  · exact absurd (Steps.mem hrest) ha

/-- A path between different nodes takes a step at its start, and one at its end. -/
theorem IsPath.exists_step {c : α} (hp : g.IsPath a b p) (hne : a ≠ b) (hc : c = a ∨ c = b) :
    ∃ x, Steps p c x := by
  obtain ⟨⟨n, t, hfirst⟩, ⟨m, u, hlast⟩⟩ := hp.exists_inner hne
  rcases hc with rfl | rfl
  · exact ⟨n, by rw [hfirst]; exact List.mem_cons_self⟩
  · exact ⟨m, by rw [← steps_reverse, hlast]; exact List.mem_cons_self⟩

/-- A path that meets no node twice takes only one step at its start, and one at its end. -/
theorem IsPath.step_eq {x y c : α} (hp : g.IsPath a b p) (hne : a ≠ b) (hnodup : p.Nodup)
    (hc : c = a ∨ c = b) (hx : Steps p c x) (hy : Steps p c y) : x = y := by
  obtain ⟨⟨n, t, hfirst⟩, ⟨m, u, hlast⟩⟩ := hp.exists_inner hne
  rcases hc with rfl | rfl
  · rw [hfirst] at hx hy hnodup
    exact (hx.eq_second hnodup).trans (hy.eq_second hnodup).symm
  · rw [← steps_reverse, hlast] at hx hy
    rw [← List.nodup_reverse, hlast] at hnodup
    exact (hx.eq_second hnodup).trans (hy.eq_second hnodup).symm

/-- The sum of the weights that a table gives some edges. -/
def keysWeight (f : α → α → Option Nat) (keys : List (α × α)) : Nat :=
  (keys.map fun k => (f k.1 k.2).getD 0).sum

omit [Ordered α] in
/-- More edges weigh more. -/
theorem keysWeight_le (f : α → α → Option Nat) {keys keys' : List (α × α)} (hkeys : keys.Nodup)
    (hsub : keys ⊆ keys') : keysWeight f keys ≤ keysWeight f keys' := by
  obtain ⟨l, hperm, hsublist⟩ := List.subperm_of_subset hkeys hsub
  unfold keysWeight
  rw [← (hperm.map _).sum_eq]
  exact (hsublist.map _).sum_le_sum fun _ _ => Nat.zero_le _

/-- The weight of a path is the sum of the weights of its edges. -/
theorem WeighedBy.pathWeight_eq (hf : ∀ a b, f a b = f b a) (hg : g.WeighedBy f)
    (hp : p.IsChain g.Adj) : g.pathWeight p = keysWeight f (pathKeys p) := by
  induction p with
  | nil => rfl
  | cons a p ih =>
    cases p with
    | nil => rfl
    | cons b p =>
      obtain ⟨hab, hrest⟩ := List.isChain_cons_cons.1 hp
      have hkey : f (edgeKey a b).1 (edgeKey a b).2 = f a b := by
        rcases edgeKey_eq_iff.1 (edgeKey_edgeKey a b) with ⟨h₁, h₂⟩ | ⟨h₁, h₂⟩ <;> rw [h₁, h₂]
        exact hf b a
      rw [pathWeight_cons_cons, ih hrest, hg.weight? hab, ← hkey]
      rfl

end Keys

end Graph

end LatticeSurgery
