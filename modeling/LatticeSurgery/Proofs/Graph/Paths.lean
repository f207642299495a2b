import LatticeSurgery.Cache.Routes
import LatticeSurgery.Graph.ShortestPath
import LatticeSurgery.Proofs.Collections
import LatticeSurgery.Proofs.Graph.WellFormed
import Mathlib.Data.List.Chain
import Mathlib.Logic.Relation

/-!
# Paths and connected graphs

A path is a list of nodes each of which is joined to the next one (`Graph.IsPath`); a graph is
connected when every two of its nodes are linked by edges. The search for a shortest path returns a
path between the nodes asked for, and the path meets its goal at its end only, because the search
never goes on from the goal. It meets no node twice, because the nodes on the way to a node were
reached before it, and no way back to them is shorter (`shortestPath?_nodup`).
-/

namespace LatticeSurgery

open Ordered Relation

namespace Graph

variable {α : Type} [Ordered α] {g h : Graph α} {a b c : α} {p q : List α}

/-! ## Subgraphs -/

/-- The nodes and the edges of `g` are nodes and edges of `h`. -/
structure Within (g h : Graph α) : Prop where
  node : ∀ a, g.hasNode a = true → h.hasNode a = true
  edge : ∀ a b, g.Adj a b → h.Adj a b

theorem Within.refl (g : Graph α) : g.Within g := ⟨fun _ h => h, fun _ _ h => h⟩

theorem Within.trans {k : Graph α} (hgh : g.Within h) (hhk : h.Within k) : g.Within k :=
  ⟨fun a ha => hhk.node a (hgh.node a ha), fun a b hab => hhk.edge a b (hgh.edge a b hab)⟩

theorem within_empty (g : Graph α) : (∅ : Graph α).Within g := by
  refine ⟨fun a ha => ?_, fun a b hab => absurd hab (not_adj_empty a b)⟩
  rw [not_hasNode_empty] at ha
  cases ha

theorem Within.addEdge (hgh : g.Within h) (hg : g.WellFormed) (hh : h.WellFormed)
    (hab : h.Adj a b) (w : Nat) : (g.addEdge a b w).Within h := by
  refine ⟨fun c hc => ?_, fun c d hcd => ?_⟩
  · rcases (hasNode_addEdge hg).1 hc with rfl | rfl | hc
    · exact hh.hasNode_left hab
    · exact hh.hasNode_right hab
    · exact hgh.node c hc
  · rcases adj_addEdge.1 hcd with ⟨rfl, rfl⟩ | ⟨rfl, rfl⟩ | hcd
    · exact hab
    · exact hab.symm
    · exact hgh.edge c d hcd

/-! ## Linked nodes -/

/-- Two nodes are linked by edges. -/
abbrev Linked (g : Graph α) : α → α → Prop := ReflTransGen g.Adj

theorem Linked.symm (hab : g.Linked a b) : g.Linked b a := by
  induction hab with
  | refl => exact ReflTransGen.refl
  | tail _ hbc ih => exact ih.head hbc.symm

theorem Linked.mono (hgh : ∀ a b, g.Adj a b → h.Adj a b) (hab : g.Linked a b) : h.Linked a b :=
  ReflTransGen.mono hgh a b hab

theorem equivalence_linked (g : Graph α) : Equivalence g.Linked :=
  ⟨fun _ => ReflTransGen.refl, Linked.symm, ReflTransGen.trans⟩

/-- Every two nodes are linked. -/
def Connected (g : Graph α) : Prop :=
  ∀ a b, g.hasNode a = true → g.hasNode b = true → g.Linked a b

theorem connected_empty : (∅ : Graph α).Connected := by
  intro a b ha
  rw [not_hasNode_empty] at ha
  cases ha

/-- The two nodes of a connected graph without other nodes are joined by an edge. -/
theorem Connected.adj_of_pair (hg : g.Connected) (hnodes : ∀ c, g.hasNode c = true ↔ c = a ∨ c = b)
    (hwell : g.WellFormed) (hne : a ≠ b) : g.Adj a b := by
  have hreach : ∀ c, g.Linked a c → c = a ∨ g.Adj a b := by
    intro c hc
    induction hc with
    | refl => exact Or.inl rfl
    | tail _ hcd ih =>
      rcases (hnodes _).1 (hwell.hasNode_right hcd) with rfl | rfl
      · exact Or.inl rfl
      · rcases ih with rfl | hab
        · exact Or.inr hcd
        · exact Or.inr hab
  have hlinked := hg a b ((hnodes a).2 (Or.inl rfl)) ((hnodes b).2 (Or.inr rfl))
  exact (hreach b hlinked).resolve_left fun hba => hne hba.symm

/-- A graph is connected when one node is linked to all of them. -/
theorem connected_of_center (c : α) (hc : ∀ a, g.hasNode a = true → g.Linked c a) :
    g.Connected :=
  fun a b ha hb => (Linked.symm (hc a ha)).trans (hc b hb)

/-! ## Paths -/

/-- A list of nodes, each joined to the next one, that leads from `a` to `b`. -/
structure IsPath (g : Graph α) (a b : α) (p : List α) : Prop where
  head : p.head? = some a
  last : p.getLast? = some b
  chain : p.IsChain g.Adj

theorem isPath_singleton (g : Graph α) (a : α) : g.IsPath a a [a] :=
  ⟨rfl, rfl, List.isChain_singleton a⟩

theorem IsPath.ne_nil (hp : g.IsPath a b p) : p ≠ [] := by
  rintro rfl
  cases hp.head

theorem IsPath.reverse (hp : g.IsPath a b p) : g.IsPath b a p.reverse := by
  refine ⟨by rw [List.head?_reverse, hp.last], by rw [List.getLast?_reverse, hp.head], ?_⟩
  rw [List.isChain_reverse]
  exact hp.chain.imp fun _ _ => Adj.symm

theorem IsPath.mono (hgh : ∀ a b, g.Adj a b → h.Adj a b) (hp : g.IsPath a b p) :
    h.IsPath a b p :=
  ⟨hp.head, hp.last, hp.chain.imp fun a b => hgh a b⟩

theorem IsPath.cons (hp : g.IsPath b c p) (hab : g.Adj a b) : g.IsPath a c (a :: p) := by
  obtain ⟨b', t, rfl⟩ := List.exists_cons_of_ne_nil hp.ne_nil
  cases hp.head
  exact ⟨rfl, by simpa using hp.last, List.isChain_cons_cons.2 ⟨hab, hp.chain⟩⟩

/-- Induction along a path, from its end. -/
@[elab_as_elim]
theorem IsPath.induct {motive : α → List α → Prop} (single : motive b [b])
    (step : ∀ a c p, g.Adj a c → g.IsPath c b (c :: p) → motive c (c :: p) → motive a (a :: c :: p))
    (hp : g.IsPath a b p) : motive a p := by
  induction p generalizing a with
  | nil => exact absurd rfl hp.ne_nil
  | cons x p ih =>
    obtain rfl : x = a := Option.some.inj hp.head
    cases p with
    | nil =>
      obtain rfl : x = b := Option.some.inj hp.last
      exact single
    | cons y p =>
      obtain ⟨hxy, hrest⟩ := List.isChain_cons_cons.1 hp.chain
      have hpath : g.IsPath y b (y :: p) := ⟨rfl, by simpa using hp.last, hrest⟩
      exact step x y p hxy hpath (ih hpath)

/-- A path between different nodes has a first and a last step. -/
theorem IsPath.exists_inner (hp : g.IsPath a b p) (hab : a ≠ b) :
    (∃ n t, p = a :: n :: t) ∧ ∃ m t, p.reverse = b :: m :: t := by
  have hfirst : ∀ {a b : α} {p : List α}, g.IsPath a b p → a ≠ b → ∃ n t, p = a :: n :: t := by
    intro a b p hp hab
    match p, hp with
    | [], hp => cases hp.head
    | [x], hp =>
      cases hp.head
      cases hp.last
      exact absurd rfl hab
    | x :: n :: t, hp =>
      cases hp.head
      exact ⟨n, t, rfl⟩
  exact ⟨hfirst hp hab, hfirst hp.reverse hab.symm⟩

theorem hasPath_iff : g.hasPath p = true ↔ p.IsChain g.Adj := by
  induction p with
  | nil => simp [hasPath]
  | cons x xs ih =>
    cases xs with
    | nil => simp [hasPath]
    | cons y ys =>
      rw [hasPath, Bool.and_eq_true, ih, List.isChain_cons_cons]
      exact Iff.rfl

/-- The nodes of a path of joined nodes are nodes of the graph, unless the path is a single node. -/
theorem hasNode_of_mem_chain (hg : g.WellFormed) {x : α} {t : List α}
    (hp : (a :: b :: t).IsChain g.Adj) (hx : x ∈ a :: b :: t) : g.hasNode x = true := by
  induction t generalizing a b with
  | nil =>
    have hab : g.Adj a b := (List.isChain_cons_cons.1 hp).1
    simp only [List.mem_cons, List.not_mem_nil, or_false] at hx
    rcases hx with rfl | rfl
    · exact hg.hasNode_left hab
    · exact hg.hasNode_right hab
  | cons c t ih =>
    obtain ⟨hab, hrest⟩ := List.isChain_cons_cons.1 hp
    rcases List.mem_cons.1 hx with rfl | hx
    · exact hg.hasNode_left hab
    · exact ih hrest hx

/-! ## The search for a shortest path -/

/-- What the search knows of a node that it reached: a path from the node back to the start, which
meets the goal in its first node at most. -/
structure Trail (g : Graph α) (start goal a : α) (trail : List α) : Prop where
  path : g.IsPath a start trail
  goal : goal ∉ trail.tail

theorem Trail.cons (ha : g.Trail c b a p) (hab : a ≠ b) {n : α} (hn : g.Adj a n) :
    g.Trail c b n (n :: p) := by
  refine ⟨ha.path.cons hn.symm, ?_⟩
  obtain ⟨a', t, rfl⟩ := List.exists_cons_of_ne_nil ha.path.ne_nil
  cases ha.path.head
  intro hmem
  rcases List.mem_cons.1 hmem with rfl | hmem
  · exact hab rfl
  · exact ha.goal hmem

namespace Search

/-- Every node that was reached has a trail. -/
def Sound (g : Graph α) (start goal : α) (s : Search α) : Prop :=
  ∀ a d trail, s.reached.get? a = some (d, trail) → g.Trail start goal a trail

variable {s : Search α}

theorem sound_start (g : Graph α) (a goal : α) : (start a).Sound g a goal := by
  intro b d trail hb
  rw [start, SortedMap.get?_insert] at hb
  split at hb
  · next hba =>
    rw [Option.some_inj, Prod.mk.injEq] at hb
    rw [same_iff.1 hba, ← hb.2]
    exact ⟨isPath_singleton g a, List.not_mem_nil⟩
  · cases hb

theorem Sound.relax {goal : α} (hs : s.Sound g c goal) {d : Nat} (ha : g.Trail c goal a p)
    (hne : a ≠ goal) {e : α × Nat} (he : g.Adj a e.1) : (s.relax d p e).Sound g c goal := by
  unfold Search.relax
  dsimp only
  split
  · exact hs
  · intro b d' trail hb
    rw [SortedMap.get?_insert] at hb
    split at hb
    · next hbe =>
      rw [Option.some_inj, Prod.mk.injEq] at hb
      rw [same_iff.1 hbe, ← hb.2]
      exact ha.cons hne he
    · exact hs b d' trail hb

theorem Sound.relaxAll {goal : α} {d : Nat} {edges : List (α × Nat)} (hs : s.Sound g c goal)
    (ha : g.Trail c goal a p) (hne : a ≠ goal) (hedges : ∀ e ∈ edges, g.Adj a e.1) :
    (edges.foldl (fun s edge => s.relax d p edge) s).Sound g c goal := by
  induction edges generalizing s with
  | nil => exact hs
  | cons e es ih =>
    exact ih (hs.relax ha hne (hedges e List.mem_cons_self))
      fun e' he' => hedges e' (List.mem_cons_of_mem _ he')

/-- What a search returns is a trail from the goal, turned round. -/
theorem Sound.run {goal : α} {steps d : Nat} (hs : s.Sound g c goal)
    (h : s.run g goal steps = some (d, p)) : g.Trail c goal goal p.reverse := by
  induction steps generalizing s with
  | zero => cases h
  | succ steps ih =>
    unfold Search.run at h
    split at h
    · cases h
    · next score a rest hpop =>
      split at h
      · cases h
      · next d' trail hreached =>
        split at h
        · next hgoal =>
          rw [Option.some_inj, Prod.mk.injEq] at h
          rw [← h.2, List.reverse_reverse, ← same_iff.1 hgoal]
          have ha := hs a d' trail hreached
          exact same_iff.1 hgoal ▸ ha
        · next hgoal =>
          split at h
          · exact ih (s := { s with queue := rest }) hs h
          · refine ih (Sound.relaxAll ?_ (hs a d' trail hreached) (by simpa using hgoal) ?_) h
            · exact hs
            · exact fun e he => adj_of_mem_incident he

end Search

/-- A path that the search finds leads from the one node to the other, and does not meet the goal
before its end. -/
theorem shortestPath?_spec {d : Nat} (h : g.shortestPath? a b = some (d, p)) :
    g.IsPath a b p ∧ b ∉ p.dropLast ∧ g.hasNode a = true ∧ g.hasNode b = true := by
  unfold shortestPath? at h
  split at h
  · next hnodes =>
    have htrail := (Search.sound_start g a b).run h
    refine ⟨by simpa using htrail.path.reverse, ?_, by simpa using hnodes⟩
    have hgoal := htrail.goal
    rwa [List.tail_reverse, List.mem_reverse] at hgoal
  · cases h

/-! ### Paths without repetitions -/

namespace Search

variable {s : Search α} {d : Nat} {e : α × Nat}

theorem reachedWithin_relax (p : List α) (d' : Nat) (h : s.reachedWithin a d = true) :
    (s.relax d' p e).reachedWithin a d = true := by
  unfold relax
  dsimp only
  split
  · exact h
  · next hnew =>
    unfold reachedWithin at h hnew ⊢
    rw [SortedMap.get?_insert]
    by_cases hae : same a e.1 = true
    · rw [if_pos hae]
      rw [← same_iff.1 hae] at hnew
      cases hbest : s.reached.get? a with
      | none =>
        rw [hbest] at h
        cases h
      | some best =>
        rw [hbest] at h hnew
        simp only [decide_eq_true_eq] at h hnew ⊢
        omega
    · rw [if_neg hae]
      exact h

theorem reachedWithin_mono {d' : Nat} (hle : d ≤ d') (h : s.reachedWithin a d = true) :
    s.reachedWithin a d' = true := by
  unfold reachedWithin at h ⊢
  split at h
  · next hbest =>
    rw [decide_eq_true_eq] at h
    simpa using h.trans hle
  · cases h

/-- A path back to the start that meets no node twice, and only nodes that were reached at the
distance `d` or closer. -/
structure Simple (s : Search α) (d : Nat) (p : List α) : Prop where
  nodup : p.Nodup
  reached : ∀ a ∈ p, s.reachedWithin a d = true

/-- The paths that the search keeps are simple. -/
def AllSimple (s : Search α) : Prop :=
  ∀ a d p, s.reached.get? a = some (d, p) → s.Simple d p

theorem Simple.relax (h : s.Simple d p) (q : List α) (d' : Nat) : (s.relax d' q e).Simple d p :=
  ⟨h.nodup, fun a ha => reachedWithin_relax q d' (h.reached a ha)⟩

theorem allSimple_start (a : α) : (start a).AllSimple := by
  intro b d p hb
  have hreached := hb
  rw [start, SortedMap.get?_insert] at hb
  split at hb
  · next hba =>
    rw [Option.some_inj, Prod.mk.injEq] at hb
    obtain ⟨rfl, rfl⟩ := hb
    obtain rfl := same_iff.1 hba
    refine ⟨List.nodup_singleton _, fun c hc => ?_⟩
    rw [List.mem_singleton.1 hc]
    unfold reachedWithin
    rw [hreached]
    rfl
  · cases hb

/-- A node on the way was reached at a smaller distance, so a step back to it is not taken. -/
theorem AllSimple.relax (hs : s.AllSimple) (hp : s.Simple d p) : (s.relax d p e).AllSimple := by
  have hkeep : ∀ {d' q}, s.Simple d' q → (s.relax d p e).Simple d' q := fun h => h.relax p d
  intro b d' q hb
  have hafter := hb
  unfold Search.relax at hb
  dsimp only at hb
  split at hb
  · exact hkeep (hs b d' q hb)
  · next hnew =>
    rw [SortedMap.get?_insert] at hb
    split at hb
    · next hbe =>
      obtain rfl := same_iff.1 hbe
      rw [Option.some_inj, Prod.mk.injEq] at hb
      obtain ⟨rfl, rfl⟩ := hb
      refine ⟨List.nodup_cons.2 ⟨fun hmem => ?_, hp.nodup⟩, fun c hc => ?_⟩
      · exact hnew (reachedWithin_mono (Nat.le_add_right d e.2) (hp.reached _ hmem))
      · rcases List.mem_cons.1 hc with rfl | hc
        · unfold reachedWithin
          rw [hafter]
          exact decide_eq_true (Nat.le_refl _)
        · exact reachedWithin_mono (Nat.le_add_right d e.2) ((hkeep hp).reached c hc)
    · exact hkeep (hs b d' q hb)

theorem AllSimple.relaxAll {edges : List (α × Nat)} (hs : s.AllSimple) (hp : s.Simple d p) :
    (edges.foldl (fun s edge => s.relax d p edge) s).AllSimple := by
  induction edges generalizing s with
  | nil => exact hs
  | cons e es ih => exact ih (hs.relax hp) (hp.relax p d)

theorem AllSimple.congr {s' : Search α} (hs : s.AllSimple) (h : s'.reached = s.reached) :
    s'.AllSimple := by
  intro a d p hp
  obtain ⟨hnodup, hreached⟩ := hs a d p (h ▸ hp)
  refine ⟨hnodup, fun b hb => ?_⟩
  unfold reachedWithin
  rw [h]
  exact hreached b hb

theorem AllSimple.run {goal : α} {steps : Nat} (hs : s.AllSimple)
    (h : s.run g goal steps = some (d, p)) : p.Nodup := by
  induction steps generalizing s with
  | zero => cases h
  | succ steps ih =>
    unfold Search.run at h
    split at h
    · cases h
    · next score a rest hpop =>
      split at h
      · cases h
      · next d' trail hreached =>
        have hsimple := hs a d' trail hreached
        split at h
        · cases h
          exact List.nodup_reverse.2 hsimple.nodup
        · split at h
          · exact ih (s := { s with queue := rest }) (hs.congr rfl) h
          · refine ih ?_ h
            refine AllSimple.relaxAll ?_ ⟨hsimple.nodup, hsimple.reached⟩
            exact hs.congr rfl

end Search

/-- A path that the search finds meets no node twice. -/
theorem shortestPath?_nodup {d : Nat} (h : g.shortestPath? a b = some (d, p)) : p.Nodup := by
  unfold shortestPath? at h
  split at h
  · exact (Search.allSimple_start a).run h
  · cases h

end Graph

end LatticeSurgery
