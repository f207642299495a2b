import LatticeSurgery.Proofs.Graph.Degrees
import LatticeSurgery.Proofs.Graph.Heaps

/-!
# The search finds a path of least weight

The search settles nodes in the order of their distance. What it keeps (`Search.Steady`): the heap is
in order, each node that was reached is settled or on the heap at its distance, and what is settled
is no farther away than anything on the heap. When the edges of the settled nodes are relaxed, every
path from the start either ends in a settled node or is at least as long as the best entry of the heap
(`Steady.settled_or_queued`), so no path to the goal is shorter than the one that is found
(`shortestPath?_le`). Each edge puts a node on the heap at most once in either direction, so the search
has steps enough to find a path wherever there is one (`exists_shortestPath?`).
-/

namespace LatticeSurgery

open Ordered Relation

namespace Graph

variable {α : Type} [Ordered α] {g h : Graph α} {a b c : α} {p q : List α} {d w : Nat}

/-! ## The weight of a path -/

/-- The sum of the weights of the steps of a path. -/
def pathWeight (g : Graph α) : List α → Nat
  | a :: b :: rest => (g.weight? a b).getD 0 + pathWeight g (b :: rest)
  | _ => 0

theorem pathWeight_cons_cons (g : Graph α) (a b : α) (p : List α) :
    g.pathWeight (a :: b :: p) = (g.weight? a b).getD 0 + g.pathWeight (b :: p) := rfl

theorem pathWeight_append_cons (g : Graph α) (p : List α) (a : α) (q : List α) :
    g.pathWeight (p ++ a :: q) = g.pathWeight (p ++ [a]) + g.pathWeight (a :: q) := by
  induction p with
  | nil => simp [pathWeight]
  | cons b p ih =>
    cases p with
    | nil => simp [pathWeight]
    | cons c p =>
      simp only [List.cons_append, pathWeight_cons_cons] at ih ⊢
      omega

theorem pathWeight_reverse (g : Graph α) (p : List α) : g.pathWeight p.reverse = g.pathWeight p := by
  induction p with
  | nil => rfl
  | cons a p ih =>
    cases p with
    | nil => rfl
    | cons b p =>
      have hlast : g.pathWeight [b, a] = (g.weight? a b).getD 0 := by
        rw [weight?_comm]
        rfl
      rw [List.reverse_cons, List.reverse_cons, List.append_assoc, List.singleton_append,
        pathWeight_append_cons, hlast, ← List.reverse_cons, ih, pathWeight_cons_cons, Nat.add_comm]

theorem exists_isPath_of_linked (hab : g.Linked a b) : ∃ p, g.IsPath a b p := by
  induction hab using ReflTransGen.head_induction_on with
  | refl => exact ⟨[b], isPath_singleton g b⟩
  | head hstep _ ih =>
    obtain ⟨p, hp⟩ := ih
    exact ⟨_, hp.cons hstep⟩

theorem IsPath.linked (hp : g.IsPath a b p) : g.Linked a b :=
  hp.induct (motive := fun a _ => g.Linked a b) ReflTransGen.refl
    fun _ _ _ hac _ hlinked => hlinked.head hac

theorem IsPath.pathWeight_cons (hp : g.IsPath b c p) (hw : g.weight? a b = some w) :
    g.pathWeight (a :: p) = w + g.pathWeight p := by
  obtain ⟨b', p, rfl⟩ := List.exists_cons_of_ne_nil hp.ne_nil
  cases hp.head
  rw [pathWeight_cons_cons, hw, Option.getD_some]

namespace Search

variable {s : Search α} {e : α × Nat} {source goal : α}

/-! ## Relaxing an edge -/

theorem settled_relax (s : Search α) (d : Nat) (p : List α) (e : α × Nat) :
    (s.relax d p e).settled = s.settled := by
  unfold relax
  dsimp only
  split <;> rfl

theorem reachedWithin_of_get? (h : s.reached.get? a = some (d, p)) : s.reachedWithin a d = true := by
  unfold reachedWithin
  rw [h]
  exact decide_eq_true (Nat.le_refl d)

theorem exists_of_reachedWithin (h : s.reachedWithin a d = true) :
    ∃ best trail, s.reached.get? a = some (best, trail) ∧ best ≤ d := by
  unfold reachedWithin at h
  split at h
  · next best trail hget => exact ⟨best, trail, hget, of_decide_eq_true h⟩
  · cases h

/-- After an edge is relaxed, its end is reached. -/
theorem reachedWithin_relax_self (s : Search α) (d : Nat) (p : List α) (e : α × Nat) :
    (s.relax d p e).reachedWithin e.1 (d + e.2) = true := by
  unfold relax
  dsimp only
  split
  · next hreached => exact hreached
  · refine reachedWithin_of_get? (p := e.1 :: p) ?_
    rw [SortedMap.get?_insert, if_pos (same_self _)]

/-- Relaxing puts one entry on the heap at most. -/
theorem mem_queue_relax {x : Nat × α} (hx : x ∈ (s.relax d p e).queue.entries.toList) :
    x ∈ s.queue.entries.toList ∨ x = (d + e.2, e.1) := by
  unfold relax at hx
  dsimp only at hx
  split at hx
  · exact Or.inl hx
  · exact (List.mem_cons.1 ((ScoreHeap.push_perm _ _ _).mem_iff.1 hx)).symm

theorem mem_queue_relax_of_mem {x : Nat × α} (hx : x ∈ s.queue.entries.toList) :
    x ∈ (s.relax d p e).queue.entries.toList := by
  unfold relax
  dsimp only
  split
  · exact hx
  · exact (ScoreHeap.push_perm _ _ _).mem_iff.2 (List.mem_cons_of_mem _ hx)

/-- What is reached after an edge was relaxed was reached before, or lies on the heap as its end. -/
theorem get?_reached_relax {x : Nat} {trail : List α}
    (h : (s.relax d p e).reached.get? b = some (x, trail)) :
    s.reached.get? b = some (x, trail) ∨
      (b = e.1 ∧ x = d + e.2 ∧ trail = e.1 :: p ∧
        (x, b) ∈ (s.relax d p e).queue.entries.toList) := by
  unfold relax at h ⊢
  dsimp only at h ⊢
  split at h
  · exact Or.inl h
  · next hnew =>
    rw [SortedMap.get?_insert] at h
    split at h
    · next hbe =>
      rw [Option.some_inj, Prod.mk.injEq] at h
      obtain ⟨rfl, rfl⟩ := h
      rw [if_neg hnew, same_iff.1 hbe]
      exact Or.inr ⟨rfl, rfl, rfl, (ScoreHeap.push_perm _ _ _).mem_iff.2 List.mem_cons_self⟩
    · exact Or.inl h

/-! ## What the search keeps -/

/-- What holds of the nodes that were reached, settled and put on the heap. -/
structure Steady (g : Graph α) (source goal : α) (s : Search α) : Prop where
  inOrder : s.queue.InOrder
  source : s.reachedWithin source 0 = true
  weighed : ∀ a d trail, s.reached.get? a = some (d, trail) →
    trail.head? = some a ∧ g.pathWeight trail = d
  queued : ∀ x ∈ s.queue.entries.toList, s.reachedWithin x.2 x.1 = true
  pending : ∀ a d trail, s.reached.get? a = some (d, trail) →
    s.settled.get? a = some d ∨ (d, a) ∈ s.queue.entries.toList
  settled : ∀ a d, s.settled.get? a = some d → s.reachedWithin a d = true
  closer : ∀ a d, s.settled.get? a = some d → ∀ x ∈ s.queue.entries.toList, d ≤ x.1
  goal : s.settled.get? goal = none

/-- The edges at a node are relaxed, if it is settled. -/
def Relaxed (g : Graph α) (s : Search α) (a : α) : Prop :=
  ∀ d, s.settled.get? a = some d →
    ∀ b w, g.weight? a b = some w → s.reachedWithin b (d + w) = true

theorem steady_start (g : Graph α) (a goal : α) : (start a).Steady g a goal := by
  have hentries : ∀ x, x ∈ (start a).queue.entries.toList ↔ x = (0, a) := by
    intro x
    have hperm := ScoreHeap.push_perm (∅ : ScoreHeap α) 0 a
    refine hperm.mem_iff.trans (List.mem_cons.trans (or_iff_left ?_))
    exact List.not_mem_nil
  have hreached : ∀ b d trail, (start a).reached.get? b = some (d, trail) →
      b = a ∧ d = 0 ∧ trail = [a] := by
    intro b d trail hb
    rw [start, SortedMap.get?_insert] at hb
    split at hb
    · next hba =>
      rw [Option.some_inj, Prod.mk.injEq] at hb
      exact ⟨same_iff.1 hba, hb.1.symm, hb.2.symm⟩
    · cases hb
  have hself : (start a).reachedWithin a 0 = true := by
    refine reachedWithin_of_get? (p := [a]) ?_
    rw [start, SortedMap.get?_insert, if_pos (same_self a)]
  refine ⟨ScoreHeap.inOrder_empty.push 0 a, hself, ?_, ?_, ?_, ?_, ?_, rfl⟩
  · intro b d trail hb
    obtain ⟨rfl, rfl, rfl⟩ := hreached b d trail hb
    exact ⟨rfl, rfl⟩
  · intro x hx
    rw [(hentries x).1 hx]
    exact hself
  · intro b d trail hb
    obtain ⟨rfl, rfl, -⟩ := hreached b d trail hb
    exact Or.inr ((hentries _).2 rfl)
  · intro b d hb
    cases hb
  · intro b d hb
    cases hb

/-- Relaxing an edge from the node that was settled last. -/
theorem Steady.relax (hs : s.Steady g source goal) (hhead : p.head? = some a)
    (hweight : g.pathWeight p = d) (hlast : ∀ b x, s.settled.get? b = some x → x ≤ d)
    (he : g.weight? a e.1 = some e.2) : (s.relax d p e).Steady g source goal := by
  refine ⟨?_, reachedWithin_relax p d hs.source, fun b x trail hb => ?_, fun x hx => ?_,
    fun b x trail hb => ?_, fun b x hb => ?_, fun b x hb y hy => ?_, ?_⟩
  · unfold Search.relax
    dsimp only
    split
    · exact hs.inOrder
    · exact hs.inOrder.push _ _
  · rcases get?_reached_relax hb with hb | ⟨rfl, rfl, rfl, -⟩
    · exact hs.weighed b x trail hb
    · obtain ⟨t, rfl⟩ := List.head?_eq_some_iff.1 hhead
      refine ⟨rfl, ?_⟩
      rw [pathWeight_cons_cons, weight?_comm, he, hweight, Option.getD_some, Nat.add_comm]
  · rcases mem_queue_relax hx with hx | rfl
    · exact reachedWithin_relax p d (hs.queued x hx)
    · exact reachedWithin_relax_self s d p e
  · rw [settled_relax]
    rcases get?_reached_relax hb with hb | ⟨-, -, -, hqueued⟩
    · exact (hs.pending b x trail hb).imp_right mem_queue_relax_of_mem
    · exact Or.inr hqueued
  · rw [settled_relax] at hb
    exact reachedWithin_relax p d (hs.settled b x hb)
  · rw [settled_relax] at hb
    rcases mem_queue_relax hy with hy | rfl
    · exact hs.closer b x hb y hy
    · exact (hlast b x hb).trans (Nat.le_add_right d e.2)
  · rw [settled_relax]
    exact hs.goal

theorem Steady.relaxAll {edges : List (α × Nat)} (hs : s.Steady g source goal)
    (hhead : p.head? = some a) (hweight : g.pathWeight p = d)
    (hlast : ∀ b x, s.settled.get? b = some x → x ≤ d)
    (hedges : ∀ e ∈ edges, g.weight? a e.1 = some e.2) :
    (edges.foldl (fun s edge => s.relax d p edge) s).Steady g source goal := by
  induction edges generalizing s with
  | nil => exact hs
  | cons e es ih =>
    refine ih (hs.relax hhead hweight hlast (hedges e List.mem_cons_self)) (fun b x hb => ?_)
      fun e' he' => hedges e' (List.mem_cons_of_mem _ he')
    rw [settled_relax] at hb
    exact hlast b x hb

theorem settled_relaxAll (s : Search α) (d : Nat) (p : List α) (edges : List (α × Nat)) :
    (edges.foldl (fun s edge => s.relax d p edge) s).settled = s.settled := by
  induction edges generalizing s with
  | nil => rfl
  | cons e es ih => rw [List.foldl_cons, ih, settled_relax]

theorem reachedWithin_relaxAll {edges : List (α × Nat)} (h : s.reachedWithin b w = true) :
    (edges.foldl (fun s edge => s.relax d p edge) s).reachedWithin b w = true := by
  induction edges generalizing s with
  | nil => exact h
  | cons e es ih => exact ih (reachedWithin_relax p d h)

theorem reachedWithin_relaxAll_of_mem {edges : List (α × Nat)} (he : e ∈ edges) :
    (edges.foldl (fun s edge => s.relax d p edge) s).reachedWithin e.1 (d + e.2) = true := by
  induction edges generalizing s with
  | nil => cases he
  | cons e' es ih =>
    rw [List.foldl_cons]
    rcases List.mem_cons.1 he with rfl | he
    · exact reachedWithin_relaxAll (reachedWithin_relax_self s d p e)
    · exact ih he

/-! ## Taking a node off the heap -/

section Pop

variable {score : Nat} {rest : ScoreHeap α} (hs : s.Steady g source goal)
  (hpop : s.queue.pop? = some ((score, a), rest))

include hs hpop

/-- Where the node was settled before, it was settled at the distance that is known. -/
theorem Steady.skip (hbefore : s.settledWithin a score = true) :
    Steady g source goal { s with queue := rest } := by
  have hperm := ScoreHeap.pop?_perm hpop
  have hrest : ∀ x ∈ rest.entries.toList, x ∈ s.queue.entries.toList := fun x hx =>
    hperm.mem_iff.2 (List.mem_cons_of_mem _ hx)
  refine ⟨hs.inOrder.pop? hpop, hs.source, hs.weighed, fun x hx => hs.queued x (hrest x hx),
    fun b x trail hb => ?_, hs.settled, fun b x hb y hy => hs.closer b x hb y (hrest y hy), hs.goal⟩
  rcases hs.pending b x trail hb with hsettled | hqueued
  · exact Or.inl hsettled
  · rcases List.mem_cons.1 (hperm.mem_iff.1 hqueued) with heq | hin
    · cases heq
      unfold settledWithin at hbefore
      split at hbefore
      · next best hbest =>
        obtain ⟨x', trail', hx', hle⟩ := exists_of_reachedWithin (hs.settled _ best hbest)
        rw [hb, Option.some_inj, Prod.mk.injEq] at hx'
        have hge := of_decide_eq_true hbefore
        exact Or.inl (hbest.trans (congrArg some (by omega)))
      · cases hbefore
    · exact Or.inr hin

/-- A node that comes off the heap for the first time does so at its distance. -/
theorem Steady.score_eq (hfirst : s.settledWithin a score = false)
    (hreached : s.reached.get? a = some (d, p)) : score = d := by
  have htop : (score, a) ∈ s.queue.entries.toList :=
    (ScoreHeap.pop?_perm hpop).mem_iff.2 List.mem_cons_self
  obtain ⟨d', p', hd', hle⟩ := exists_of_reachedWithin (hs.queued _ htop)
  rw [hreached, Option.some_inj, Prod.mk.injEq] at hd'
  obtain ⟨rfl, -⟩ := hd'
  rcases hs.pending a d p hreached with hsettled | hqueued
  · unfold settledWithin at hfirst
    rw [hsettled] at hfirst
    exact absurd hle (of_decide_eq_false hfirst)
  · exact Nat.le_antisymm (hs.inOrder.le_of_pop? hpop _ hqueued) hle

/-- No node comes off the heap for the first time when it is settled. -/
theorem Steady.not_settled (hfirst : s.settledWithin a score = false) :
    s.settled.get? a = none := by
  cases hsettled : s.settled.get? a with
  | none => rfl
  | some x =>
    have htop : (score, a) ∈ s.queue.entries.toList :=
      (ScoreHeap.pop?_perm hpop).mem_iff.2 List.mem_cons_self
    unfold settledWithin at hfirst
    rw [hsettled] at hfirst
    exact absurd (hs.closer a x hsettled _ htop) (of_decide_eq_false hfirst)

/-- Settling a node at its distance. -/
theorem Steady.settle (hfirst : s.settledWithin a score = false) (hne : a ≠ goal) :
    Steady g source goal { s with queue := rest, settled := s.settled.insert a score } := by
  have hperm := ScoreHeap.pop?_perm hpop
  have hrest : ∀ x ∈ rest.entries.toList, x ∈ s.queue.entries.toList := fun x hx =>
    hperm.mem_iff.2 (List.mem_cons_of_mem _ hx)
  have htop : (score, a) ∈ s.queue.entries.toList := hperm.mem_iff.2 List.mem_cons_self
  refine ⟨hs.inOrder.pop? hpop, hs.source, hs.weighed, fun x hx => hs.queued x (hrest x hx),
    fun b x trail hb => ?_, fun b x hb => ?_, fun b x hb y hy => ?_, ?_⟩
  · dsimp only
    rw [SortedMap.get?_insert]
    split
    · next hba =>
      obtain rfl := same_iff.1 hba
      rw [hs.score_eq hpop hfirst hb]
      exact Or.inl rfl
    · next hba =>
      refine (hs.pending b x trail hb).imp_right fun hqueued => ?_
      rcases List.mem_cons.1 (hperm.mem_iff.1 hqueued) with heq | hin
      · cases heq
        exact absurd (same_self _) hba
      · exact hin
  · dsimp only at hb
    rw [SortedMap.get?_insert] at hb
    split at hb
    · next hba =>
      cases hb
      rw [same_iff.1 hba]
      exact hs.queued _ htop
    · exact hs.settled b x hb
  · dsimp only at hb
    rw [SortedMap.get?_insert] at hb
    split at hb
    · cases hb
      exact hs.inOrder.le_of_pop? hpop y (hrest y hy)
    · exact hs.closer b x hb y (hrest y hy)
  · dsimp only
    rw [SortedMap.get?_insert, if_neg]
    · exact hs.goal
    · rw [same_iff]
      exact hne.symm

end Pop

/-! ## The whole search -/

/-- A path from the start ends in a settled node, or is no shorter than what is on the heap. -/
theorem Steady.settled_or_queued (hs : s.Steady g source goal) (hrelaxed : ∀ a, s.Relaxed g a)
    (hp : g.IsPath a source p) :
    (∃ x ≤ g.pathWeight p, s.settled.get? a = some x) ∨
      ∃ x ∈ s.queue.entries.toList, x.1 ≤ g.pathWeight p := by
  have hreached : ∀ {b : α} {y : Nat}, s.reachedWithin b y = true →
      (∃ x ≤ y, s.settled.get? b = some x) ∨ ∃ x ∈ s.queue.entries.toList, x.1 ≤ y := by
    intro b y hb
    obtain ⟨x, trail, hx, hle⟩ := exists_of_reachedWithin hb
    exact (hs.pending b x trail hx).imp (fun h => ⟨x, hle, h⟩) fun h => ⟨(x, b), h, hle⟩
  refine hp.induct (motive := fun a p => (∃ x ≤ g.pathWeight p, s.settled.get? a = some x) ∨
    ∃ x ∈ s.queue.entries.toList, x.1 ≤ g.pathWeight p) (hreached hs.source) ?_
  intro b c p hbc hrest ih
  obtain ⟨w, hw⟩ := adj_iff.1 hbc
  rw [hrest.pathWeight_cons hw]
  rcases ih with ⟨x, hle, hx⟩ | ⟨x, hx, hle⟩
  · rw [weight?_comm] at hw
    rcases hreached (hrelaxed c x hx b w hw) with ⟨y, hy, hsettled⟩ | ⟨y, hy, hle'⟩
    · exact Or.inl ⟨y, by omega, hsettled⟩
    · exact Or.inr ⟨y, hy, by omega⟩
  · exact Or.inr ⟨x, hx, by omega⟩

/-- A path to the goal is no shorter than what is on the heap. -/
theorem Steady.queued_of_isPath (hs : s.Steady g source goal) (hrelaxed : ∀ a, s.Relaxed g a)
    (hp : g.IsPath goal source p) : ∃ x ∈ s.queue.entries.toList, x.1 ≤ g.pathWeight p := by
  rcases hs.settled_or_queued hrelaxed hp with ⟨x, -, hx⟩ | hqueued
  · rw [hs.goal] at hx
    cases hx
  · exact hqueued

/-- Settling a node and relaxing its edges keeps all edges of settled nodes relaxed. -/
theorem relaxed_relaxAll (hg : g.WellFormed) (hrelaxed : ∀ a, s.Relaxed g a) {rest : ScoreHeap α}
    (b : α) : Relaxed g ((g.incident a).foldl (fun s edge => s.relax d p edge)
      { s with queue := rest, settled := s.settled.insert a d }) b := by
  intro x hx c w hw
  rw [settled_relaxAll, SortedMap.get?_insert] at hx
  split at hx
  · next hba =>
    cases hx
    obtain rfl := same_iff.1 hba
    exact reachedWithin_relaxAll_of_mem (e := (c, w)) (hg.mem_incident.2 hw)
  · exact reachedWithin_relaxAll (hrelaxed b x hx c w hw)

/-- What the search does with a node that comes off the heap for the first time. -/
theorem Steady.visit (hg : g.WellFormed) (hs : s.Steady g source goal) {score : Nat}
    {rest : ScoreHeap α} (hpop : s.queue.pop? = some ((score, a), rest))
    (hfirst : s.settledWithin a score = false) (hne : a ≠ goal)
    (hreached : s.reached.get? a = some (d, p)) :
    Steady g source goal ((g.incident a).foldl (fun s edge => s.relax d p edge)
      { s with queue := rest, settled := s.settled.insert a score }) := by
  obtain rfl := hs.score_eq hpop hfirst hreached
  obtain ⟨hhead, hweight⟩ := hs.weighed a score p hreached
  refine (hs.settle hpop hfirst hne).relaxAll hhead hweight (fun b x hb => ?_)
    fun e he => hg.mem_incident.1 he
  dsimp only at hb
  rw [SortedMap.get?_insert] at hb
  split at hb
  · cases hb
    exact Nat.le_refl _
  · exact hs.closer b x hb _ ((ScoreHeap.pop?_perm hpop).mem_iff.2 List.mem_cons_self)

/-- The search returns the weight of a path, and no path to the goal is shorter. -/
theorem Steady.run {steps : Nat} (hg : g.WellFormed) (hs : s.Steady g source goal)
    (hrelaxed : ∀ a, s.Relaxed g a) (h : s.run g goal steps = some (d, p)) :
    g.pathWeight p = d ∧ ∀ q, g.IsPath goal source q → d ≤ g.pathWeight q := by
  induction steps generalizing s with
  | zero => cases h
  | succ steps ih =>
    unfold Search.run at h
    split at h
    · cases h
    · next score a rest hpop =>
      split at h
      · cases h
      · next d' trail hreached =>
        split at h
        · next hgoal =>
          obtain rfl := same_iff.1 hgoal
          cases h
          refine ⟨?_, fun q hq => ?_⟩
          · rw [pathWeight_reverse]
            exact (hs.weighed a d trail hreached).2
          · have hfirst : s.settledWithin a score = false := by
              unfold settledWithin
              rw [hs.goal]
            rw [← hs.score_eq hpop hfirst hreached]
            obtain ⟨x, hx, hle⟩ := hs.queued_of_isPath hrelaxed hq
            exact (hs.inOrder.le_of_pop? hpop x hx).trans hle
        · next hgoal =>
          have hne : a ≠ goal := by simpa using hgoal
          split at h
          · next hbefore =>
            exact ih (s := { s with queue := rest }) (hs.skip hpop hbefore) hrelaxed h
          · next hbefore =>
            have hfirst := (Bool.not_eq_true _).mp hbefore
            refine ih (hs.visit hg hpop hfirst hne hreached) (fun b => ?_) h
            rw [hs.score_eq hpop hfirst hreached]
            exact relaxed_relaxAll hg hrelaxed b

/-! ## The number of steps -/

/-- How much is left to do: the entries of the heap, and the edges at nodes that are not settled. -/
def work (g : Graph α) (s : Search α) : Nat :=
  s.queue.size +
    ((g.nodes.filter fun a => (s.settled.get? a).isNone).map g.degree).sum

theorem size_of_pop? {score : Nat} {rest : ScoreHeap α}
    (hpop : s.queue.pop? = some ((score, a), rest)) : s.queue.size = rest.size + 1 := by
  have hlength := (ScoreHeap.pop?_perm hpop).length_eq
  rwa [List.length_cons, Array.length_toList, Array.length_toList] at hlength

theorem size_relax_le (s : Search α) (d : Nat) (p : List α) (e : α × Nat) :
    (s.relax d p e).queue.size ≤ s.queue.size + 1 := by
  unfold relax
  dsimp only
  split
  · exact Nat.le_succ _
  · have hlength := (ScoreHeap.push_perm s.queue (d + e.2) e.1).length_eq
    rw [List.length_cons, Array.length_toList, Array.length_toList] at hlength
    exact Nat.le_of_eq hlength

theorem size_relaxAll_le (s : Search α) (d : Nat) (p : List α) (edges : List (α × Nat)) :
    (edges.foldl (fun s edge => s.relax d p edge) s).queue.size ≤ s.queue.size + edges.length := by
  induction edges generalizing s with
  | nil => exact Nat.le_refl _
  | cons e es ih =>
    have hrest := ih (s.relax d p e)
    have hone := size_relax_le s d p e
    rw [List.foldl_cons, List.length_cons]
    omega

theorem length_incident_le (g : Graph α) (a : α) : (g.incident a).length ≤ g.degree a :=
  List.length_filterMap_le _ _

/-- A node that is not settled yet leaves less to do when it is settled. -/
theorem work_visit_lt {score : Nat} {rest : ScoreHeap α}
    (hpop : s.queue.pop? = some ((score, a), rest)) (hnew : s.settled.get? a = none) :
    work g ((g.incident a).foldl (fun s edge => s.relax d p edge)
      { s with queue := rest, settled := s.settled.insert a score }) < work g s := by
  have hsize := size_of_pop? hpop
  have hpushed := size_relaxAll_le { s with queue := rest, settled := s.settled.insert a score }
    d p (g.incident a)
  have hdegree := length_incident_le g a
  have hfilter : (fun b => ((s.settled.insert a score).get? b).isNone) =
      fun b => (s.settled.get? b).isNone && !same b a := by
    funext b
    rw [SortedMap.get?_insert]
    split
    · next hba => simp [hba]
    · next hba => simp [show same b a = false by simpa using hba]
  unfold work
  rw [settled_relaxAll]
  dsimp only at hpushed ⊢
  rw [hfilter]
  by_cases ha : a ∈ g.nodes
  · rw [sum_degree_filter (p := fun b => (s.settled.get? b).isNone) g.nodup_nodes ha (by rw [hnew]; rfl)]
    omega
  · have hzero : g.degree a = 0 := by
      refine List.length_eq_zero_iff.2 (List.eq_nil_iff_forall_not_mem.2 fun b hb => ha ?_)
      exact mem_nodes.2 (hasNode_of_mem_neighbors hb)
    have hsame : g.nodes.filter (fun b => (s.settled.get? b).isNone && !same b a) =
        g.nodes.filter fun b => (s.settled.get? b).isNone :=
      List.filter_congr fun b hb => by
        have hba : b ≠ a := fun h => ha (h ▸ hb)
        simp [hba]
    rw [hsame]
    omega

/-- With steps enough, the search finds the goal if there is a path to it. -/
theorem Steady.exists_run {steps : Nat} (hg : g.WellFormed) (hs : s.Steady g source goal)
    (hrelaxed : ∀ a, s.Relaxed g a) (hsteps : work g s < steps) (hp : g.IsPath goal source p) :
    ∃ r, s.run g goal steps = some r := by
  induction steps generalizing s with
  | zero => omega
  | succ steps ih =>
    obtain ⟨x, hx, -⟩ := hs.queued_of_isPath hrelaxed hp
    unfold Search.run
    split
    · next hpop =>
      rw [ScoreHeap.pop?_eq_none hpop] at hx
      cases hx
    · next score a rest hpop =>
      have htop : (score, a) ∈ s.queue.entries.toList :=
        (ScoreHeap.pop?_perm hpop).mem_iff.2 List.mem_cons_self
      obtain ⟨d, trail, hreached, -⟩ := exists_of_reachedWithin (hs.queued _ htop)
      dsimp only at hreached
      rw [hreached]
      dsimp only
      split
      · exact ⟨_, rfl⟩
      · next hgoal =>
        have hne : a ≠ goal := by simpa using hgoal
        split
        · next hbefore =>
          refine ih (s := { s with queue := rest }) (hs.skip hpop hbefore) hrelaxed ?_
          have hsize := size_of_pop? hpop
          unfold work at hsteps ⊢
          dsimp only
          omega
        · next hbefore =>
          have hfirst := (Bool.not_eq_true _).mp hbefore
          refine ih (hs.visit hg hpop hfirst hne hreached) (fun b => ?_) ?_
          · rw [hs.score_eq hpop hfirst hreached]
            exact relaxed_relaxAll hg hrelaxed b
          · have hless := work_visit_lt (g := g) (d := d) (p := trail) hpop
              (hs.not_settled hpop hfirst)
            omega

end Search

/-! ## Shortest paths -/

section ShortestPath

variable (hg : g.WellFormed)

include hg

/-- A path that is found has the weight that is returned with it, and no path is shorter. -/
theorem shortestPath?_weight (h : g.shortestPath? a b = some (d, p)) :
    g.pathWeight p = d ∧ ∀ q, g.IsPath a b q → d ≤ g.pathWeight q := by
  unfold shortestPath? at h
  split at h
  · obtain ⟨hweight, hleast⟩ := (Search.steady_start g a b).run hg (fun c x hx => by cases hx) h
    refine ⟨hweight, fun q hq => ?_⟩
    rw [← pathWeight_reverse]
    exact hleast q.reverse hq.reverse
  · cases h

/-- A path is found between any two nodes that are linked. -/
theorem exists_shortestPath? (ha : g.hasNode a = true) (hb : g.hasNode b = true)
    (hab : g.Linked a b) : ∃ d p, g.shortestPath? a b = some (d, p) := by
  obtain ⟨p, hp⟩ := exists_isPath_of_linked (Linked.symm hab)
  have hwork : Search.work g (Search.start a) < 2 * g.edgeCount + 2 := by
    have hsum := sum_degree_le hg
    have hsize : (Search.start a).queue.size = 1 := by
      have hlength := (ScoreHeap.push_perm (∅ : ScoreHeap α) 0 a).length_eq
      rwa [List.length_cons, Array.length_toList, Array.length_toList] at hlength
    have hall : (g.nodes.filter fun c => ((Search.start a).settled.get? c).isNone) = g.nodes :=
      List.filter_eq_self.2 fun c _ => rfl
    unfold Search.work
    rw [hall]
    omega
  obtain ⟨⟨d, q⟩, hrun⟩ := (Search.steady_start g a b).exists_run hg (fun c x hx => by cases hx)
    hwork hp
  refine ⟨d, q, ?_⟩
  unfold shortestPath?
  rw [ha, hb]
  exact hrun

end ShortestPath

end Graph

end LatticeSurgery
