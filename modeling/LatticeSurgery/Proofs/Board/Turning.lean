import LatticeSurgery.Proofs.Board.Clock

/-!
# Turning a patch

Every edge of the resource graph has an end on the bus (`Graph.OnBus`), so the two boundaries of a data
patch have no edge between them, and turning the patch exchanges their neighbours. When time passes, a
patch turns once if the countdown of one of its boundaries runs out, and not at all otherwise
(`touches_elapse`).
-/

namespace LatticeSurgery

open Ordered LatticeSurgery.Graph

namespace Graph

/-- Every edge has an end on the bus. -/
def OnBus (g : Graph Node) : Prop := ∀ n m, g.Adj n m → n.isBus = true ∨ m.isBus = true

/-- A data patch has both of its nodes or none. -/
def Paired (g : Graph Node) : Prop :=
  ∀ id, g.hasNode (.qubit id .X) = true ↔ g.hasNode (.qubit id .Z) = true

/-- A node has a neighbour. -/
def Touches (g : Graph Node) (n : Node) : Prop := ∃ m, g.Adj n m

variable {g : Graph Node} {n m : Node}

theorem WellFormed.touches_iff (hg : g.WellFormed) : g.Touches n ↔ 0 < g.degree n := by
  unfold degree
  rw [List.length_pos_iff_exists_mem]
  exact exists_congr fun m => (hg.mem_neighbors n m).symm

theorem OnBus.not_adj_qubit (h : g.OnBus) (id id' : Nat) (c c' : Basis) :
    ¬ g.Adj (.qubit id c) (.qubit id' c') := by
  intro hadj
  rcases h _ _ hadj with h | h <;> cases h

end Graph

namespace Board

variable {b : Board} {id : Nat} {n m : Node} {basis : Basis}

/-! ## One patch -/

theorem turned_of_ne (hx : n ≠ .qubit id .X) (hz : n ≠ .qubit id .Z) : turned id n = n := by
  unfold turned
  rw [if_neg]
  rintro (h | h)
  · exact hx h
  · exact hz h

@[simp] theorem turned_qubit (id : Nat) (basis : Basis) :
    turned id (.qubit id basis) = .qubit id basis.flipped := by
  unfold turned
  rw [if_pos]
  · rfl
  · cases basis
    · exact Or.inl rfl
    · exact Or.inr rfl

theorem isBus_turned (id : Nat) (n : Node) : (turned id n).isBus = n.isBus := by
  unfold turned
  split
  · next h => rcases h with rfl | rfl <;> rfl
  · rfl

/-- A node to which the edges of another one are attached has the neighbours of that one. -/
theorem adj_attach_of {edges : List (Node × Nat)} {p : Node → Prop} {c : Node}
    (hedges : ∀ m, (∃ e ∈ edges, m = e.1) ↔ p m) : (b.attach c edges).graph.Adj n m ↔
      b.graph.Adj n m ∨ (n = c ∧ p m) ∨ (m = c ∧ p n) := by
  rw [adj_attach, ← hedges n, ← hedges m]
  refine or_congr_right ?_
  constructor
  · rintro ⟨e, he, ⟨hn, hm⟩ | ⟨hn, hm⟩⟩
    · exact Or.inl ⟨hn, e, he, hm⟩
    · exact Or.inr ⟨hm, e, he, hn⟩
  · rintro (⟨hn, e, he, hm⟩ | ⟨hm, e, he, hn⟩)
    · exact ⟨e, he, Or.inl ⟨hn, hm⟩⟩
    · exact ⟨e, he, Or.inr ⟨hn, hm⟩⟩

/-- Turning a patch exchanges the edges of its boundaries. -/
theorem adj_turn (hb : b.graph.WellFormed) (hbus : b.graph.OnBus) (h : b.CanTurn id) :
    (b.turn id).graph.Adj n m ↔ b.graph.Adj (turned id n) (turned id m) := by
  have hwell : ((b.detach (.qubit id .X)).2).graph.WellFormed := wellFormed_detach hb
  have hdetached : ∀ n m, ((b.detach (.qubit id .X)).2).graph.Adj n m ↔
      b.graph.Adj n m ∧ n ≠ .qubit id .X ∧ m ≠ .qubit id .X := fun n m => adj_detach hb
  have hrest : (b.stripped id).2.2.graph.Adj n m ↔ (b.graph.Adj n m ∧ n ≠ .qubit id .X ∧
      m ≠ .qubit id .X) ∧ n ≠ .qubit id .Z ∧ m ≠ .qubit id .Z :=
    (adj_detach hwell).trans (and_congr_left' (hdetached n m))
  have hx : ∀ m, (∃ e ∈ (b.stripped id).1, m = e.1) ↔ b.graph.Adj (.qubit id .X) m := fun m =>
    hb.exists_mem_incident
  have hz : ∀ m, (∃ e ∈ (b.stripped id).2.1, m = e.1) ↔ b.graph.Adj (.qubit id .Z) m := by
    intro m
    refine hwell.exists_mem_incident.trans ((hdetached _ m).trans ?_)
    refine and_iff_left_of_imp fun hm => ⟨by simp, ?_⟩
    rintro rfl
    exact hbus.not_adj_qubit _ _ _ _ hm
  rw [graph_turn h, adj_attach_of hx, adj_attach_of hz, hrest]
  -- whether each of the nodes is a boundary of the patch, and which one
  by_cases hn : ∃ c, n = .qubit id c
  · obtain ⟨c, rfl⟩ := hn
    by_cases hm : ∃ c', m = .qubit id c'
    · obtain ⟨c', rfl⟩ := hm
      cases c <;> cases c' <;> simp [hbus.not_adj_qubit]
    · push Not at hm
      rw [turned_qubit, turned_of_ne (hm _) (hm _)]
      cases c <;> simp [hm, Basis.flipped]
  · push Not at hn
    rw [turned_of_ne (hn _) (hn _)]
    by_cases hm : ∃ c', m = .qubit id c'
    · obtain ⟨c', rfl⟩ := hm
      rw [turned_qubit]
      cases c' <;> simpa [hn, Basis.flipped] using adj_comm
    · push Not at hm
      rw [turned_of_ne (hm _) (hm _)]
      simp [hn, hm]

theorem onBus_turn (hb : b.graph.WellFormed) (hbus : b.graph.OnBus) (id : Nat) :
    (b.turn id).graph.OnBus := by
  by_cases h : b.CanTurn id
  · intro n m hadj
    rw [← isBus_turned id n, ← isBus_turned id m]
    exact hbus _ _ ((adj_turn hb hbus h).1 hadj)
  · rwa [turn_of_not_canTurn h]

/-- Turning a patch exchanges which of its boundaries have neighbours. -/
theorem touches_turn (hb : b.graph.WellFormed) (hbus : b.graph.OnBus) (h : b.CanTurn id) :
    (b.turn id).graph.Touches n ↔ b.graph.Touches (turned id n) := by
  have hinvolutive : ∀ m, turned id (turned id m) = m := by
    intro m
    by_cases hm : ∃ c, m = .qubit id c
    · obtain ⟨c, rfl⟩ := hm
      rw [turned_qubit, turned_qubit, Basis.flipped_flipped]
    · push Not at hm
      rw [turned_of_ne (hm _) (hm _), turned_of_ne (hm _) (hm _)]
  constructor
  · rintro ⟨m, hm⟩
    exact ⟨turned id m, (adj_turn hb hbus h).1 hm⟩
  · rintro ⟨m, hm⟩
    refine ⟨turned id m, (adj_turn hb hbus h).2 ?_⟩
    rwa [hinvolutive]

/-! ## Several patches -/

/-- After turning several patches, once each. -/
theorem touches_foldl_turn {ids : List Nat} (hb : b.Sound) (hbus : b.graph.OnBus) (hids : ids.Nodup)
    (h : ∀ id ∈ ids, b.CanTurn id) :
    (ids.foldl turn b).graph.OnBus ∧ ∀ id basis, (ids.foldl turn b).graph.Touches (.qubit id basis) ↔
      b.graph.Touches (.qubit id (if id ∈ ids then basis.flipped else basis)) := by
  induction ids generalizing b with
  | nil => exact ⟨hbus, fun id basis => by simp⟩
  | cons i ids ih =>
    obtain ⟨hi, hids⟩ := List.nodup_cons.1 hids
    have hturn := h i List.mem_cons_self
    obtain ⟨hsound, hnode, -⟩ := turn_spec hb hturn
    have hrest : ∀ id ∈ ids, (b.turn i).CanTurn id := by
      intro id hid
      unfold CanTurn
      rw [hnode, hnode]
      exact h id (List.mem_cons_of_mem _ hid)
    obtain ⟨hbus', htouches⟩ := ih hsound (onBus_turn hb.graph hbus i) hids hrest
    refine ⟨hbus', fun id basis => ?_⟩
    rw [List.foldl_cons, htouches, touches_turn hb.graph hbus hturn]
    by_cases hid : id = i
    · subst hid
      rw [if_neg hi, if_pos List.mem_cons_self, turned_qubit]
    · rw [turned_of_ne (by simp [hid]) (by simp [hid])]
      simp [hid]

/-! ## The passing of time -/

/-- The patches that finish turning are listed once. -/
theorem nodup_turnsFinished (hb : b.Sound) (hone : b.OneBusy) (elapsed : Int) :
    (turnsFinished elapsed b.running).Nodup := by
  have hpairs : b.running.Pairwise fun e e' =>
      (e ∈ b.running ∧ e' ∈ b.running) ∧ e.1 ≠ e'.1 :=
    (List.pairwise_map.1 (nodup_running b)).imp_of_mem fun he he' hne => ⟨⟨he, he'⟩, hne⟩
  refine hpairs.filterMap _ fun e e' hee' i hi i' hi' => ?_
  rintro rfl
  obtain ⟨⟨he, he'⟩, hne⟩ := hee'
  obtain ⟨ht, hpos⟩ := hb.mem_running.1 he
  obtain ⟨ht', hpos'⟩ := hb.mem_running.1 he'
  obtain ⟨n, t⟩ := e
  obtain ⟨n', t'⟩ := e'
  dsimp only at hi hi' ht ht' hpos hpos' hne
  split at hi
  · next basis =>
    split_ifs at hi
    cases hi
    split at hi'
    · next basis' =>
      split_ifs at hi'
      cases hi'
      -- both boundaries of the patch would be counting down
      have hflip : basis' = basis.flipped := Basis.eq_flipped fun heq => hne (by rw [heq])
      rw [hflip] at ht'
      rcases hone i basis t t' ht ht' with h | h <;> omega
    · cases hi'
  · cases hi

/-- A patch turns when the countdown of one of its boundaries runs out, and only then. -/
theorem touches_elapse (hb : b.Sound) (hbus : b.graph.OnBus) (hpaired : b.graph.Paired) (hone : b.OneBusy)
    (ticks : Nat) : (b.elapse ticks).graph.OnBus ∧ ∀ id basis,
      (b.Finishes (asCountdown ticks) id →
        ((b.elapse ticks).graph.Touches (.qubit id basis) ↔ b.graph.Touches (.qubit id basis.flipped))) ∧
      (¬ b.Finishes (asCountdown ticks) id →
        ((b.elapse ticks).graph.Touches (.qubit id basis) ↔ b.graph.Touches (.qubit id basis))) := by
  have hcan : ∀ id ∈ turnsFinished (asCountdown ticks) b.running, b.CanTurn id := by
    intro id hid
    obtain ⟨basis, t, ht, -⟩ := hb.mem_turnsFinished.1 hid
    have hnode := hb.hasNode_of_ticksOf ht
    cases basis
    · exact ⟨hnode, (hpaired id).1 hnode⟩
    · exact ⟨(hpaired id).2 hnode, hnode⟩
  obtain ⟨c, hc, hgraph, helapse⟩ := exists_graph_elapse hb ticks
  obtain ⟨hbus', htouches⟩ := touches_foldl_turn hc (by rwa [hgraph])
    (nodup_turnsFinished hb hone (asCountdown ticks)) fun id hid => by
      rw [CanTurn, hgraph]
      exact hcan id hid
  rw [helapse]
  refine ⟨hbus', fun id basis => ⟨fun hfin => ?_, fun hfin => ?_⟩⟩
  · rw [htouches, if_pos (hb.mem_turnsFinished.2 hfin), hgraph]
  · rw [htouches, if_neg fun hmem => hfin (hb.mem_turnsFinished.1 hmem), hgraph]

end Board

end LatticeSurgery
