import LatticeSurgery.Board.Basic
import LatticeSurgery.Proofs.Board.Countdowns
import LatticeSurgery.Proofs.Endings
import LatticeSurgery.Proofs.Graph.Edits

/-!
# Sound boards

On a sound board the graph is well formed, the indices of the countdowns are right, and the nodes of
the graph are exactly those with a countdown. Changing countdowns and removing nodes keep a board
sound. On a sound board, what the indices list is described by countdowns alone.
-/

namespace LatticeSurgery

open Ordered

namespace Board

variable {b : Board} {n m : Node} {t : Int}

/-- The graph is well formed and its nodes are those with a countdown, which the indices repeat. -/
structure Sound (b : Board) : Prop where
  graph : b.graph.WellFormed
  countdowns : b.countdowns.Sound
  timed : ∀ n, b.graph.hasNode n = true ↔ ∃ t, b.ticksOf n = some t

/-! ## Questions -/

section Questions

variable (hb : b.Sound)

include hb

theorem Sound.hasNode_of_ticksOf (h : b.ticksOf n = some t) : b.graph.hasNode n = true :=
  (hb.timed n).2 ⟨t, h⟩

theorem Sound.means (h : b.ticksOf n = some t) : n.Means t := hb.countdowns.means n t h

theorem Sound.mem_withStatus {k : PatchKind} {p : Phase} : n ∈ b.withStatus k p ↔
    ∃ t, b.ticksOf n = some t ∧ Status.ofTicks n t = some ⟨.patch k, p⟩ :=
  hb.countdowns.withStatus _ n

/-- The ready nodes of a kind are those with countdown zero. -/
theorem Sound.mem_ready {k : PatchKind} :
    n ∈ b.withStatus k .ready ↔ n.kind = .patch k ∧ b.ticksOf n = some 0 := by
  rw [hb.mem_withStatus]
  constructor
  · rintro ⟨t, ht, hs⟩
    obtain ⟨hk, rfl⟩ := Status.ofTicks_ready_iff.1 hs
    exact ⟨hk, ht⟩
  · rintro ⟨hk, ht⟩
    exact ⟨0, ht, Status.ofTicks_ready_iff.2 ⟨hk, rfl⟩⟩

theorem Sound.mem_unavailable :
    n ∈ b.unavailable ↔ ∃ t, b.ticksOf n = some t ∧ n.isClosed t = true :=
  hb.countdowns.unavailable n

/-- A node that is not a storage is closed while its countdown is not zero. -/
theorem Sound.mem_unavailable_iff (hn : n.kind ≠ .patch .storage) :
    n ∈ b.unavailable ↔ ∃ t, b.ticksOf n = some t ∧ t ≠ 0 := by
  rw [hb.mem_unavailable]
  have hclosed : ∀ t, n.isClosed t = true ↔ t ≠ 0 := by
    intro t
    unfold Node.isClosed
    split
    · next hk => exact absurd hk hn
    · simp
  simp only [hclosed]

/-- A node whose countdown is running is closed. -/
theorem Sound.mem_unavailable_of_pos (h : b.ticksOf n = some t) (ht : 0 < t) :
    n ∈ b.unavailable := by
  rw [hb.mem_unavailable]
  refine ⟨t, h, ?_⟩
  unfold Node.isClosed
  split
  · simpa using ht
  · simpa using (show t ≠ 0 by omega)

/-- An open node that is not a storage has countdown zero. -/
theorem Sound.ticksOf_eq_zero (hn : n.kind ≠ .patch .storage) (hnode : b.graph.hasNode n = true)
    (hopen : n ∉ b.unavailable) : b.ticksOf n = some 0 := by
  obtain ⟨t, ht⟩ := (hb.timed n).1 hnode
  rw [hb.mem_unavailable_iff hn] at hopen
  by_cases h0 : t = 0
  · rw [ht, h0]
  · exact absurd ⟨t, ht, h0⟩ hopen

theorem Sound.mem_readyZeroStates {id : Nat} : id ∈ b.readyZeroStates ↔
    b.ticksOf (.zero id .X) = some 0 ∧ b.ticksOf (.zero id .Z) = some 0 := by
  unfold readyZeroStates
  rw [SortedSet.mem_map]
  constructor
  · rintro ⟨n, hn, rfl⟩
    rw [SortedSet.mem_filter, SortedSet.contains_iff] at hn
    obtain ⟨⟨hk, ht⟩, -, ht'⟩ := And.imp hb.mem_ready.1 hb.mem_ready.1 hn
    cases n with
    | bus i => cases hk
    | boundary k i c =>
      cases hk
      cases c with
      | X => exact ⟨ht, ht'⟩
      | Z => exact ⟨ht', ht⟩
  · rintro ⟨hx, hz⟩
    refine ⟨.zero id .X, ?_, rfl⟩
    rw [SortedSet.mem_filter, SortedSet.contains_iff]
    exact ⟨hb.mem_ready.2 ⟨rfl, hx⟩, hb.mem_ready.2 ⟨rfl, hz⟩⟩

end Questions

theorem statusOf_eq_iff {s : Status} :
    b.statusOf n = some s ↔ ∃ t, b.ticksOf n = some t ∧ Status.ofTicks n t = some s := by
  rw [statusOf, Option.bind_eq_some_iff]

theorem statusOf_ready_iff (hn : n.kind = .patch .magic) :
    b.statusOf n = some ⟨.patch .magic, .ready⟩ ↔ b.ticksOf n = some 0 := by
  simp [statusOf_eq_iff, Status.ofTicks_ready_iff, hn]

theorem statusOf_depleted_iff (hn : n.kind = .patch .magic) :
    b.statusOf n = some ⟨.patch .magic, .depleted⟩ ↔ b.ticksOf n = some Phase.depletedTicks := by
  simp [statusOf_eq_iff, Status.ofTicks_depleted_iff hn]

theorem isAvailable_iff :
    b.isAvailable n = true ↔ b.graph.hasNode n = true ∧ n ∉ b.unavailable := by
  rw [isAvailable, Bool.and_eq_true, Bool.not_eq_true', ← Bool.not_eq_true, SortedSet.contains_iff]

/-- A data patch is busy when one of its boundaries is closed. -/
theorem mem_busyQubits {q : Nat} :
    q ∈ b.busyQubits ↔ ∃ basis, Node.qubit q basis ∈ b.unavailable := by
  unfold busyQubits
  rw [SortedSet.mem_map]
  constructor
  · rintro ⟨n, hn, rfl⟩
    rw [SortedSet.mem_filter, decide_eq_true_eq] at hn
    cases n with
    | bus i => cases hn.2
    | boundary k i c =>
      cases hn.2
      exact ⟨c, hn.1⟩
  · rintro ⟨basis, hn⟩
    refine ⟨.qubit q basis, ?_, rfl⟩
    rw [SortedSet.mem_filter]
    exact ⟨hn, rfl⟩

/-- A data patch is busy while a countdown of its boundaries is not zero. -/
theorem Sound.mem_busyQubits (hb : b.Sound) {q : Nat} :
    q ∈ b.busyQubits ↔ ∃ basis t, b.ticksOf (.qubit q basis) = some t ∧ t ≠ 0 := by
  rw [Board.mem_busyQubits]
  exact exists_congr fun basis => hb.mem_unavailable_iff (by simp [Node.kind])

theorem mem_nodesOfKind {k : NodeKind} :
    n ∈ b.nodesOfKind k ↔ b.graph.hasNode n = true ∧ n.kind = k := by
  rw [nodesOfKind, SortedSet.mem_ofList, List.mem_filter, Graph.mem_nodes, decide_eq_true_eq]

/-! ## Countdowns -/

theorem ticksOf_retime (b : Board) (n m : Node) (t : Int) :
    (b.retime n t).ticksOf m = if same m n then some t else b.ticksOf m :=
  Countdowns.get?_set _ _ _ _

theorem Sound.retime (hb : b.Sound) (hn : b.graph.hasNode n = true) (ht : n.Means t) :
    (b.retime n t).Sound := by
  refine ⟨hb.graph, hb.countdowns.set ht, fun m => ?_⟩
  rw [ticksOf_retime]
  show b.graph.hasNode m = true ↔ _
  split
  · next hm => simp [same_iff.1 hm, hn]
  · exact hb.timed m

theorem setTick_eq (hb : b.Sound) (hn : b.graph.hasNode n = true) (ht : n.Means t) :
    b.setTick t n = .ok (b.retime n t) := by
  obtain ⟨t', ht'⟩ := (hb.timed n).1 hn
  unfold setTick
  rw [ht']
  simp [Option.isNone_iff_eq_none, Option.ne_none_iff_isSome.2 ht]

theorem exists_setTick_error (hb : b.Sound) (h : ¬ (b.graph.hasNode n = true ∧ n.Means t)) :
    ∃ e, b.setTick t n = .error e := by
  unfold setTick
  by_cases hnone : (b.ticksOf n).isNone = true
  · exact ⟨_, if_pos hnone⟩
  · by_cases hmeans : (Status.ofTicks n t).isNone = true
    · exact ⟨_, (if_neg hnone).trans (if_pos hmeans)⟩
    · rw [Option.isNone_iff_eq_none] at hnone hmeans
      exact absurd ⟨(hb.timed n).2 (Option.ne_none_iff_exists'.1 hnone),
        Option.ne_none_iff_isSome.1 hmeans⟩ h

/-- A board on which only countdowns differ, namely those of the given nodes, which are `t`. -/
structure SetTo (b : Board) (ns : List Node) (t : Int) (b' : Board) : Prop where
  sound : b'.Sound
  graph : b'.graph = b.graph
  ticks : ∀ m, b'.ticksOf m = if m ∈ ns then some t else b.ticksOf m

theorem setTicks_singleton (b : Board) (n : Node) (t : Int) : b.setTicks [n] t = b.setTick t n := by
  unfold setTicks
  cases b.setTick t n <;> rfl

/-- Changing countdowns succeeds when all of the nodes are there and the countdown has a meaning for
each of them. -/
theorem setTicks_ends (hb : b.Sound) (ns : List Node) (t : Int) :
    Ends (b.setTicks ns t) (fun _ => ∃ n ∈ ns, b.graph.hasNode n = false ∨ ¬ n.Means t)
      (b.SetTo ns t) := by
  induction ns generalizing b with
  | nil => exact ⟨hb, rfl, fun m => by simp⟩
  | cons n ns ih =>
    by_cases hn : b.graph.hasNode n = true ∧ n.Means t
    · have hset : b.setTicks (n :: ns) t = (b.retime n t).setTicks ns t := by
        rw [setTicks, setTick_eq hb hn.1 hn.2]
      rw [hset]
      refine (ih (hb.retime hn.1 hn.2)).mono ?_ ?_
      · rintro - ⟨m, hm, h⟩
        exact ⟨m, List.mem_cons_of_mem _ hm, h⟩
      · rintro b' ⟨hsound, hgraph, hticks⟩
        refine ⟨hsound, hgraph, fun m => ?_⟩
        rw [hticks, ticksOf_retime]
        by_cases hm : m = n
        · simp [hm]
        · simp [hm]
    · obtain ⟨e, he⟩ := exists_setTick_error hb hn
      rw [setTicks, he]
      refine ⟨n, List.mem_cons_self, ?_⟩
      by_cases hnode : b.graph.hasNode n = true
      · exact Or.inr fun hmeans => hn ⟨hnode, hmeans⟩
      · exact Or.inl (by simpa using hnode)

/-- On nodes of the board, a countdown with a meaning can be set. -/
theorem exists_setTicks {ns : List Node} (hb : b.Sound)
    (hns : ∀ n ∈ ns, b.graph.hasNode n = true ∧ n.Means t) :
    ∃ b', b.setTicks ns t = .ok b' ∧ b.SetTo ns t b' := by
  refine Ends.exists_ok ((setTicks_ends hb ns t).mono ?_ fun _ h => h)
  rintro - ⟨n, hn, h⟩
  obtain ⟨hnode, hmeans⟩ := hns n hn
  rcases h with h | h
  · rw [hnode] at h
    cases h
  · exact h hmeans

/-- On a node of the board, a countdown with a meaning can be set. -/
theorem exists_setTick (hb : b.Sound) (hn : b.graph.hasNode n = true) (ht : n.Means t) :
    ∃ b', b.setTick t n = .ok b' ∧ b.SetTo [n] t b' := by
  refine ⟨_, setTick_eq hb hn ht, hb.retime hn ht, rfl, fun m => ?_⟩
  rw [ticksOf_retime]
  simp

theorem Sound.setTo_of_setTicks {b' : Board} {ns : List Node} (hb : b.Sound)
    (h : b.setTicks ns t = .ok b') : b.SetTo ns t b' :=
  (setTicks_ends hb ns t).of_ok h

theorem Sound.setTo_of_setTick {b' : Board} (hb : b.Sound) (h : b.setTick t n = .ok b') :
    b.SetTo [n] t b' := by
  rw [← setTicks_singleton] at h
  exact hb.setTo_of_setTicks h

/-- On nodes of the board, only a negative countdown can be without a meaning. -/
theorem setTicks_ends_of_hasNode {ns : List Node} (hb : b.Sound)
    (hns : ∀ n ∈ ns, b.graph.hasNode n = true) :
    Ends (b.setTicks ns t) (fun _ => t < 0) (b.SetTo ns t) := by
  refine (setTicks_ends hb ns t).mono ?_ fun _ h => h
  rintro - ⟨n, hn, h⟩
  rcases h with h | h
  · rw [hns n hn] at h
    cases h
  · by_contra hneg
    exact h (Node.means_of_nonneg (by omega))

/-! ## Removal -/

theorem ticksOf_removeNode (b : Board) (n m : Node) :
    (b.removeNode n).ticksOf m = if same m n then none else b.ticksOf m := by
  refine (Countdowns.get?_remove _ _ _).trans ?_
  by_cases h : m = n
  · simp [h]
  · rw [if_neg (by simpa using Ne.symm h), if_neg (by simpa using h)]
    rfl

theorem Sound.removeNode (hb : b.Sound) (n : Node) : (b.removeNode n).Sound := by
  refine ⟨hb.graph.removeNode n, hb.countdowns.remove n, fun m => ?_⟩
  rw [ticksOf_removeNode]
  refine Graph.hasNode_removeNode.trans ?_
  by_cases hm : m = n
  · simp [hm]
  · simp [hm, hb.timed]

theorem Sound.removeNodes (hb : b.Sound) (ns : List Node) : (b.removeNodes ns).Sound := by
  unfold Board.removeNodes
  induction ns generalizing b with
  | nil => exact hb
  | cons n ns ih => exact ih (hb.removeNode n)

theorem graph_removeNodes (b : Board) (ns : List Node) :
    (b.removeNodes ns).graph = ns.foldl Graph.removeNode b.graph := by
  unfold removeNodes
  induction ns generalizing b with
  | nil => rfl
  | cons n ns ih => exact ih (b.removeNode n)

theorem ticksOf_removeNodes (b : Board) (ns : List Node) (m : Node) :
    (b.removeNodes ns).ticksOf m = if m ∈ ns then none else b.ticksOf m := by
  unfold removeNodes
  induction ns generalizing b with
  | nil => simp
  | cons n ns ih =>
    rw [List.foldl_cons, ih, ticksOf_removeNode]
    by_cases hm : m = n <;> simp [hm]

theorem tiles_removeNodes (b : Board) (ns : List Node) : (b.removeNodes ns).tiles = b.tiles :=
  List.foldlRecOn (motive := fun b' : Board => b'.tiles = b.tiles) ns _ rfl fun _ h _ _ => h

theorem hasNode_removeNodes {ns : List Node} :
    (b.removeNodes ns).graph.hasNode n = true ↔ b.graph.hasNode n = true ∧ n ∉ ns := by
  rw [graph_removeNodes, Graph.hasNode_foldl_removeNode]

theorem weight?_removeNodes (hb : b.graph.WellFormed) {ns : List Node} {w : Nat} :
    (b.removeNodes ns).graph.weight? n m = some w ↔ b.graph.weight? n m = some w ∧ n ∉ ns ∧ m ∉ ns := by
  rw [graph_removeNodes, Graph.weight?_foldl_removeNode _ hb]

theorem adj_removeNodes (hb : b.graph.WellFormed) {ns : List Node} :
    (b.removeNodes ns).graph.Adj n m ↔ b.graph.Adj n m ∧ n ∉ ns ∧ m ∉ ns := by
  rw [graph_removeNodes, Graph.adj_foldl_removeNode _ hb]

theorem removeNodes_within (hb : b.graph.WellFormed) (ns : List Node) :
    (b.removeNodes ns).graph.Within b.graph :=
  ⟨fun _ hn => (hasNode_removeNodes.1 hn).1, fun _ _ h => ((adj_removeNodes hb).1 h).1⟩

theorem hasNode_openPart :
    b.openPart.graph.hasNode n = true ↔ b.graph.hasNode n = true ∧ n ∉ b.unavailable :=
  hasNode_removeNodes

theorem Sound.openPart (hb : b.Sound) : b.openPart.Sound := hb.removeNodes _

end Board

end LatticeSurgery
