import LatticeSurgery.Proofs.Board.Settling

/-!
# Terminals as leaves

A tree that connects more than two terminals has each terminal as a leaf, unless a path that was chosen
for it runs through the terminal (`Board.Leaves`). A path through a terminal is heavier than one that
stays on the bus between its ends, so where the bus hangs together all terminals are leaves. Where it
does not, the path between the first two terminals may run through a third one, at which nothing has
been trimmed yet (`Board.exists_crossed_terminal`).
-/

namespace LatticeSurgery

open Ordered LatticeSurgery.Graph

/-! ## Paths that stay when ends are cut off -/

namespace Tree

variable {t : Tree} {n m : Node} {p keep : List Node}

/-- Cutting off ends keeps a path between nodes to keep, since the nodes inside have two neighbours. -/
theorem isPath_prune (hwell : t.shape.WellFormed) (hp : t.shape.IsPath n m p) (hnodup : p.Nodup)
    (hn : n ∈ keep) (hm : m ∈ keep) (rounds : Nat) : (t.prune keep rounds).shape.IsPath n m p := by
  induction rounds generalizing t with
  | zero => exact hp
  | succ rounds ih =>
    unfold Tree.prune
    split
    · exact hp
    · have hstay : ∀ k ∈ p, k ∉ t.looseEnds keep := by
        intro k hk hloose
        obtain ⟨-, hdegree, hout⟩ := mem_looseEnds.1 hloose
        have htwo : 2 ≤ t.degree k := hp.two_le_degree hwell hnodup hk
          (fun h => hout (h ▸ hn)) (fun h => hout (h ▸ hm))
        omega
      refine ih ?_ ⟨hp.head, hp.last, ?_⟩
      · rw [shape_foldl_removeNode]
        exact hwell.foldl_removeNode _
      · refine hp.chain.imp_of_mem_imp fun a b ha hb hab => ?_
        rw [shape_foldl_removeNode, adj_foldl_removeNode _ hwell]
        exact ⟨hab, hstay a ha, hstay b hb⟩

/-- A graph without cycles keeps its paths when it is reduced. -/
theorem isPath_reduce (hwell : t.shape.WellFormed) (hp : t.shape.IsPath n m p) (hnodup : p.Nodup)
    (hn : n ∈ keep) (hm : m ∈ keep) (hcount : t.shape.edgeCount < t.shape.nodeCount) :
    (t.reduce keep).shape.IsPath n m p := by
  unfold Tree.reduce
  rw [if_neg (by omega)]
  exact isPath_prune hwell hp hnodup hn hm _

end Tree

/-! ## Paths through patches are heavy -/

namespace Board

theorem stepWeight_of_not_isBus {n m : Node} (hn : n.isBus = false) : stepWeight n m = patchWeight := by
  unfold stepWeight
  rw [hn]
  rfl

end Board

namespace Graph

open Board

variable {g : Graph Node} {n m k : Node} {p : List Node}

/-- Any two bus tiles are joined by a row of bus tiles that is lighter than passing a patch. -/
def BusJoined (g : Graph Node) : Prop :=
  ∀ i j, g.hasNode (.bus i) = true → g.hasNode (.bus j) = true →
    ∃ p, g.IsPath (.bus i) (.bus j) p ∧ (∀ n ∈ p, n.isBus = true) ∧ p.length ≤ 2 * patchWeight

theorem Graded.pathWeight_cons {n x : Node} (hg : g.Graded) (hp : g.IsPath x m p)
    (hadj : g.Adj n x) : g.pathWeight (n :: p) = stepWeight n x + g.pathWeight p := by
  obtain ⟨x', t, rfl⟩ := List.exists_cons_of_ne_nil hp.ne_nil
  obtain rfl : x' = x := Option.some.inj hp.head
  rw [pathWeight_cons_cons, hg.weight? hadj, Option.getD_some]

/-- Leaving a patch is heavy. -/
theorem Graded.patchWeight_le (hg : g.Graded) (hp : g.IsPath n m p) (hne : n ≠ m)
    (hn : n.isBus = false) : patchWeight ≤ g.pathWeight p := by
  obtain ⟨⟨x, t, rfl⟩, -⟩ := hp.exists_inner hne
  have hadj := (List.isChain_cons_cons.1 hp.chain).1
  rw [pathWeight_cons_cons, hg.weight? hadj, Option.getD_some, stepWeight_of_not_isBus hn]
  exact Nat.le_add_right _ _

/-- A path on the bus has a step less than nodes, each of weight one. -/
theorem Graded.pathWeight_of_bus (hg : g.Graded) (hp : p.IsChain g.Adj) (hne : p ≠ [])
    (hbus : ∀ n ∈ p, n.isBus = true) : g.pathWeight p + 1 = p.length := by
  induction p with
  | nil => exact absurd rfl hne
  | cons a p ih =>
    cases p with
    | nil => rfl
    | cons b p =>
      obtain ⟨hab, hrest⟩ := List.isChain_cons_cons.1 hp
      have hstep : stepWeight a b = 1 := by
        unfold stepWeight
        rw [hbus a (by simp), hbus b (by simp)]
        rfl
      have hweight := ih hrest (List.cons_ne_nil b p) fun n hn => hbus n (List.mem_cons_of_mem a hn)
      rw [pathWeight_cons_cons, hg.weight? hab, Option.getD_some, hstep, List.length_cons, ← hweight]
      omega

/-- A path between two patches through a third one has four heavy steps. -/
theorem Graded.four_mul_le (hg : g.Graded) (hbus : g.OnBus) (hp : g.IsPath n m p)
    (hn : n.isBus = false) (hm : m.isBus = false) (hk : k.isBus = false) (hmem : k ∈ p)
    (hkn : k ≠ n) (hkm : k ≠ m) : 4 * patchWeight ≤ g.pathWeight p := by
  obtain ⟨q, x, y, r, rfl⟩ := hp.exists_around hmem hkn hkm
  obtain ⟨hfirst, hrest⟩ := List.isChain_split.1 hp.chain
  obtain ⟨hxk, hrest⟩ := List.isChain_cons_cons.1 hrest
  obtain ⟨hky, hlast⟩ := List.isChain_cons_cons.1 hrest
  have hx : x.isBus = true := (hbus x k hxk).resolve_right (by simp [hk])
  have hy : y.isBus = true := (hbus k y hky).resolve_left (by simp [hk])
  have hhead : g.IsPath n x (q ++ [x]) := by
    refine ⟨?_, by simp, hfirst⟩
    have := hp.head
    cases q <;> simpa using this
  have htail : g.IsPath y m (y :: r) := by
    refine ⟨rfl, ?_, hlast⟩
    have := hp.last
    rw [List.getLast?_append] at this
    simpa [List.getLast?_cons_cons] using this
  have hnx : n ≠ x := by
    rintro rfl
    rw [hn] at hx
    cases hx
  have hmy : m ≠ y := by
    rintro rfl
    rw [hm] at hy
    cases hy
  have hbefore := hg.patchWeight_le hhead hnx hn
  have hafter := hg.patchWeight_le htail.reverse hmy hm
  rw [pathWeight_reverse] at hafter
  rw [pathWeight_append_cons, pathWeight_cons_cons, pathWeight_cons_cons, hg.weight? hxk,
    hg.weight? hky, Option.getD_some, Option.getD_some, stepWeight_comm x k,
    stepWeight_of_not_isBus hk, stepWeight_of_not_isBus hk]
  omega

end Graph

namespace Board

variable {b : Board} {l : Layout} {g h : Graph Node} {terminals : List Node}
  {cache : Option PathCache} {n m k : Node} {d : Nat} {p : List Node}

/-- Where the bus hangs together, a cheapest path between patches runs through no other one. -/
theorem eq_end_of_shortestPath? (hg : Plain g) (hjoined : g.BusJoined) (hh : BusPart g h)
    (hn : n.isBus = false) (hm : m.isBus = false) (hne : n ≠ m)
    (hpath : h.shortestPath? n m = some (d, p)) (hk : k.isBus = false) (hmem : k ∈ p) :
    k = n ∨ k = m := by
  by_contra hinner
  obtain ⟨hkn, hkm⟩ := not_or.1 hinner
  have hp := (shortestPath?_spec hpath).1
  obtain ⟨hweight, hleast⟩ := shortestPath?_weight hh.wellFormed hpath
  have honBus : h.OnBus := fun n m hnm => hg.onBus n m (hh.within.edge n m hnm)
  have hheavy := hh.graded.four_mul_le honBus hp hn hm hk hmem hkn hkm
  -- the path between the same ends that stays on the bus
  have hstep : ∀ {n}, n.isBus = false → ∀ x, h.Adj n x → ∃ i, x = .bus i := by
    intro n hn x hadj
    have hx := (honBus n x hadj).resolve_left (by simp [hn])
    cases x with
    | bus i => exact ⟨i, rfl⟩
    | boundary kind id basis => cases hx
  obtain ⟨⟨x, t, hfirst⟩, y, u, hlast⟩ := hp.exists_inner hne
  have hnx : h.Adj n x := by
    have hchain := hp.chain
    rw [hfirst] at hchain
    exact (List.isChain_cons_cons.1 hchain).1
  have hmy : h.Adj m y := by
    have hchain := hp.reverse.chain
    rw [hlast] at hchain
    exact (List.isChain_cons_cons.1 hchain).1
  obtain ⟨i, rfl⟩ := hstep hn x hnx
  obtain ⟨j, rfl⟩ := hstep hm y hmy
  obtain ⟨q, hq, hqBus, hlength⟩ := hjoined i j (hh.within.node _ (hh.wellFormed.hasNode_right hnx))
    (hh.within.node _ (hh.wellFormed.hasNode_right hmy))
  have hqh : h.IsPath (.bus i) (.bus j) q :=
    ⟨hq.head, hq.last, hq.chain.imp_of_mem_imp fun a b ha hb => hh.bus a b (hqBus a ha) (hqBus b hb)⟩
  have hback := hqh.reverse.cons hmy
  have hforth := hback.reverse.cons hnx
  have hqWeight := hh.graded.pathWeight_of_bus hqh.chain hqh.ne_nil hqBus
  have hle := hleast _ hforth
  rw [hh.graded.pathWeight_cons hback.reverse hnx, pathWeight_reverse,
    hh.graded.pathWeight_cons hqh.reverse hmy, pathWeight_reverse, stepWeight_of_not_isBus hn,
    stepWeight_of_not_isBus hm] at hle
  omega

/-! ## Degrees of the terminals -/

/-- The paths between terminals that a tree is made of. -/
def chosenPaths (paths : List FoundPath) : List FoundPath :=
  spanningForest (fun p : (Nat × Nat) × List Node => p.1) paths

/-- A chosen path that joins the first terminal to an earlier one runs through the terminal. -/
def Crossed (terminals : List Node) (paths : List FoundPath) (k : Nat) : Prop :=
  ∃ e ∈ chosenPaths paths, e.2.1.1 = 0 ∧ e.2.1.2 < k ∧ Tree.nodeAt terminals k ∈ e.2.2

/-- Which terminals are leaves of a tree made of paths between them. -/
structure Leaves (g : Graph Node) (terminals : List Node) (paths : List FoundPath) (t : Tree) :
    Prop where
  leaf : ∀ k < terminals.length, ¬ Crossed terminals paths k →
    t.degree (Tree.nodeAt terminals k) = 1
  first : ∀ k < 2, ¬ Crossed terminals paths k
  /-- If the chosen paths close no cycle, then no other terminals are leaves. -/
  crossed : (Tree.joinedPaths g paths).shape.edgeCount < (Tree.joinedPaths g paths).shape.nodeCount →
    ∀ k < terminals.length, Crossed terminals paths k → 2 ≤ t.degree (Tree.nodeAt terminals k)

section Settled

variable {s : Pairing} (hs : s.Settled g terminals)

include hs

theorem Pairing.Settled.not_crossed {k : Nat} (hk : k < 2) : ¬ Crossed terminals s.paths k := by
  rintro ⟨e, he, hfirst, hless, -⟩
  have hfound := hs.found e (mem_of_mem_spanningForest he)
  have hne := hfound.ne
  rw [hfirst, show e.2.1.2 = 0 by omega] at hne
  exact hne rfl

/-- At a terminal that is not crossed, all chosen paths take the same step. -/
theorem Pairing.Settled.step_eq {k : Nat} (hk : k < terminals.length)
    (hcrossed : ¬ Crossed terminals s.paths k) {e e' : FoundPath} (he : e ∈ chosenPaths s.paths)
    (he' : e' ∈ chosenPaths s.paths) {x y : Node} (hx : Steps e.2.2 (Tree.nodeAt terminals k) x)
    (hy : Steps e'.2.2 (Tree.nodeAt terminals k) y) : x = y := by
  have hend : ∀ e ∈ chosenPaths s.paths, Tree.nodeAt terminals k ∈ e.2.2 →
      IsEnd terminals e (Tree.nodeAt terminals k) := by
    intro e he hmem
    by_contra hinner
    obtain ⟨hi, hj⟩ := not_or.1 hinner
    obtain ⟨hfirst, hless⟩ := (hs.found e (mem_of_mem_spanningForest he)).through k hk
      (fun h => hi (h ▸ rfl)) (fun h => hj (h ▸ rfl)) hmem
    exact hcrossed ⟨e, he, hfirst, hless, hmem⟩
  exact hs.agree e (mem_of_mem_spanningForest he) e' (mem_of_mem_spanningForest he') _
    (hend e he hx.mem) (hend e' he' hy.mem) x y hx hy

theorem Pairing.Settled.leaves {g' : Graph Node} (hterminals : terminals.Nodup)
    (htrim : (treeOfPaths g' terminals s.paths).Trim terminals)
    (hcontains : ∀ n ∈ terminals, (treeOfPaths g' terminals s.paths).contains n = true)
    (htwo : 2 ≤ terminals.length) :
    Leaves g' terminals s.paths (treeOfPaths g' terminals s.paths) := by
  have hjoined : (Tree.joinedPaths g' s.paths).shape.WellFormed :=
    Tree.wellFormed_foldl_addPath Tree.sound_empty.wellFormed
  refine ⟨fun k hk hcrossed => Nat.le_antisymm ?_ ?_, fun k hk => hs.not_crossed hk,
    fun hcount k hk ⟨e, he, hfirst, hless, hmem⟩ => ?_⟩
  · refine htrim.isTree.wellFormed.degree_le_one fun x y hx hy => ?_
    have hstep : ∀ {x}, (treeOfPaths g' terminals s.paths).shape.Adj (Tree.nodeAt terminals k) x →
        ∃ e ∈ chosenPaths s.paths, Steps e.2.2 (Tree.nodeAt terminals k) x := by
      intro x hx
      have hadj := (Tree.reduce_within hjoined terminals).edge _ _ hx
      exact (Tree.adj_foldl_addPath.1 hadj).resolve_left (not_adj_empty _ _)
    obtain ⟨e, he, hx⟩ := hstep hx
    obtain ⟨e', he', hy⟩ := hstep hy
    exact hs.step_eq hk hcrossed he he' hx hy
  · -- some other terminal belongs to the tree as well
    obtain ⟨m, hm, hne⟩ : ∃ m ∈ terminals, Tree.nodeAt terminals k ≠ m := by
      rcases Nat.eq_zero_or_pos k with rfl | hpos
      · exact ⟨_, Tree.nodeAt_mem htwo, mt (nodeAt_inj hterminals hk htwo).1 (by omega)⟩
      · have hzero : 0 < terminals.length := by omega
        exact ⟨_, Tree.nodeAt_mem hzero, mt (nodeAt_inj hterminals hk hzero).1 (by omega)⟩
    exact htrim.isTree.connected.degree_pos htrim.isTree.wellFormed
      (hcontains _ (Tree.nodeAt_mem hk)) (hcontains m hm) hne
  · have hfound := hs.found e (mem_of_mem_spanningForest he)
    have hpath : (Tree.joinedPaths g' s.paths).shape.IsPath (Tree.nodeAt terminals e.2.1.1)
        (Tree.nodeAt terminals e.2.1.2) e.2.2 :=
      ⟨hfound.path.head, hfound.path.last,
        Tree.isChain_foldl_addPath (fun p : FoundPath => p.2.2) he⟩
    refine (Tree.isPath_reduce hjoined hpath hfound.nodup (Tree.nodeAt_mem hfound.bound.1)
      (Tree.nodeAt_mem hfound.bound.2) hcount).two_le_degree htrim.isTree.wellFormed hfound.nodup hmem
        ?_ ?_
    · exact mt (nodeAt_inj hterminals hk hfound.bound.1).1 (by omega)
    · exact mt (nodeAt_inj hterminals hk hfound.bound.2).1 (by omega)

/-- Without a cache, and where the bus hangs together, no terminal is crossed. -/
theorem Pairing.Settled.not_crossed_of_busJoined (hg : Plain g) (hjoined : g.BusJoined)
    (hterminals : terminals.Nodup) (hbus : ∀ n ∈ terminals, n.isBus = false)
    (hcache : s.cache = none) {k : Nat} (hk : k < terminals.length) :
    ¬ Crossed terminals s.paths k := by
  rintro ⟨e, he, hfirst, hless, hmem⟩
  have hpaths := mem_of_mem_spanningForest he
  have hfound := hs.found e hpaths
  obtain ⟨h, hh, hpath⟩ := hs.cheapest hcache e hpaths
  have hends := eq_end_of_shortestPath? hg hjoined hh (hbus _ (Tree.nodeAt_mem hfound.bound.1))
    (hbus _ (Tree.nodeAt_mem hfound.bound.2)) hfound.ne hpath (hbus _ (Tree.nodeAt_mem hk)) hmem
  rw [nodeAt_inj hterminals hk hfound.bound.1, nodeAt_inj hterminals hk hfound.bound.2] at hends
  omega

end Settled

/-- Connecting more than two terminals other than bus tiles on a board that is not contracted, without a
cache or with a filled one: if there is a tree, the terminals that no chosen path crosses are leaves.
The first two are never crossed, and without a cache none is where the bus hangs together. -/
theorem terminal_leaves (hb : Reached l b) (hnone : b.anchor = none) (hterminals : terminals.Nodup)
    (hthree : 3 ≤ terminals.length) (hbus : ∀ n ∈ terminals, n.isBus = false)
    (hcache : ∀ p, cache = some p → p.Filled) :
    ∃ c, b.connect terminals cache = .ok c ∧ ∀ t, c.tree = some t →
      ∃ s, joinPairs true (placePairs terminals.zipIdx) ⟨b, cache, [], []⟩ = .ok (s, true) ∧
        t = treeOfPaths c.board.graph terminals s.paths ∧
        Leaves c.board.graph terminals s.paths t ∧
        (cache = none → b.graph.BusJoined → ∀ n ∈ terminals, t.degree n = 1) := by
  have hsound : ∀ p, cache = some p → p.Sound := fun p hp => (hcache p hp).sound
  have hne : terminals ≠ [] := by
    rintro rfl
    simp at hthree
  obtain ⟨c, hc, hconnects⟩ := (connect_ends cache hb.wellFormed hterminals hne hsound).exists_ok
  refine ⟨c, hc, fun t ht => ?_⟩
  obtain ⟨s, connected, hjoin, rfl⟩ := exists_of_connect (by omega) hc
  rw [decide_eq_true (show 2 < terminals.length by omega)] at hjoin
  dsimp only at ht
  split at ht
  · next hconnected =>
    cases ht
    rw [hconnected] at hjoin
    have hs := settled_of_joinPairs hb hnone hterminals (by omega) hbus hcache hjoin
    have hleaves := hs.leaves hterminals (hconnects.trim _ (if_pos hconnected))
      (hconnects.tree _ (if_pos hconnected)).2.2 (by omega)
    refine ⟨s, hjoin, rfl, hleaves, ?_⟩
    rintro rfl hjoined n hn
    have hempty : s.cache = none := by
      have hkeeps : PathCache.Keeps fun _ => False := fun _ _ _ _ _ _ h _ => h
      exact Option.eq_none_iff_forall_not_mem.2
        ((lasting_cache hkeeps).joinPairs (fun p hp => by cases hp) hjoin)
    obtain ⟨k, hk, rfl⟩ := List.getElem_of_mem hn
    have hleaf := hleaves.leaf k hk
      (hs.not_crossed_of_busJoined (hb.plain hnone) hjoined hterminals hbus hempty hk)
    rwa [Tree.nodeAt_of_lt hk] at hleaf
  · cases ht

/-- Four data patches around a row of bus tiles. -/
def quadLayout : Layout where
  bus := SortedSet.ofList [⟨0, 0⟩, ⟨1, 0⟩, ⟨2, 0⟩]
  data := SortedSet.ofList [⟨0, 1⟩, ⟨1, 1⟩, ⟨1, -1⟩, ⟨2, 1⟩]
  magic := ∅
  zero := ∅
  storage := ∅

/-- Terminals on all four patches are leaves. -/
theorem quadLayout_leaves : ∃ b c t, ofLayout quadLayout = .ok b ∧
    b.connect [.qubit 0 .X, .qubit 1 .X, .qubit 2 .X, .qubit 3 .X] none = .ok c ∧ c.tree = some t ∧
      ∀ n ∈ [Node.qubit 0 .X, .qubit 1 .X, .qubit 2 .X, .qubit 3 .X], t.degree n = 1 := by
  have hrun : (ofLayout quadLayout).toOption.any (fun b =>
      (b.connect [.qubit 0 .X, .qubit 1 .X, .qubit 2 .X, .qubit 3 .X] none).toOption.any (fun c =>
        c.tree.isSome) &&
      b.graph.nodes.all fun n => b.graph.nodes.all fun m => !n.isBus || !m.isBus ||
        (b.path? n m).any fun r => r.2.all Node.isBus && decide (r.2.length ≤ 2 * patchWeight)) =
          true := by
    decide +kernel
  obtain ⟨b, hb, hrun⟩ := exists_of_any_toOption hrun
  obtain ⟨hrun, hall⟩ := (Bool.and_eq_true _ _).mp hrun
  obtain ⟨c, hc, hrun⟩ := exists_of_any_toOption hrun
  obtain ⟨t, ht⟩ := Option.isSome_iff_exists.1 hrun
  have hjoined : b.graph.BusJoined := by
    intro i j hi hj
    have hpair := List.all_eq_true.1 (List.all_eq_true.1 hall _ (mem_nodes.2 hi)) _ (mem_nodes.2 hj)
    obtain ⟨⟨d, p⟩, hpath, hp⟩ := (Option.any_eq_true _ _).1 hpair
    obtain ⟨hbus, hlength⟩ := (Bool.and_eq_true _ _).mp hp
    exact ⟨p, (shortestPath?_spec hpath).1, List.all_eq_true.1 hbus, of_decide_eq_true hlength⟩
  have hterminals : [Node.qubit 0 .X, .qubit 1 .X, .qubit 2 .X, .qubit 3 .X].Nodup := by decide
  have hcache : ∀ p, (none : Option PathCache) = some p → p.Filled := by simp
  obtain ⟨c', hc', hleaves⟩ := terminal_leaves (Reached.ofLayout hb) (anchor_ofLayout hb) hterminals
    (by decide) (by decide) hcache
  cases hc.symm.trans hc'
  obtain ⟨s, -, -, -, hall⟩ := hleaves t ht
  exact ⟨b, c, t, hb, hc, ht, hall rfl hjoined⟩

/-- Two rows of bus tiles, joined through two data patches, and a data patch at the left of each row. -/
def bridgeLayout : Layout where
  bus := SortedSet.ofList [⟨1, 0⟩, ⟨2, 0⟩, ⟨1, 2⟩, ⟨2, 2⟩]
  data := SortedSet.ofList [⟨0, 0⟩, ⟨0, 2⟩, ⟨1, 1⟩, ⟨2, 1⟩]
  magic := ∅
  zero := ∅
  storage := ∅

/-- The path between the patches at the left runs through the third terminal, which has two
neighbours in the tree. -/
theorem exists_crossed_terminal : ∃ (l : Layout) (b : Board) (terminals : List Node) (c : Connection)
    (t : Tree), Reached l b ∧ b.anchor = none ∧ terminals.Nodup ∧ 3 ≤ terminals.length ∧
      (∀ n ∈ terminals, n.isBus = false) ∧ b.connect terminals none = .ok c ∧ c.tree = some t ∧
      ∃ n ∈ terminals, t.degree n ≠ 1 := by
  have hrun : (ofLayout bridgeLayout).toOption.any (fun b =>
      (b.connect [.qubit 0 .Z, .qubit 1 .Z, .qubit 2 .X] none).toOption.any fun c =>
        c.tree.any fun t => decide (t.degree (.qubit 2 .X) ≠ 1)) = true := by
    decide +kernel
  obtain ⟨b, hb, hrun⟩ := exists_of_any_toOption hrun
  obtain ⟨c, hc, hrun⟩ := exists_of_any_toOption hrun
  obtain ⟨t, ht, hdegree⟩ := (Option.any_eq_true _ _).1 hrun
  exact ⟨bridgeLayout, b, [.qubit 0 .Z, .qubit 1 .Z, .qubit 2 .X], c, t, Reached.ofLayout hb,
    anchor_ofLayout hb, by decide, by decide, by decide, hc, ht, .qubit 2 .X, by decide,
    of_decide_eq_true hdegree⟩

end Board

end LatticeSurgery
