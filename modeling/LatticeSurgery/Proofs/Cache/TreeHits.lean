import LatticeSurgery.Proofs.Board.Cheapest
import LatticeSurgery.Proofs.Packing.Course

/-!
# Trees from the cache

The tree cache knows the terminals of a tree, but neither the graph nor the kind of rotation for which
it was found, and a tree is taken again when its nodes and edges are there. Such a tree joins the
terminals with the present weights. This module compares it with the tree that a search finds on the
board as it is restricted for the rotation (`Packer.HitCompared`): the two agree only if the tree from
the cache avoids what the rotation must not use, and they do agree if it does and every detour between
its terminals is heavier.
-/

namespace LatticeSurgery

open Ordered LatticeSurgery.Graph

/-! ## The weights of cached trees -/

/-- Every stored tree has the weights of a board. -/
def TreeCache.Graded (c : TreeCache) : Prop :=
  ∀ terminals t, t ∈ c.trees.candidates terminals → t.shape.Graded

namespace TreeCache

variable {c : TreeCache} {t : Tree} {terminals : List Node} {g : Graph Node}

theorem graded_empty : (∅ : TreeCache).Graded := by
  rintro terminals t ht
  cases ht

theorem Graded.find? (hc : c.Graded) (h : c.find? terminals g = some t) : t.shape.Graded :=
  hc terminals t (List.mem_of_find?_eq_some h)

theorem Graded.insert (hc : c.Graded) (ht : t.shape.Graded) : (c.insert terminals t).Graded := by
  intro terminals' t' ht'
  rcases mem_candidates_insert.1 ht' with ht' | ⟨rfl, rfl⟩
  · exact hc _ _ ht'
  · exact ht

end TreeCache

/-- A desk whose working copy and cached trees have the weights of a board. -/
structure Desk.Graded (d : Desk) : Prop where
  wellFormed : d.working.graph.WellFormed
  working : d.working.graph.Graded
  paths : d.packer.paths.Sound
  trees : d.packer.trees.Graded

namespace Packer

variable {d d' : Desk} {r : Rotation} {terminals : List Node} {outcome : Outcome}

/-- A tree that is found and stored has the weights of the working copy. -/
theorem graded_of_connectQubits (hd : d.Graded) (hterminals : terminals.Nodup)
    (htwo : 2 ≤ terminals.length) {found : Option Tree}
    (h : connectQubits r terminals d = .ok (found, d')) : d'.Graded := by
  unfold connectQubits at h
  split at h
  · cases h
    exact hd
  · obtain ⟨c, hconnect, h⟩ := exists_of_bind_eq_ok h
    have hwell := Board.wellFormed_restrictTo hd.wellFormed terminals r.kind
    have hgraded := Board.graded_removeNodes hd.wellFormed hd.working
      (d.working.offLimits terminals r.kind)
    have hcache : ∀ c, some d.packer.paths = some c → c.Sound := fun c hc => by
      cases hc
      exact hd.paths
    have hpaths : (c.cache.getD d.packer.paths).Sound := by
      have hconnects : Board.Connects _ terminals c := (Board.connect_ends _ hwell hterminals
        (by rintro rfl; simp at htwo) hcache).of_ok hconnect
      cases hc : c.cache with
      | none => exact hd.paths
      | some paths => exact hconnects.cache paths hc
    dsimp only at h
    split at h
    · cases h
      exact ⟨hd.wellFormed, hd.working, hpaths, hd.trees⟩
    · next t ht =>
      cases h
      refine ⟨hd.wellFormed, hd.working, hpaths, hd.trees.insert ?_⟩
      exact Board.graded_of_connect hwell hgraded hterminals (by omega) hcache hconnect
        (Option.filter_eq_some_iff.1 ht).1

theorem graded_of_packRotation (hd : d.Graded) (h : packRotation r d = .ok (outcome, d')) :
    d'.Graded := by
  have hends : ∀ {d₁ : Desk}, d₁.Graded → Concludes outcome d₁ d' → d'.Graded := by
    intro d₁ hd₁ h
    cases h with
    | unpacked => exact hd₁
    | packed => exact ⟨hd₁.wellFormed, hd₁.working, hd₁.paths, hd₁.trees⟩
  rcases cases_of_packRotation h with h | ⟨found, d₁, hseveral, hconnect, h⟩
  · exact hends hd h
  · exact hends (graded_of_connectQubits hd r.activeNodes.nodup hseveral hconnect) h

theorem graded_enter (hd : d.Graded) (outcome : Outcome) (fails : FailCounts) :
    (d.enter outcome fails).Graded := by
  cases outcome with
  | packed p =>
    refine ⟨?_, Board.graded_removeNodes hd.wellFormed hd.working _, hd.paths, hd.trees⟩
    show (d.working.removeNodes p.tree.nodes).graph.WellFormed
    rw [Board.graph_removeNodes]
    exact hd.wellFormed.foldl_removeNode _
  | failed reason => exact ⟨hd.wellFormed, hd.working, hd.paths, hd.trees⟩
  | deferred => exact ⟨hd.wellFormed, hd.working, hd.paths, hd.trees⟩

theorem graded_of_secondRound {rs : List Rotation} {packed packed' : List Packed} (hd : d.Graded)
    (h : secondRound rs packed d = .ok (packed', d')) : d'.Graded := by
  induction rs generalizing packed d with
  | nil =>
    cases h
    exact hd
  | cons r rs ih =>
    rcases cases_of_secondRound h with ⟨-, hrest⟩ | ⟨-, outcome, d₁, fails, hrotation, -, hrest⟩
    · exact ih hd hrest
    · exact ih (graded_enter (graded_of_packRotation hd hrotation) outcome fails) hrest

/-- Packing a tick on a graded board stores graded trees only. -/
theorem graded_of_pack {σ : Type} [WordSource σ] {p : Packer} {rotations : List Rotation} {b : Board}
    {f : Factories} {rng : σ} {result : Result σ} (hp : p.Sound) (htrees : p.trees.Graded)
    (hb : b.Sound) (hg : b.graph.Graded) (h : p.pack rotations b f rng = .ok result) :
    result.packer.trees.Graded := by
  unfold pack at h
  obtain ⟨b₀, hbefore, h⟩ := exists_of_bind_eq_ok h
  dsimp only at h
  obtain ⟨first, hfirst, h⟩ := exists_of_bind_eq_ok h
  obtain ⟨⟨packed, d⟩, hsecond, h⟩ := exists_of_bind_eq_ok h
  obtain ⟨b₂, -, h⟩ := exists_of_bind_eq_ok h
  cases h
  obtain ⟨hoccupies, -⟩ := (runStorages_ends p .beforePacking hb).of_ok hbefore
  have hsound := ((firstRound_ends hoccupies.sound _ rotations
    (FirstRound.Sound.start hoccupies.sound f p.fails rng)).of_ok hfirst).occupies
  have hgraded : first.board.graph.Graded := by
    rw [hsound.graph, hoccupies.graph]
    exact hg
  have hopen := hsound.sound.openPart
  have hstart : Desk.Graded ⟨first.board,
      first.board.openPart.removeNodes (first.packed.flatMap fun q => q.tree.nodes), first.factories,
      stockOf b₀, { p with fails := first.fails }⟩ :=
    ⟨(hopen.removeNodes _).graph, Board.graded_removeNodes hopen.graph
      (Board.graded_removeNodes hsound.sound.graph hgraded _) _, hp.paths, htrees⟩
  exact (graded_of_secondRound hstart hsecond).trees

/-- The trees that a packer stores have the weights of the boards of its layout. -/
theorem Used.graded {l : Layout} {p : Packer} (h : Used l p) : p.trees.Graded := by
  induction h with
  | new turnTicks store reset => exact TreeCache.graded_empty
  | pack h hb hr ih => exact graded_of_pack h.sound ih hb.sound hb.graded hr

/-! ## A hit and a search -/

/-- None of the nodes belongs to the tree. -/
def Avoids (t : Tree) (ns : List Node) : Prop := ∀ n ∈ ns, t.contains n = false

/-- How a tree from the cache compares with what is found without caches. -/
structure HitCompared (b : Board) (r : Rotation) (t : Tree) (fresh : Option Tree) : Prop where
  /-- The tree contains the boundaries of the rotation. -/
  contains : ∀ n ∈ r.activeNodes, t.contains n = true
  /-- It is a tree. -/
  isTree : t.shape.IsTree
  /-- Its nodes are there. -/
  node : ∀ n, t.contains n = true → b.graph.hasNode n = true
  /-- Its edges are there and have the same weights. -/
  weight : ∀ n m w, t.shape.weight? n m = some w → b.graph.weight? n m = some w
  /-- The two have the same nodes only if the tree from the cache avoids what the rotation must not
  use. -/
  avoids : ∀ f, fresh = some f → f.nodeSet = t.nodeSet →
    Avoids t (b.offLimits r.activeNodes.toList r.kind)
  /-- In that case, the two agree if all detours between boundaries are heavier. -/
  same : Avoids t (b.offLimits r.activeNodes.toList r.kind) →
    t.OnlyCheapest (b.restrictTo r.activeNodes.toList r.kind).graph r.activeNodes.toList →
    ∃ f, fresh = some f ∧ f.nodeSet = t.nodeSet ∧ f.totalWeight = t.totalWeight
  /-- In that case and with two boundaries, a tree is found that is no heavier, and it is as heavy
  exactly if no path is lighter than the tree from the cache. -/
  pair : Avoids t (b.offLimits r.activeNodes.toList r.kind) → r.activeNodes.toList.length = 2 →
    ∃ f, fresh = some f ∧ f.totalWeight ≤ t.totalWeight ∧ (f.totalWeight = t.totalWeight ↔
      t.Cheapest (b.restrictTo r.activeNodes.toList r.kind).graph r.activeNodes.toList)

/-- A tree that avoids the nodes that are removed is still there. -/
theorem within_removeNodes {b : Board} {t : Tree} {ns : List Node} (hb : b.graph.WellFormed)
    (ht : t.shape.WellFormed) (hwithin : t.shape.Within b.graph) (havoids : Avoids t ns) :
    t.shape.Within (b.removeNodes ns).graph := by
  have hout : ∀ n, t.contains n = true → n ∉ ns := fun n hn hmem => by
    rw [havoids n hmem] at hn
    cases hn
  refine ⟨fun n hn => Board.hasNode_removeNodes.2 ⟨hwithin.node n hn, hout n hn⟩, fun n m hnm => ?_⟩
  exact (Board.adj_removeNodes hb).2 ⟨hwithin.edge n m hnm, hout n (ht.hasNode_left hnm),
    hout m (ht.hasNode_right hnm)⟩

/-- With two terminals, what is found is no heavier than a tree that is there. -/
theorem pair_compared {b : Board} {t : Tree} (hb : b.graph.WellFormed) (hg : b.graph.Graded)
    (ht : Joins t terminals) (htGraded : t.shape.Graded) (hwithin : t.shape.Within b.graph)
    (hterminals : terminals.Nodup) (htwo : terminals.length = 2) {c : Board.Connection}
    (h : b.connect terminals none = .ok c) :
    ∃ f, c.tree = some f ∧ f.totalWeight ≤ t.totalWeight ∧
      (f.totalWeight = t.totalWeight ↔ t.Cheapest b.graph terminals) := by
  obtain ⟨n, m, rfl⟩ := List.length_eq_two.1 htwo
  have hne : n ≠ m := by simpa using hterminals
  have hn := ht.contains n (by simp)
  have hm := ht.contains m (by simp)
  obtain ⟨p, hp, hnodup⟩ := ht.sound.exists_simple_path hn hm
  have hpBoard := hp.mono hwithin.edge
  obtain ⟨f, hf, ⟨q, hq, hweight⟩, hleast⟩ := Board.connect_pair hb hne (hwithin.node n hn)
    (hwithin.node m hm) hpBoard.linked h
  have hpath := Tree.keyWeight_le_totalWeight ht.sound.wellFormed htGraded hp.chain hnodup
  rw [← hg.pathWeight_eq hpBoard.chain] at hpath
  have hle : f.totalWeight ≤ t.totalWeight := (hleast p hpBoard).trans hpath
  refine ⟨f, hf, hle, fun heq => ?_, fun hcheapest => ?_⟩
  · have hforward : ∀ p, b.graph.IsPath n m p → t.totalWeight ≤ b.graph.pathWeight p := fun p hp =>
      heq ▸ hleast p hp
    intro x hx y hy hxy s hs
    rcases List.mem_pair.1 hx with rfl | rfl <;> rcases List.mem_pair.1 hy with rfl | rfl
    · exact absurd rfl hxy
    · exact hforward s hs
    · rw [← pathWeight_reverse]
      exact hforward s.reverse hs.reverse
    · exact absurd rfl hxy
  · exact Nat.le_antisymm hle (hweight ▸ hcheapest n (by simp) m (by simp) hne q hq)

/-- A rotation with several boundaries that is connected from the cache gets a tree of the board with
its present weights, which compares with a search without caches as `HitCompared` says. -/
theorem hit_compared {l : Layout} {d : Desk} (hp : Used l d.packer) (hb : Board.Stage l d.working)
    (r : Rotation) (htwo : 2 ≤ r.activeNodes.toList.length) {t : Tree}
    (hit : d.packer.trees.find? r.activeNodes.toList d.working.graph = some t) :
    connectQubits r r.activeNodes.toList d = .ok (some t, d) ∧
    ∃ c, (d.working.restrictTo r.activeNodes.toList r.kind).connect r.activeNodes.toList none = .ok c ∧
      HitCompared d.working r t c.tree := by
  have hwell := hb.sound.graph
  have hnodup := r.activeNodes.nodup
  obtain ⟨hjoins, hwithin⟩ := hp.sound.trees.find? hit
  have htGraded := hp.graded.find? hit
  have hsub := Board.wellFormed_restrictTo hwell r.activeNodes.toList r.kind
  have hsubGraded : (d.working.restrictTo r.activeNodes.toList r.kind).graph.Graded :=
    Board.graded_removeNodes hwell hb.graded _
  have hsubWithin : Avoids t (d.working.offLimits r.activeNodes.toList r.kind) →
      t.shape.Within (d.working.restrictTo r.activeNodes.toList r.kind).graph :=
    within_removeNodes hwell hjoins.sound.wellFormed hwithin
  obtain ⟨c, hc, hconnects⟩ := (Board.connect_ends none hsub hnodup (by rintro h; simp [h] at htwo)
    (by simp)).exists_ok
  refine ⟨by rw [connectQubits, hit], c, hc, hjoins.contains, hjoins.trim.isTree, hwithin.node,
    fun n m w hw => ?_, fun f hf hnodes n hn => ?_, fun havoids honly => ?_, fun havoids hpair => ?_⟩
  · have hadj : t.shape.Adj n m := adj_iff.2 ⟨w, hw⟩
    rw [hb.graded.weight? (hwithin.edge n m hadj), htGraded n m w hw]
  · by_contra hcontains
    rw [Bool.not_eq_false, ← Tree.mem_nodeSet, ← hnodes, Tree.mem_nodeSet] at hcontains
    exact (Board.hasNode_removeNodes.1 ((hconnects.tree f hf).2.1.node n hcontains)).2 hn
  · exact Board.connect_of_onlyCheapest hsub hsubGraded hjoins htGraded (hsubWithin havoids) hnodup
      htwo honly hc
  · exact pair_compared hsub hsubGraded hjoins htGraded (hsubWithin havoids) hnodup hpair hc

/-! ## A tree through a zero state -/

/-- Two bus tiles that only a zero state joins, each next to a data patch. -/
def ferryLayout : Layout where
  bus := SortedSet.ofList [⟨1, -1⟩, ⟨2, 1⟩]
  data := SortedSet.ofList [⟨1, -2⟩, ⟨2, 2⟩]
  magic := ∅
  zero := SortedSet.ofList [⟨1, 0⟩, ⟨2, 0⟩]
  storage := ∅

/-- A rotation about X on both data patches. -/
def ferryRotation (index : Nat) (kind : RotationKind) : Rotation :=
  ⟨index, kind, .plus, SortedSet.ofList [0, 1], ∅, ∅⟩

/-- The desk of a packer on a board before anything is packed. -/
def deskOn (p : Packer) (b : Board) : Desk := ⟨b, b, ⟨0, 0, [], ∅⟩, stockOf b, p⟩

/-- A π/4 rotation is connected through the zero state, and its tree is stored. The tree is as heavy as
the one found afresh for such a rotation; for a measurement nothing is found, since it must not use
zero states. -/
theorem exists_ferryHit : ∃ p b t, Used ferryLayout p ∧ Board.Stage ferryLayout b ∧
    p.trees.find? (ferryRotation 1 .pi4).activeNodes.toList b.graph = some t ∧
    (∀ n ∈ b.offLimits (ferryRotation 1 .pi4).activeNodes.toList .pi4, t.contains n = false) ∧
    (∃ c f, (b.restrictTo (ferryRotation 1 .pi4).activeNodes.toList .pi4).connect
      (ferryRotation 1 .pi4).activeNodes.toList none = .ok c ∧ c.tree = some f ∧
        f.totalWeight = t.totalWeight) ∧
    ∃ c, (b.restrictTo (ferryRotation 1 .measurement).activeNodes.toList .measurement).connect
      (ferryRotation 1 .measurement).activeNodes.toList none = .ok c ∧ c.tree = none := by
  have hrun : (Board.ofLayout ferryLayout).toOption.any (fun b =>
      ((Packer.new 3 .never .never).pack [ferryRotation 0 .pi4] b ⟨0, 0, [], ∅⟩
        (⟨[], 0⟩ : CyclicWords)).toOption.any fun r =>
        (r.packer.trees.find? (ferryRotation 1 .pi4).activeNodes.toList b.graph).any fun t =>
          ((b.offLimits (ferryRotation 1 .pi4).activeNodes.toList .pi4).all (!t.contains ·) &&
          (((b.restrictTo (ferryRotation 1 .pi4).activeNodes.toList .pi4).connect
            (ferryRotation 1 .pi4).activeNodes.toList none).toOption.any fun c =>
              c.tree.any fun f => decide (f.totalWeight = t.totalWeight))) &&
          (((b.restrictTo (ferryRotation 1 .measurement).activeNodes.toList .measurement).connect
            (ferryRotation 1 .measurement).activeNodes.toList none).toOption.any
              fun c => c.tree.isNone)) = true := by
    decide +kernel
  obtain ⟨b, hb, hrun⟩ := exists_of_any_toOption hrun
  obtain ⟨r, hr, hrun⟩ := exists_of_any_toOption hrun
  obtain ⟨t, ht, hrun⟩ := (Option.any_eq_true _ _).1 hrun
  obtain ⟨hrun, hnone⟩ := (Bool.and_eq_true _ _).mp hrun
  obtain ⟨havoids, hsame⟩ := (Bool.and_eq_true _ _).mp hrun
  obtain ⟨c, hc, hsame⟩ := exists_of_any_toOption hsame
  obtain ⟨f, hf, hweight⟩ := (Option.any_eq_true _ _).1 hsame
  obtain ⟨c', hc', hnone⟩ := exists_of_any_toOption hnone
  refine ⟨r.packer, b, t, .pack (.new 3 .never .never) (.ofLayout hb) hr, .ofLayout hb, ht,
    fun n hn => ?_, ⟨c, f, hc, hf, of_decide_eq_true hweight⟩, c', hc', Option.isNone_iff_eq_none.1 hnone⟩
  simpa using List.all_eq_true.1 havoids n hn

/-- For a π/4 rotation the tree through the zero state is cheapest, being as heavy as the one that is
found. -/
theorem ferryLayout_hit_cheapest : ∃ p b t, Used ferryLayout p ∧ Board.Stage ferryLayout b ∧
    p.trees.find? (ferryRotation 1 .pi4).activeNodes.toList b.graph = some t ∧
      t.Cheapest (b.restrictTo (ferryRotation 1 .pi4).activeNodes.toList .pi4).graph
        (ferryRotation 1 .pi4).activeNodes.toList := by
  obtain ⟨p, b, t, hp, hb, hit, havoids, ⟨c, f, hc, hf, hweight⟩, -⟩ := exists_ferryHit
  obtain ⟨-, c', hc', hcompared⟩ :=
    hit_compared (d := deskOn p b) hp hb (ferryRotation 1 .pi4) (by decide) hit
  cases hc.symm.trans hc'
  obtain ⟨f', hf', -, hiff⟩ := hcompared.pair havoids (by decide)
  cases hf.symm.trans hf'
  exact ⟨p, b, t, hp, hb, hit, hiff.1 hweight⟩

/-- A measurement is connected from the cache although a search finds no tree. -/
theorem exists_unfounded_hit : ∃ (l : Layout) (d : Desk) (r : Rotation) (t : Tree)
    (c : Board.Connection), Used l d.packer ∧ Board.Stage l d.working ∧
      2 ≤ r.activeNodes.toList.length ∧
      connectQubits r r.activeNodes.toList d = .ok (some t, d) ∧
      (d.working.restrictTo r.activeNodes.toList r.kind).connect r.activeNodes.toList none = .ok c ∧
        c.tree = none := by
  obtain ⟨p, b, t, hp, hb, hit, -, -, c, hc, hnone⟩ := exists_ferryHit
  refine ⟨ferryLayout, deskOn p b, ferryRotation 1 .measurement, t, c, hp, hb, by decide, ?_, hc, hnone⟩
  have hfound : (deskOn p b).packer.trees.find?
      (ferryRotation 1 .measurement).activeNodes.toList (deskOn p b).working.graph = some t := hit
  rw [connectQubits, hfound]

end Packer

end LatticeSurgery
