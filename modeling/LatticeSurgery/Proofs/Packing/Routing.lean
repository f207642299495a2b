import LatticeSurgery.Proofs.Packing.FirstRound
import LatticeSurgery.Proofs.Packing.Trimming

/-!
# Routing a rotation

Routing a rotation on a sound desk never fails. A rotation that is packed is served by a tree of
free nodes, and its resource is committed; everything else leaves the board alone
(`Packer.Routed`).
-/

namespace LatticeSurgery

open Ordered LatticeSurgery.Graph

/-- A tree joins some terminals: it contains them and no other boundaries, and they are its ends. -/
structure Packer.Joins (t : Tree) (terminals : List Node) : Prop where
  contains : ∀ n ∈ terminals, t.contains n = true
  own : Packer.OnlyOwn t.shape terminals
  trim : t.Trim terminals
  ends : ∀ n ∈ terminals, t.degree n ≤ 1

theorem Packer.Joins.sound {t : Tree} {terminals : List Node} (h : Packer.Joins t terminals) :
    t.Sound :=
  Tree.sound_of_isTree h.trim.isTree

/-- Every stored tree joins the terminals under which it is stored. -/
def TreeCache.Sound (c : TreeCache) : Prop :=
  ∀ terminals t, t ∈ c.trees.candidates terminals → Packer.Joins t terminals

namespace TreeCache

variable {c : TreeCache} {t : Tree} {terminals : List Node} {g : Graph Node}

theorem sound_empty : (∅ : TreeCache).Sound := by
  rintro terminals t ht
  cases ht

/-- A tree whose listed nodes and edges belong to a graph lies in it. -/
theorem within_of_fits (ht : t.shape.WellFormed) (h : fits g t = true) :
    t.shape.Within g := by
  unfold fits at h
  rw [Bool.and_eq_true, List.all_eq_true, List.all_eq_true] at h
  refine ⟨fun n hn => h.1 n (Tree.mem_nodes.2 hn), fun n m hnm => ?_⟩
  obtain ⟨e, he, ⟨rfl, rfl⟩ | ⟨rfl, rfl⟩⟩ := ht.exists_mem_edgeList hnm
  · exact h.2 e he
  · exact Adj.symm (h.2 e he)

theorem Sound.find? (hc : c.Sound) (h : c.find? terminals g = some t) :
    Packer.Joins t terminals ∧ t.shape.Within g := by
  have hjoins := hc terminals t (List.mem_of_find?_eq_some h)
  exact ⟨hjoins, within_of_fits hjoins.sound.wellFormed (List.find?_some h)⟩

/-- A tree is stored under a list of terminals if it was before or is entered there. -/
theorem mem_candidates_insert {terminals' : List Node} {t' : Tree} :
    t' ∈ (c.insert terminals t).trees.candidates terminals' ↔
      t' ∈ c.trees.candidates terminals' ∨ terminals' = terminals ∧ t' = t := by
  rw [show Cache.candidates (c.insert terminals t).trees terminals' = _ from
    Cache.candidates_insert _ _ _ _]
  split
  · next hsame => simp [same_iff.1 hsame]
  · next hsame =>
    have hne : terminals' ≠ terminals := fun h => hsame (same_iff.2 h)
    simp [hne]

theorem Sound.insert (hc : c.Sound) (ht : Packer.Joins t terminals) :
    (c.insert terminals t).Sound := by
  intro terminals' t' ht'
  rcases mem_candidates_insert.1 ht' with ht' | ⟨rfl, rfl⟩
  · exact hc _ _ ht'
  · exact ht

end TreeCache

namespace Packer

/-- Both caches are sound. -/
structure Sound (p : Packer) : Prop where
  paths : p.paths.Sound
  trees : p.trees.Sound

/-- The two packers agree in what is fixed for a run. -/
structure SameConfig (p q : Packer) : Prop where
  turnTicks : q.turnTicks = p.turnTicks
  store : q.store = p.store
  reset : q.reset = p.reset

theorem SameConfig.refl (p : Packer) : p.SameConfig p := ⟨rfl, rfl, rfl⟩

theorem SameConfig.trans {p q r : Packer} (h : p.SameConfig q) (h' : q.SameConfig r) :
    p.SameConfig r :=
  ⟨h'.turnTicks.trans h.turnTicks, h'.store.trans h.store, h'.reset.trans h.reset⟩

/-- The two packers differ in their caches at most. -/
structure SameButCaches (p q : Packer) : Prop extends SameConfig p q where
  fails : q.fails = p.fails

theorem SameButCaches.refl (p : Packer) : p.SameButCaches p := ⟨SameConfig.refl p, rfl⟩

theorem SameButCaches.trans {p q r : Packer} (h : p.SameButCaches q) (h' : q.SameButCaches r) :
    p.SameButCaches r :=
  ⟨h.toSameConfig.trans h'.toSameConfig, h'.fails.trans h.fails⟩

end Packer

/-- A desk between two rotations: the working copy consists of open nodes of the board, and what is
in stock there is ready. The board is compared with the one from which the round started, on which
the nodes of the working copy had the same countdowns. -/
structure Desk.Sound (b₁ : Board) (d : Desk) : Prop where
  occupies : b₁.Occupies d.board
  data : b₁.SparesData d.board
  packer : d.packer.Sound
  wellFormed : d.working.graph.WellFormed
  within : d.working.graph.Within d.board.graph
  opened : ∀ n, d.working.graph.hasNode n = true → n ∉ d.board.unavailable
  magic : ∀ n ∈ d.stock.magic, (n.kind = .patch .magic ∨ n.kind = .patch .storage) ∧
    (d.working.graph.hasNode n = true → d.board.ticksOf n = some 0)
  untouched : ∀ n, d.working.graph.hasNode n = true → d.board.ticksOf n = b₁.ticksOf n

namespace Packer

open Packed

variable {b₁ : Board} {d d' : Desk} {r : Rotation} {terminals : List Node} {anchor : Node}
  {sub : Board} {qubits : Option Tree} {turnTicks : Int}

theorem Joins.spliced {g : Graph Node} {t : Tree} (h : Joins t terminals) (hg : t.shape.Within g) :
    Spliced g terminals t :=
  ⟨h.sound, hg, h.contains, h.own⟩

/-- What an attempt to route a rotation leaves behind. -/
structure Routed (r : Rotation) (d : Desk) (outcome : Outcome) (d' : Desk) : Prop where
  working : d'.working = d.working
  packer : d'.packer.Sound
  config : d.packer.SameButCaches d'.packer
  stock : ∀ n ∈ d'.stock.magic, n ∈ d.stock.magic
  setup : d.factories.SameSetup d'.factories
  outcome : ((∀ p, outcome ≠ .packed p) ∧ d'.board = d.board) ∨
    ∃ p, outcome = .packed p ∧ p.rotation = r ∧
      Spliced d.working.graph r.activeNodes.toList p.tree ∧ p.Serves ∧ ¬ p.Turning ∧ p.Shaped ∧
        p.ReadyOn d.board 0 ∧ p.Commits d.board 0 d'.board

theorem Routed.unpacked {outcome : Outcome} (hd : d.packer.Sound) (h : ∀ p, outcome ≠ .packed p) :
    Routed r d outcome d :=
  ⟨rfl, hd, SameButCaches.refl _, fun _ hn => hn, Factories.SameSetup.refl _, Or.inl ⟨h, rfl⟩⟩

/-- A restricted board has no boundaries but the terminals. -/
theorem onlyOwn_restrictTo (b : Board) (terminals : List Node) (kind : RotationKind) :
    OnlyOwn (b.restrictTo terminals kind).graph terminals := by
  intro n hn hk
  obtain ⟨hnode, hallowed⟩ := Board.hasNode_removeNodes.1 hn
  by_contra hnot
  refine hallowed (List.mem_append_left _ (List.mem_filter.2 ⟨?_, by simpa using hnot⟩))
  exact Board.mem_nodesOfKind.2 ⟨hnode, hk⟩

theorem Spliced.spans {g : Graph Node} {t : Tree} {resource : Option Resource}
    (h : Spliced g r.activeNodes.toList t) : Packed.Spans ⟨r, t, resource⟩ :=
  fun n hk => ⟨fun hn => h.own n hn hk, h.terminals n⟩

/-- A zero state whose nodes are free is ready. -/
theorem ticksOf_zero_of_hasNode (hd : d.Sound b₁) {id : Nat} {basis : Basis}
    (h : d.working.graph.hasNode (.zero id basis) = true) :
    d.board.ticksOf (.zero id basis) = some 0 :=
  hd.occupies.sound.ticksOf_eq_zero (by simp [Node.kind]) (hd.within.node _ h) (hd.opened _ h)

/-- Committing a rotation that is served by free nodes, with its resource taken out of the stock. -/
theorem commit_routed (hd : d.Sound b₁) {p : Packed} (stock : Stock)
    (hstock : ∀ n ∈ stock.magic, n ∈ d.stock.magic)
    (htree : Spliced d.working.graph p.rotation.activeNodes.toList p.tree) (hserves : p.Serves)
    (hturning : ¬ p.Turning) (hshaped : p.Shaped) (hready : p.ReadyOn d.board 0) :
    Ends (commit d.board d.factories p 0) (fun _ => False) fun s =>
      Routed p.rotation d (.packed p) { d with board := s.1, factories := s.2, stock := stock } := by
  refine (commit_ends hd.occupies.sound d.factories hserves.holds hready).mono
    (fun _ h => hturning h.1) ?_
  rintro ⟨b', f'⟩ ⟨hcommits, hsetup⟩
  exact ⟨rfl, hd.packer, SameButCaches.refl _, hstock, hsetup,
    Or.inr ⟨p, rfl, rfl, htree, hserves, hturning, hshaped, hready, hcommits⟩⟩

/-! ## Magic states -/

theorem choose_spec {f : Factories} {b : Board} {candidates : List Node} {target chosen : Node}
    {path : List Node} (h : f.choose b candidates target = some (chosen, path)) :
    chosen ∈ candidates ∧ ∃ length, b.path? chosen target = some (length, path) := by
  have hconsider : ∀ (best : Option Factories.Choice) (n : Node) (c : Factories.Choice),
      f.consider b target best n = some c →
      best = some c ∨ (c.node = n ∧ ∃ length, b.path? n target = some (length, c.path)) := by
    intro best n c hc
    unfold Factories.consider at hc
    split at hc
    · exact Or.inl hc
    · dsimp only at hc
      split at hc
      · exact Or.inl hc
      · split at hc
        · exact Or.inl hc
        · next length path hpath =>
          split at hc
          · exact Or.inl hc
          · cases hc
            exact Or.inr ⟨rfl, length, hpath⟩
  have hfold : ∀ (l : List Node) (best : Option Factories.Choice) (c : Factories.Choice),
      l.foldl (f.consider b target) best = some c →
      best = some c ∨
        (c.node ∈ l ∧ ∃ length, b.path? c.node target = some (length, c.path)) := by
    intro l
    induction l with
    | nil => exact fun best c hc => Or.inl hc
    | cons n l ih =>
      intro best c hc
      rcases ih _ c hc with hc | ⟨hmem, hpath⟩
      · rcases hconsider best n c hc with hc | ⟨rfl, hpath⟩
        · exact Or.inl hc
        · exact Or.inr ⟨List.mem_cons_self, hpath⟩
      · exact Or.inr ⟨List.mem_cons_of_mem _ hmem, hpath⟩
  obtain ⟨c, hc, heq⟩ := Option.map_eq_some_iff.1 h
  cases heq
  rcases hfold candidates none c hc with hnone | hc
  · cases hnone
  · exact hc

/-- Giving a π/8 rotation a magic state, when paths to the anchor can be spliced. -/
theorem packMagicState_ends (hd : d.Sound b₁) (hk : r.kind = .pi8)
    (hterminals : terminals = r.activeNodes.toList) (hanchor : anchor.kind = .patch .qubit)
    (hsplice : ∀ start path, sub.graph.IsPath start anchor path → anchor ∉ path.dropLast →
      start ≠ anchor → path.Nodup →
      (Spliced d.working.graph terminals (spliceMagicState d.working.graph qubits path) ∧
        (spliceMagicState d.working.graph qubits path).contains start = true) ∧
      (spliceMagicState d.working.graph qubits path).Trim (terminals ++ [start]) ∧
      (terminals.length = 1 → ∀ n ∈ terminals ++ [start],
        (spliceMagicState d.working.graph qubits path).degree n ≤ 1)) :
    Ends (packMagicState r qubits anchor sub d) (fun _ => False) fun s =>
      Routed r d s.1 s.2 := by
  unfold packMagicState
  split
  · exact Routed.unpacked hd.packer (by simp)
  · split
    · exact Routed.unpacked hd.packer (by simp)
    · next chosen path hchoose =>
      obtain ⟨hmem, length, hpath⟩ := choose_spec hchoose
      obtain ⟨hstock, -⟩ := List.mem_filter.1 hmem
      obtain ⟨hkind, hzero⟩ := hd.magic chosen hstock
      obtain ⟨hisPath, hinner, -, -⟩ := shortestPath?_spec hpath
      have hne : chosen ≠ anchor := by
        rintro rfl
        rcases hkind with hkind | hkind <;> rw [hanchor] at hkind <;> cases hkind
      obtain ⟨⟨hspliced, hcontains⟩, htrim, halone⟩ := hsplice chosen path hisPath hinner hne
        (shortestPath?_nodup hpath)
      have hready := hzero (hspliced.within.node chosen hcontains)
      dsimp only
      set p : Packed := ⟨r, spliceMagicState d.working.graph qubits path,
        some (magicResource chosen)⟩ with hp
      have hserves : p.Serves := by
        unfold Serves
        rw [hp, hk]
        exact ⟨(hterminals ▸ hspliced).spans, chosen, hkind, rfl, hcontains⟩
      have hjoined : ∀ n ∈ terminals ++ [chosen],
          (spliceMagicState d.working.graph qubits path).contains n = true := by
        intro n hn
        rcases List.mem_append.1 hn with hn | hn
        · exact hspliced.terminals n hn
        · exact List.mem_singleton.1 hn ▸ hcontains
      have hshaped : p.Shaped := shaped_magicResource hk (hterminals ▸ hjoined) (hterminals ▸ htrim)
        (hterminals ▸ halone)
      refine Ends.bind (commit_routed hd { d.stock with magic := d.stock.magic.erase chosen }
        (fun n hn => (SortedSet.mem_erase.1 hn).1) (hterminals ▸ hspliced) hserves ?_ hshaped ?_)
        fun _ h => h
      · rw [hserves.turning_iff, hp, hk]
        simp
      · exact readyOn_of_magicResource rfl hkind hready

/-! ## Zero states -/

/-- Committing a π/4 rotation whose tree reaches both nodes of a zero state. -/
theorem commit_routed_zeroState (hd : d.Sound b₁) (hk : r.kind = .pi4) {t : Tree} {id : Nat}
    (stock : Stock) (hstock : ∀ n ∈ stock.magic, n ∈ d.stock.magic)
    (ht : Spliced d.working.graph r.activeNodes.toList t)
    (hzero : ∀ basis, t.contains (.zero id basis) = true)
    (hends : ∀ m, t.contains m = true → t.degree m ≤ 1 →
      m ∈ r.activeNodes.toList ++ [.zero id .X, .zero id .Z])
    (hisTree : (∀ basis, t.degree (.zero id basis) ≤ 1) → t.shape.IsTree) :
    Ends (commit d.board d.factories ⟨r, t, some (.zeroState id)⟩ 0) (fun _ => False) fun s =>
      Routed r d (.packed ⟨r, t, some (.zeroState id)⟩)
        { d with board := s.1, factories := s.2, stock := stock } := by
  set p : Packed := ⟨r, t, some (.zeroState id)⟩ with hp
  have hserves : p.Serves := by
    unfold Serves
    rw [hp, hk]
    exact ⟨ht.spans, id, rfl, hzero .X, hzero .Z⟩
  refine commit_routed hd stock hstock ht hserves ?_
    (shaped_zeroState hk ht.terminals hzero hends hisTree) ?_
  · rw [hserves.turning_iff, hp, hk]
    simp
  · exact ⟨ticksOf_zero_of_hasNode hd (ht.within.node _ (hzero .X)),
      ticksOf_zero_of_hasNode hd (ht.within.node _ (hzero .Z))⟩

/-- Giving a π/4 rotation a zero state, when trees with the anchor can be spliced. -/
theorem packZeroState_ends (hd : d.Sound b₁) (hk : r.kind = .pi4)
    (hterminals : terminals = r.activeNodes.toList) (hanchor : anchor.kind = .patch .qubit)
    (hsub : sub.graph.WellFormed)
    (hsplice : ∀ id (zero : Tree), Board.ZeroStateTree sub.graph anchor id zero →
      (Spliced d.working.graph terminals (spliceZeroState d.working.graph qubits anchor zero) ∧
        ∀ n, n ≠ anchor → zero.contains n = true →
          (spliceZeroState d.working.graph qubits anchor zero).contains n = true) ∧
      (spliceZeroState d.working.graph qubits anchor zero).Trim
        (terminals ++ [.zero id .X, .zero id .Z])) :
    Ends (packZeroState r qubits anchor sub d) (fun _ => False) fun s => Routed r d s.1 s.2 := by
  unfold packZeroState
  dsimp only
  split
  · exact Routed.unpacked hd.packer (by simp)
  · refine Ends.bind (Board.closestZeroStateFrom_ends
      (by rw [hanchor]; simp) (fun _ h => h) none hsub (Same.refl _) (by simp)) ?_
    rintro ⟨found, b'⟩ hfound
    cases found with
    | none => exact Routed.unpacked hd.packer (by simp)
    | some found =>
      obtain ⟨chosen, zero⟩ := found
      obtain ⟨-, hfound⟩ := hfound chosen zero rfl
      obtain ⟨⟨hspliced, hkeeps⟩, htrim⟩ := hsplice chosen zero hfound
      have hzero : ∀ basis, (spliceZeroState d.working.graph qubits anchor zero).contains
          (.zero chosen basis) = true := by
        intro basis
        refine hkeeps _ ?_ (hfound.contains _ (by cases basis <;> simp [Board.zeroTerminals]))
        rintro rfl
        cases hanchor
      subst hterminals
      exact Ends.bind (commit_routed_zeroState hd hk
        { d.stock with zero := d.stock.zero.filter fun id => decide (id ≠ chosen) }
        (fun _ hn => hn) hspliced hzero htrim.ends fun _ => htrim.isTree) fun _ h => h

/-- A bus tile beside a zero state is joined to the boundary of it. -/
theorem zeroStateBeside_spec {b : Board} {t : Tree} {candidates : List Nat} {place id : Nat}
    {x z : Node} (hb : b.graph.WellFormed)
    (h : zeroStateBeside b t candidates = some (place, id, x, z)) :
    t.contains x = true ∧ t.contains z = true ∧ b.graph.Adj x (.zero id .X) ∧
      b.graph.Adj z (.zero id .Z) := by
  unfold zeroStateBeside at h
  dsimp only at h
  obtain ⟨⟨id', place'⟩, -, h⟩ := List.exists_of_findSome?_eq_some h
  obtain ⟨⟨xBuses, zBuses⟩, hbuses, h⟩ := Option.bind_eq_some_iff.1 h
  obtain ⟨x', hx, h⟩ := List.exists_of_findSome?_eq_some h
  obtain ⟨z', hz, heq⟩ := Option.map_eq_some_iff.1 h
  cases heq
  have hentry := SortedMap.mem_of_get?_ofList hbuses
  obtain ⟨id'', -, heq⟩ := List.mem_map.1 hentry
  cases heq
  obtain ⟨hx, hxt⟩ := List.mem_filter.1 hx
  have hzt : t.contains z = true := by
    have := List.find?_some hz
    simp only [Bool.and_eq_true] at this
    exact this.2
  have hneighbor : ∀ n m, m ∈ (b.busNeighbors n).toList → b.graph.Adj m n := by
    intro n m hm
    have hm' : m ∈ b.busNeighbors n := hm
    unfold Board.busNeighbors at hm'
    rw [SortedSet.mem_ofList] at hm'
    exact ((hb.mem_neighbors n m).1 (List.mem_of_mem_filter hm')).symm
  exact ⟨hxt, hzt, hneighbor _ _ hx, hneighbor _ _ (List.mem_of_find?_eq_some hz)⟩

/-- Completing a π/4 rotation by a zero state beside its tree. -/
theorem packBesideZeroState_ends (hd : d.Sound b₁) (hk : r.kind = .pi4) {t : Tree}
    (ht : Spliced d.working.graph r.activeNodes.toList t) (htrim : t.Trim r.activeNodes.toList) :
    Ends (packBesideZeroState r t d) (fun _ => False) fun s =>
      ∀ p d', s = some (p, d') → Routed r d (.packed p) d' := by
  unfold packBesideZeroState
  split
  · simp [Ends]
  · next place id x z hbeside =>
    obtain ⟨hx, hz, hxAdj, hzAdj⟩ := zeroStateBeside_spec hd.wellFormed hbeside
    dsimp only
    set t₁ := t.addEdge x (.zero id .X) ((d.working.graph.weight? x (.zero id .X)).getD busWeight)
    have h₁ : Spliced d.working.graph r.activeNodes.toList t₁ :=
      ht.addEdge hd.wellFormed hx hxAdj (by simp [Node.kind]) _
    have hz₁ : t₁.contains z = true :=
      (Tree.contains_addEdge ht.sound.wellFormed).2 (Or.inr (Or.inr hz))
    set t₂ := t₁.addEdge z (.zero id .Z) ((d.working.graph.weight? z (.zero id .Z)).getD busWeight)
    have h₂ : Spliced d.working.graph r.activeNodes.toList t₂ :=
      h₁.addEdge hd.wellFormed hz₁ hzAdj (by simp [Node.kind]) _
    have hzero : ∀ basis, t₂.contains (.zero id basis) = true := by
      intro basis
      refine (contains_beside htrim hx hz).2 (Or.inr ?_)
      cases basis <;> simp
    have hterminals : ∀ basis, Node.zero id basis ∉ r.activeNodes.toList := by
      intro basis hmem
      have hkind := Rotation.kind_of_mem_activeNodes (SortedSet.mem_def.2 hmem)
      cases hkind
    refine Ends.bind (commit_routed_zeroState hd hk
      { d.stock with zero := d.stock.zero.eraseIdx place } (fun _ hn => hn) h₂ hzero
      (fun _ hn hdegree => ends_beside htrim hx hz hn hdegree)
      fun hdegree => isTree_beside htrim hx hz hterminals h₂.sound hdegree) ?_
    rintro ⟨b', f'⟩ hrouted q d' heq
    cases heq
    exact hrouted

/-! ## Routing -/

/-- Connecting the boundaries of a rotation changes nothing but the caches. -/
theorem connectQubits_ends (hd : d.Sound b₁) (hnodup : terminals.Nodup) (hne : terminals ≠ []) :
    Ends (connectQubits r terminals d) (fun _ => False) fun s =>
      ∃ packer : Packer, s.2 = { d with packer := packer } ∧ packer.Sound ∧
        d.packer.SameButCaches packer ∧
        ∀ t, s.1 = some t → Joins t terminals ∧ t.shape.Within d.working.graph := by
  unfold connectQubits
  split
  · next t ht =>
    refine ⟨d.packer, rfl, hd.packer, SameButCaches.refl _, fun t' ht' => ?_⟩
    cases ht'
    exact hd.packer.trees.find? ht
  · have hsub := Board.wellFormed_restrictTo hd.wellFormed terminals r.kind
    have hown := onlyOwn_restrictTo d.working terminals r.kind
    have hwithin := Board.restrictTo_within hd.wellFormed terminals r.kind
    refine Ends.bind (Board.connect_ends _ hsub hnodup hne fun c hc => ?_) ?_
    · cases hc
      exact hd.packer.paths
    · rintro c hc
      have hpaths : (c.cache.getD d.packer.paths).Sound := by
        cases hcache : c.cache with
        | none => exact hd.packer.paths
        | some paths => exact hc.cache paths hcache
      dsimp only
      split
      · exact ⟨_, rfl, ⟨hpaths, hd.packer.trees⟩, ⟨⟨rfl, rfl, rfl⟩, rfl⟩, by simp⟩
      · next t ht =>
        obtain ⟨htree, hends⟩ := Option.filter_eq_some_iff.1 ht
        obtain ⟨-, hin, hcontains⟩ := hc.tree t htree
        have hjoins : Joins t terminals := by
          refine ⟨hcontains, fun n hn => hown n (hin.node n hn), hc.trim t htree, fun n hn => ?_⟩
          exact of_decide_eq_true (List.all_eq_true.1 hends n hn)
        refine ⟨_, rfl, ⟨hpaths, hd.packer.trees.insert hjoins⟩, ⟨⟨rfl, rfl, rfl⟩, rfl⟩, ?_⟩
        intro t' ht'
        cases ht'
        exact ⟨hjoins, hin.trans hwithin⟩

/-- Giving a rotation its resource state never fails. The tree of the boundaries is missing only
when the anchor is the single one. -/
theorem packResource_ends (hd : d.Sound b₁) (hterminals : terminals = r.activeNodes.toList)
    (hanchor : anchor.kind = .patch .qubit) (hnone : qubits = none → terminals = [anchor])
    (hsome : ∀ t, qubits = some t → (Joins t terminals ∧ t.shape.Within d.working.graph) ∧
      t.contains anchor = true ∧ terminals.length ≠ 1) :
    Ends (packResource r terminals qubits anchor d) (fun _ => False) fun s =>
      Routed r d s.1 s.2 := by
  have hwell := Board.wellFormed_restrictTo hd.wellFormed terminals r.kind
  have hwithin := Board.restrictTo_within hd.wellFormed terminals r.kind
  have hown := onlyOwn_restrictTo d.working terminals r.kind
  unfold packResource
  dsimp only
  cases qubits with
  | none =>
    rw [hnone rfl] at hterminals hwell hwithin hown ⊢
    refine Ends.bind (show Ends (.ok (d.working.restrictTo [anchor] r.kind)) _
      (· = d.working.restrictTo [anchor] r.kind) from rfl) ?_
    rintro sub rfl
    split
    · next hk =>
      refine packMagicState_ends hd hk hterminals hanchor fun start path hp hinner hne hnodup => ?_
      obtain ⟨htrim, hends⟩ := trim_spliceMagicState_alone (g := d.working.graph) hp hne hnodup
      exact ⟨spliceMagicState_alone hd.wellFormed hwell hwithin hown hp hne, htrim, fun _ => hends⟩
    · next hk =>
      refine packZeroState_ends hd hk hterminals hanchor hwell fun id zero hzero => ?_
      refine ⟨⟨⟨hzero.sound, hzero.within.trans hwithin, fun n hn => ?_,
        fun n hn => hown n (hzero.within.node n hn)⟩, fun n _ hn => hn⟩, hzero.trim⟩
      rw [List.mem_singleton.1 hn]
      exact hzero.contains anchor (by simp [Board.zeroTerminals])
    · exact Routed.unpacked hd.packer (by simp)
    · exact Routed.unpacked hd.packer (by simp)
  | some t =>
    obtain ⟨⟨hjoins, hin⟩, hcontains, hseveral⟩ := hsome t rfl
    have hspliced := hjoins.spliced hin
    refine Ends.bind (Board.contract_ends hwell hcontains) ?_
    rintro sub hsub
    split
    · next hk =>
      refine packMagicState_ends hd hk hterminals hanchor fun start path hp hinner hne hnodup => ?_
      exact ⟨spliceMagicState_joined hd.wellFormed hspliced hwithin hown hsub hp hinner hne,
        trim_spliceMagicState_joined hd.wellFormed hjoins.trim hwithin hsub hp hinner hne hnodup,
        fun halone => absurd halone hseveral⟩
    · next hk =>
      refine packZeroState_ends hd hk hterminals hanchor hsub.wellFormed
        fun id zero hzero => ?_
      have hzeroAnchor := hzero.contains anchor (by simp [Board.zeroTerminals])
      exact ⟨spliceZeroState_joined hd.wellFormed hspliced hcontains hwithin hown hsub hzero.sound
          hzero.within hzeroAnchor,
        trim_spliceZeroState_joined hd.wellFormed hspliced hjoins.trim hcontains hwithin hown hsub
          hzero.within hzeroAnchor hzero.trim⟩
    · exact Routed.unpacked hd.packer (by simp)
    · exact Routed.unpacked hd.packer (by simp)

/-- A measurement that is routed needs nothing but the tree of its boundaries. -/
theorem routed_measurement (hd : d.packer.Sound) (hb : d.board.Sound) (hk : r.kind = .measurement)
    {t : Tree} (ht : Spliced d.working.graph r.activeNodes.toList t)
    (hshaped : Packed.Shaped ⟨r, t, none⟩) : Routed r d (.packed ⟨r, t, none⟩) d := by
  have hserves : Packed.Serves ⟨r, t, none⟩ := by
    unfold Serves
    rw [hk]
    exact ⟨ht.spans, rfl⟩
  have hturning : ¬ Packed.Turning ⟨r, t, none⟩ := by
    rw [hserves.turning_iff]
    simp [hk]
  exact ⟨rfl, hd, SameButCaches.refl _, fun _ hn => hn, Factories.SameSetup.refl _,
    Or.inr ⟨_, rfl, rfl, ht, hserves, hturning, hshaped, trivial, Board.Occupies.refl hb, fun _ _ => rfl,
      fun _ _ _ => rfl, fun hturn => absurd hturn hturning⟩⟩

/-- What happens to a rotation after only the caches changed. -/
theorem Routed.of_packer {packer : Packer} {outcome : Outcome}
    (hconfig : d.packer.SameButCaches packer)
    (h : Routed r { d with packer := packer } outcome d') : Routed r d outcome d' :=
  { h with config := hconfig.trans h.config }

theorem Desk.Sound.with_packer (hd : d.Sound b₁) {packer : Packer} (hpacker : packer.Sound) :
    Desk.Sound b₁ { d with packer := packer } :=
  { hd with packer := hpacker }

/-- A boundary with a step is a node of the working copy. -/
theorem spliced_single {g : Graph Node} (hg : g.WellFormed) (hdegree : g.degree anchor ≠ 0) :
    Spliced g [anchor] (Tree.single anchor) := by
  obtain ⟨m, hm⟩ := List.exists_mem_of_length_pos (Nat.pos_of_ne_zero hdegree)
  have hnode : g.hasNode anchor = true := hg.hasNode_left ((hg.mem_neighbors _ _).1 hm)
  have hcontains : ∀ n, (Tree.single anchor).contains n = true ↔ n ∈ [anchor] := fun n =>
    Tree.contains_single.trans List.mem_singleton.symm
  refine ⟨Tree.sound_single _, ⟨fun n hn => ?_, fun _ _ h => absurd h Tree.not_adj_single⟩,
    fun n hn => (hcontains n).2 hn, fun n hn _ => (hcontains n).1 hn⟩
  rw [Tree.contains_single.1 hn]
  exact hnode

/-- Routing a rotation never fails. -/
theorem packRotation_ends (hd : d.Sound b₁) (r : Rotation) :
    Ends (packRotation r d) (fun _ => False) fun s => Routed r d s.1 s.2 := by
  unfold packRotation
  dsimp only
  split
  · exact Routed.unpacked hd.packer (by simp)
  · next anchor others hnodes =>
    have hmem : anchor ∈ r.activeNodes := by
      rw [SortedSet.mem_def, hnodes]
      exact List.mem_cons_self
    have hanchor := Rotation.kind_of_mem_activeNodes hmem
    split
    · exact Routed.unpacked hd.packer (by simp)
    · next hdegree =>
      split
      · next hothers =>
        obtain rfl := List.isEmpty_iff.1 hothers
        split
        · next hk =>
          have hsteps : d.working.graph.degree anchor ≠ 0 := fun hzero =>
            hdegree (List.any_eq_true.2 ⟨anchor, hmem, decide_eq_true hzero⟩)
          refine routed_measurement hd.packer hd.occupies.sound hk ?_ (shaped_single hnodes)
          rw [hnodes]
          exact spliced_single hd.wellFormed hsteps
        · exact packResource_ends hd rfl hanchor (fun _ => hnodes) (by simp)
      · next hothers =>
        refine Ends.bind (connectQubits_ends hd r.activeNodes.nodup (by rw [hnodes]; simp)) ?_
        rintro ⟨found, -⟩ ⟨packer, rfl, hpacker, hconfig, hfound⟩
        have hd' := Desk.Sound.with_packer hd hpacker
        cases found with
        | none => exact (Routed.unpacked hpacker (by simp)).of_packer hconfig
        | some t =>
          obtain ⟨hjoins, hin⟩ := hfound t rfl
          have ht := hjoins.spliced hin
          have hseveral : r.activeNodes.toList.length ≠ 1 := by
            rw [hnodes, List.length_cons]
            exact fun hone => hothers (List.isEmpty_iff.2 (List.length_eq_zero_iff.1 (by omega)))
          have hresource : Ends (packResource r r.activeNodes.toList (some t) anchor
              { d with packer := packer }) (fun _ => False) fun s => Routed r d s.1 s.2 := by
            refine (packResource_ends hd' rfl hanchor (by simp) fun t' ht' => ?_).mono
              (fun _ h => h) fun _ h => h.of_packer hconfig
            cases ht'
            exact ⟨⟨hjoins, hin⟩, hjoins.contains anchor hmem, hseveral⟩
          dsimp only
          split
          · next hk =>
            have hrouted := routed_measurement hpacker hd'.occupies.sound hk ht
              (shaped_measurement hjoins.contains hjoins.trim hjoins.ends)
            exact hrouted.of_packer hconfig
          · split
            · next hk =>
              refine Ends.bind (packBesideZeroState_ends hd' hk ht hjoins.trim) ?_
              rintro beside hbeside
              cases beside with
              | none => exact hresource
              | some s => exact (hbeside s.1 s.2 rfl).of_packer hconfig
            · exact hresource

/-! ## Settling -/

/-- The desks differ in the free nodes and the counts of failures at most. -/
structure SameBut (d d' : Desk) : Prop where
  board : d'.board = d.board
  factories : d'.factories = d.factories
  stock : d'.stock = d.stock
  trees : d'.packer.trees = d.packer.trees
  config : d.packer.SameConfig d'.packer

theorem same_enter (outcome : Outcome) (fails : FailCounts) (d : Desk) :
    SameBut d (d.enter outcome fails) :=
  ⟨rfl, rfl, rfl, rfl, rfl, rfl, rfl⟩

end Packer

end LatticeSurgery
