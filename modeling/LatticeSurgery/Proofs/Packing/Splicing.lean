import LatticeSurgery.Packing.Packer
import LatticeSurgery.Proofs.Board.Contract
import LatticeSurgery.Proofs.Board.Routing
import LatticeSurgery.Proofs.Tree.Assembly

/-!
# Splicing trees

The way from the tree of the boundaries to a resource state is found on a board on which that tree
is one node. Splicing replaces the last step of the way by a step to a node of the tree. Since a
step to the contracted node stands for such a step (`Board.Contracts.enter`), there is always one,
and the spliced tree is sound, lies in the graph of the working copy and contains both the tree of
the boundaries and the resource, but no other boundaries.
-/

namespace LatticeSurgery

open Ordered Relation LatticeSurgery.Graph

/-- A node that is joined to a node of a tree has a step into it. -/
theorem Graph.exists_bridge {g : Graph Node} {n m : Node} {t : Tree} (hg : g.WellFormed)
    (hm : t.contains m = true) (hnm : g.Adj n m) :
    ∃ m' w, g.bridge? n t = some (n, m', w) ∧ t.contains m' = true ∧ g.Adj n m' := by
  unfold bridge?
  have hmem : m ∈ g.neighbors n := (hg.mem_neighbors n m).2 hnm
  cases hfind : (g.neighbors n).find? t.contains with
  | none => exact absurd hm (List.find?_eq_none.1 hfind m hmem)
  | some m' =>
    refine ⟨m', _, rfl, List.find?_some hfind, ?_⟩
    exact (hg.mem_neighbors n m').1 (List.mem_of_find?_eq_some hfind)

/-- A step into a tree that is found leads from the node to a node of the tree. -/
theorem Graph.bridge?_spec {g : Graph Node} {n : Node} {t : Tree} {e : Node × Node × Nat}
    (hg : g.WellFormed) (h : g.bridge? n t = some e) :
    e.1 = n ∧ t.contains e.2.1 = true ∧ g.Adj n e.2.1 := by
  obtain ⟨m, hm, rfl⟩ := Option.map_eq_some_iff.1 h
  exact ⟨rfl, List.find?_some hm, (hg.mem_neighbors n m).1 (List.mem_of_find?_eq_some hm)⟩

namespace Packer

variable {g h : Graph Node} {t : Tree} {anchor start : Node} {path : List Node}

/-- The boundaries of data patches in a graph are among the given nodes. -/
def OnlyOwn (g : Graph Node) (terminals : List Node) : Prop :=
  ∀ n, g.hasNode n = true → n.kind = .patch .qubit → n ∈ terminals

/-- A spliced tree: sound, in the graph, and with the nodes of the tree of the boundaries. -/
structure Spliced (g : Graph Node) (ends : List Node) (t : Tree) : Prop where
  sound : t.Sound
  within : t.shape.Within g
  terminals : ∀ n ∈ ends, t.contains n = true
  own : OnlyOwn t.shape ends

/-- An edge from a node of a spliced tree to a node that is no boundary of a data patch. -/
theorem Spliced.addEdge {ends : List Node} {a b : Node} (ht : Spliced g ends t)
    (hg : g.WellFormed) (ha : t.contains a = true) (hab : g.Adj a b)
    (hb : b.kind ≠ .patch .qubit) (w : Nat) : Spliced g ends (t.addEdge a b w) := by
  refine ⟨ht.sound.addEdge w (Or.inl ha), ht.within.addEdge ht.sound.wellFormed hg hab w,
    fun n hn => ?_, fun n hn hkind => ?_⟩
  · exact (Tree.contains_addEdge ht.sound.wellFormed).2 (Or.inr (Or.inr (ht.terminals n hn)))
  · rcases (Tree.contains_addEdge ht.sound.wellFormed).1 hn with rfl | rfl | hn
    · exact ht.own _ ha hkind
    · exact absurd hkind hb
    · exact ht.own n hn hkind

/-- A path that avoids the anchor up to its end splits into the part outside and the anchor. -/
theorem IsPath.exists_outside (hp : h.IsPath start anchor path) (hne : start ≠ anchor) :
    ∃ outside last, path = outside ++ [last] ++ [anchor] ∧
      (outside ++ [last]).head? = some start ∧ (outside ++ [last]).IsChain h.Adj ∧
        h.Adj last anchor := by
  obtain ⟨front, rfl⟩ := List.getLast?_eq_some_iff.1 hp.last
  have hfront : front ≠ [] := by
    rintro rfl
    exact hne (Option.some.inj hp.head).symm
  obtain ⟨outside, last, rfl⟩ := List.eq_nil_or_concat front |>.resolve_left hfront
  rw [List.concat_eq_append] at *
  refine ⟨outside, last, rfl, ?_, (List.isChain_append.1 hp.chain).1, ?_⟩
  · have hhead := hp.head
    rwa [List.head?_append_of_ne_nil _ (by simp)] at hhead
  · exact (List.isChain_append.1 hp.chain).2.2 last (by simp) anchor (by simp)

/-- Without a tree of the boundaries, the path from the magic state is the tree. -/
theorem spliceMagicState_alone {k : Graph Node} (hg : g.WellFormed) (hwell : k.WellFormed)
    (hk : k.Within g) (hown : OnlyOwn k [anchor]) (hp : k.IsPath start anchor path)
    (hne : start ≠ anchor) : Spliced g [anchor] (spliceMagicState g none path) ∧
      (spliceMagicState g none path).contains start = true := by
  obtain ⟨⟨n, rest, rfl⟩, -⟩ := hp.exists_inner hne
  have hcontains : ∀ m, (spliceMagicState g none (start :: n :: rest)).contains m = true ↔
      m ∈ start :: n :: rest := fun m => by
    refine (Tree.contains_addPath Tree.sound_empty.wellFormed).trans ?_
    rw [Tree.not_contains_empty]
    simp
  refine ⟨⟨Tree.sound_addPath_empty, ?_, fun m hm => ?_, fun m hm => hown m ?_⟩,
    (hcontains start).2 List.mem_cons_self⟩
  · exact Tree.addPath_within Tree.sound_empty.wellFormed hg (within_empty g)
      (hp.mono hk.edge).chain
  · rw [List.mem_singleton.1 hm]
    exact (hcontains _).2 (List.mem_of_mem_getLast? hp.last)
  · exact hasNode_of_mem_chain hwell hp.chain ((hcontains m).1 hm)

/-- A tree with a path beside it, joined to a node of the tree by a step from its last node. -/
def joinPath (g : Graph Node) (t : Tree) (outside : List Node) (last m : Node) (w : Nat) : Tree :=
  (Tree.addPath g t (outside ++ [last])).addEdge last m w

section JoinPath

variable {outside : List Node} {last m n : Node} {w : Nat}

theorem wellFormed_joinPath (ht : t.shape.WellFormed) :
    (joinPath g t outside last m w).shape.WellFormed :=
  Tree.wellFormed_addEdge (Tree.wellFormed_addPath ht)

theorem adj_joinPath_of_adj {a b : Node} (h : t.shape.Adj a b) :
    (joinPath g t outside last m w).shape.Adj a b :=
  adj_addEdge.2 (Or.inr (Or.inr (Tree.adj_addPath_of_adj h)))

/-- The path and the step follow edges. -/
theorem isChain_joinPath :
    (outside ++ [last] ++ [m]).IsChain (joinPath g t outside last m w).shape.Adj := by
  have hpath : (outside ++ [last]).IsChain (joinPath g t outside last m w).shape.Adj :=
    Tree.isChain_addPath.imp fun a b hab => adj_addEdge.2 (Or.inr (Or.inr hab))
  refine List.isChain_append.2 ⟨hpath, List.isChain_singleton m, fun a ha b hb => ?_⟩
  rw [List.getLast?_concat, Option.mem_some] at ha
  rw [List.head?_cons, Option.mem_some] at hb
  obtain ⟨rfl, rfl⟩ := And.intro ha hb
  exact adj_addEdge.2 (Or.inl ⟨rfl, rfl⟩)

variable (ht : t.Sound) (hm : t.contains m = true)

include ht hm

theorem contains_joinPath : (joinPath g t outside last m w).contains n = true ↔
    t.contains n = true ∨ n ∈ outside ++ [last] := by
  have hpath : (Tree.addPath g t (outside ++ [last])).shape.WellFormed :=
    Tree.wellFormed_addPath ht.wellFormed
  constructor
  · intro hn
    rcases (Tree.contains_addEdge hpath).1 hn with rfl | rfl | hn
    · exact Or.inr (by simp)
    · exact Or.inl hm
    · exact Tree.contains_or_mem_of_addPath ht.wellFormed hn
  · rintro (hn | hn)
    · refine (Tree.contains_addEdge hpath).2 (Or.inr (Or.inr ?_))
      exact Tree.contains_addPath_of_contains ht.wellFormed hn
    · -- the path and the step are two nodes at least
      obtain ⟨a, rest, hcons⟩ := List.exists_cons_of_ne_nil (List.ne_nil_of_mem hn)
      obtain ⟨b, rest', hrest⟩ := List.exists_cons_of_ne_nil (List.append_ne_nil_of_right_ne_nil rest
        (List.cons_ne_nil m []))
      have heq : outside ++ [last] ++ [m] = a :: b :: rest' := by rw [hcons, List.cons_append, hrest]
      exact hasNode_of_mem_chain (wellFormed_joinPath ht.wellFormed) (heq ▸ isChain_joinPath)
        (heq ▸ List.mem_append_left _ hn)

theorem sound_joinPath : (joinPath g t outside last m w).Sound := by
  refine ⟨wellFormed_joinPath ht.wellFormed, connected_of_center m fun n hn => ?_⟩
  rcases (contains_joinPath ht hm).1 hn with hn | hn
  · exact Linked.mono (fun a b hab => adj_joinPath_of_adj hab) (ht.connected m n hm hn)
  · exact linked_of_mem_chain isChain_joinPath (by simp) (List.mem_append_left _ hn)

end JoinPath

/-- With a tree of the boundaries, the path outside the tree and a step into it are added. -/
theorem exists_join {k : Graph Node} (hg : g.WellFormed) (hk : k.Within g)
    (hcontracts : Board.Contracts k t anchor h) (hp : h.IsPath start anchor path)
    (hinner : anchor ∉ path.dropLast) (hne : start ≠ anchor) :
    ∃ outside last m w, path = outside ++ [last] ++ [anchor] ∧
      spliceMagicState g (some t) path = joinPath g t outside last m w ∧
      t.contains m = true ∧ g.Adj last m ∧ (outside ++ [last]).head? = some start ∧
      (outside ++ [last]).IsChain g.Adj ∧
      ∀ n ∈ outside ++ [last], k.hasNode n = true ∧ t.contains n = false := by
  obtain ⟨outside, last, rfl, hhead, hchain, hlast⟩ := IsPath.exists_outside hp hne
  rw [List.dropLast_concat] at hinner
  obtain ⟨-, m, hm, hadj⟩ := hcontracts.enter last hlast
  obtain ⟨m', w, hbridge, hm', hadj'⟩ := exists_bridge hg hm (hk.edge _ _ hadj)
  refine ⟨outside, last, m', w, rfl, ?_, hm', hadj', hhead, ?_, fun n hn => ?_⟩
  · unfold spliceMagicState
    dsimp only
    rw [List.dropLast_concat, List.getLast?_concat, Option.bind_some, hbridge]
    rfl
  · refine hchain.imp_of_mem_imp fun a b ha hb hab => hk.edge a b ?_
    exact hcontracts.edge a b hab (fun heq => hinner (heq ▸ ha)) fun heq => hinner (heq ▸ hb)
  · have hnode : h.hasNode n = true := by
      obtain ⟨⟨n', rest, heq⟩, -⟩ := hp.exists_inner hne
      have hmem := List.mem_append_left [anchor] hn
      rw [heq] at hmem
      exact hasNode_of_mem_chain hcontracts.wellFormed (heq ▸ hp.chain) hmem
    exact hcontracts.node n hnode fun heq => hinner (heq ▸ hn)

theorem spliceMagicState_joined {k : Graph Node} {terminals : List Node} (hg : g.WellFormed)
    (ht : Spliced g terminals t) (hk : k.Within g) (hown : OnlyOwn k terminals)
    (hcontracts : Board.Contracts k t anchor h)
    (hp : h.IsPath start anchor path) (hinner : anchor ∉ path.dropLast) (hne : start ≠ anchor) :
    Spliced g terminals (spliceMagicState g (some t) path) ∧
      (spliceMagicState g (some t) path).contains start = true := by
  obtain ⟨outside, last, m, w, rfl, hsplice, hm, hadj, hhead, hchain, houtside⟩ :=
    exists_join hg hk hcontracts hp hinner hne
  have hcontains : ∀ n, (joinPath g t outside last m w).contains n = true ↔
      t.contains n = true ∨ n ∈ outside ++ [last] := fun n => contains_joinPath ht.sound hm
  rw [hsplice]
  refine ⟨⟨sound_joinPath ht.sound hm, ?_, fun n hn => (hcontains n).2 (Or.inl (ht.terminals n hn)),
    fun n hn hkind => ?_⟩, (hcontains start).2 (Or.inr (List.mem_of_mem_head? hhead))⟩
  · exact (Tree.addPath_within ht.sound.wellFormed hg ht.within hchain).addEdge
      (Tree.wellFormed_addPath ht.sound.wellFormed) hg hadj w
  · rcases (hcontains n).1 hn with hn | hn
    · exact ht.own n hn hkind
    · exact hown n (houtside n hn).1 hkind

/-! ## Zero states -/

/-- The steps from the neighbours of the anchor in a tree into the tree of the boundaries. -/
def bridgesOf (g : Graph Node) (t zero : Tree) (anchor : Node) : List (Node × Node × Nat) :=
  (zero.neighbors anchor).filterMap fun n => g.bridge? n t

section ZeroState

variable {k : Graph Node} {terminals : List Node} {zero : Tree} {n m : Node}
  {e : Node × Node × Nat}

theorem shape_spliceZeroState (g : Graph Node) (t zero : Tree) (anchor : Node) :
    (spliceZeroState g (some t) anchor zero).shape =
      (bridgesOf g t zero anchor).foldl (fun g e => g.addEdge e.1 e.2.1 e.2.2)
        (t.merge (zero.removeNode anchor)).shape :=
  Tree.shape_foldl_addEdge (fun e : Node × Node × Nat => e.1) (fun e => e.2.1) (fun e => e.2.2) _

theorem adj_spliceZeroState (hzero : zero.Sound) :
    (spliceZeroState g (some t) anchor zero).shape.Adj n m ↔
      (t.shape.Adj n m ∨ (zero.shape.removeNode anchor).Adj n m) ∨
        ∃ e ∈ bridgesOf g t zero anchor, (n = e.1 ∧ m = e.2.1) ∨ (n = e.2.1 ∧ m = e.1) := by
  have hpart : (zero.removeNode anchor).shape.WellFormed := hzero.wellFormed.removeNode anchor
  rw [shape_spliceZeroState, adj_foldl_addEdge, Tree.adj_merge hpart]
  rfl

/-- A step leads from a neighbour of the anchor to a node of the tree of the boundaries. -/
theorem bridgesOf_spec (hg : g.WellFormed) (hzero : zero.Sound)
    (he : e ∈ bridgesOf g t zero anchor) :
    zero.shape.Adj e.1 anchor ∧ t.contains e.2.1 = true ∧ g.Adj e.1 e.2.1 := by
  obtain ⟨n, hn, he⟩ := List.mem_filterMap.1 he
  obtain ⟨rfl, hm, hadj⟩ := bridge?_spec hg he
  exact ⟨((hzero.wellFormed.mem_neighbors _ _).1 hn).symm, hm, hadj⟩

variable (hg : g.WellFormed) (ht : t.Sound) (hanchor : t.contains anchor = true)
  (hk : k.Within g) (hcontracts : Board.Contracts k t anchor h) (hzero : zero.Sound)
  (hwithin : zero.shape.Within h)

include hg ht hanchor hcontracts hzero hwithin

theorem contains_spliceZeroState :
    (spliceZeroState g (some t) anchor zero).contains n = true ↔
      t.contains n = true ∨ (zero.contains n = true ∧ n ≠ anchor) := by
  have hneAnchor : ∀ n, zero.shape.Adj n anchor → n ≠ anchor := by
    rintro n hn rfl
    rw [(hcontracts.enter n (hwithin.edge _ _ hn)).1] at hanchor
    cases hanchor
  have hpart : (zero.removeNode anchor).shape.WellFormed := hzero.wellFormed.removeNode anchor
  have hnodes : (spliceZeroState g (some t) anchor zero).contains n = true ↔
      (t.contains n = true ∨ (zero.contains n = true ∧ n ≠ anchor)) ∨
        ∃ e ∈ bridgesOf g t zero anchor, n = e.1 ∨ n = e.2.1 := by
    rw [Tree.contains, shape_spliceZeroState,
      hasNode_foldl_addEdge _ _ _ _ (Tree.wellFormed_merge ht.wellFormed)]
    refine or_congr_left ((Tree.contains_merge ht.wellFormed hpart).trans ?_)
    exact or_congr_right hasNode_removeNode
  rw [hnodes]
  refine ⟨?_, Or.inl⟩
  rintro (hn | ⟨e, he, rfl | rfl⟩)
  · exact hn
  · obtain ⟨hadj, -, -⟩ := bridgesOf_spec hg hzero he
    exact Or.inr ⟨hzero.wellFormed.hasNode_left hadj, hneAnchor _ hadj⟩
  · exact Or.inl (bridgesOf_spec hg hzero he).2.1

include hk

/-- Without the anchor, the tree to the zero state falls into parts. Each of them has a neighbour of
the anchor, from which a step leads into the tree of the boundaries. -/
theorem linked_spliceZeroState (hzeroAnchor : zero.contains anchor = true)
    (hn : (spliceZeroState g (some t) anchor zero).contains n = true) :
    (spliceZeroState g (some t) anchor zero).shape.Linked anchor n := by
  have hinTree : ∀ m, t.contains m = true →
      (spliceZeroState g (some t) anchor zero).shape.Linked anchor m := fun m hm =>
    Linked.mono (fun a b hab => (adj_spliceZeroState hzero).2 (Or.inl (Or.inl hab)))
      (ht.connected anchor m hanchor hm)
  rcases (contains_spliceZeroState hg ht hanchor hcontracts hzero hwithin).1 hn with
    hn | ⟨hn, hne⟩
  · exact hinTree n hn
  · obtain ⟨x, hx, -, hlink⟩ := Linked.before_node hzero.wellFormed
      (hzero.connected n anchor hn hzeroAnchor) hne
    obtain ⟨-, m, hm, hadj⟩ := hcontracts.enter x (hwithin.edge _ _ hx)
    obtain ⟨m', w, hfound, hm', -⟩ := exists_bridge hg hm (hk.edge _ _ hadj)
    have hmem : (x, m', w) ∈ bridgesOf g t zero anchor := List.mem_filterMap.2
      ⟨x, (hzero.wellFormed.mem_neighbors _ _).2 hx.symm, hfound⟩
    have hstep : (spliceZeroState g (some t) anchor zero).shape.Adj m' x :=
      (adj_spliceZeroState hzero).2 (Or.inr ⟨_, hmem, Or.inr ⟨rfl, rfl⟩⟩)
    refine ((hinTree m' hm').tail hstep).trans (Linked.symm ?_)
    exact Linked.mono (fun a b hab => (adj_spliceZeroState hzero).2 (Or.inl (Or.inr hab))) hlink

end ZeroState

/-- With a tree of the boundaries, the tree to a zero state without the anchor is added, with a step
into the tree of the boundaries from each neighbour of the anchor. -/
theorem spliceZeroState_joined {k : Graph Node} {terminals : List Node} {zero : Tree}
    (hg : g.WellFormed) (ht : Spliced g terminals t) (hanchor : t.contains anchor = true)
    (hk : k.Within g) (hown : OnlyOwn k terminals) (hcontracts : Board.Contracts k t anchor h)
    (hzero : zero.Sound) (hwithin : zero.shape.Within h)
    (hzeroAnchor : zero.contains anchor = true) :
    Spliced g terminals (spliceZeroState g (some t) anchor zero) ∧
      ∀ n, n ≠ anchor → zero.contains n = true →
        (spliceZeroState g (some t) anchor zero).contains n = true := by
  have hcontains : ∀ n, (spliceZeroState g (some t) anchor zero).contains n = true ↔
      t.contains n = true ∨ (zero.contains n = true ∧ n ≠ anchor) := fun n =>
    contains_spliceZeroState hg ht.sound hanchor hcontracts hzero hwithin
  refine ⟨⟨⟨?_, connected_of_center anchor fun n hn => ?_⟩,
    ⟨fun n hn => ?_, fun n m hnm => ?_⟩, fun n hn => ?_, fun n hn hkind => ?_⟩, fun n hne hn => ?_⟩
  · rw [shape_spliceZeroState]
    exact (Tree.wellFormed_merge ht.sound.wellFormed).foldl_addEdge _ _ _ _
  · exact linked_spliceZeroState hg ht.sound hanchor hk hcontracts hzero hwithin hzeroAnchor hn
  · rcases (hcontains n).1 hn with hn | ⟨hn, hne⟩
    · exact ht.within.node n hn
    · exact hk.node n (hcontracts.node n (hwithin.node n hn) hne).1
  · rcases (adj_spliceZeroState hzero).1 hnm with (hnm | hnm) | ⟨e, he, ⟨rfl, rfl⟩ | ⟨rfl, rfl⟩⟩
    · exact ht.within.edge n m hnm
    · obtain ⟨hnm, hn, hm⟩ := (adj_removeNode hzero.wellFormed).1 hnm
      exact hk.edge _ _ (hcontracts.edge n m (hwithin.edge _ _ hnm) hn hm)
    · exact (bridgesOf_spec hg hzero he).2.2
    · exact (bridgesOf_spec hg hzero he).2.2.symm
  · exact (hcontains n).2 (Or.inl (ht.terminals n hn))
  · rcases (hcontains n).1 hn with hn | ⟨hn, hne⟩
    · exact ht.own n hn hkind
    · exact hown n (hcontracts.node n (hwithin.node n hn) hne).1 hkind
  · exact (hcontains n).2 (Or.inr ⟨hn, hne⟩)

end Packer

end LatticeSurgery
