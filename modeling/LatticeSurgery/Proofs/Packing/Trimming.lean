import LatticeSurgery.Proofs.Packing.Shape
import LatticeSurgery.Proofs.Packing.Splicing

/-!
# The ends of spliced trees

The tree of the boundaries and the way to the resource are trees without other ends than the nodes
which they join. Splicing adds as many edges as nodes, because the way lies outside of the tree of the
boundaries, and a node inside the way keeps two neighbours at least. So the spliced tree is a tree
without other ends than the boundaries and the resource. A boundary at which the way is joined is not
an end any more.
-/

namespace LatticeSurgery

open Ordered LatticeSurgery.Graph

/-! ## Counting and following paths -/

/-- A node inside a path that meets no node twice has two neighbours. -/
theorem Graph.exists_neighbors_of_mem_chain {α : Type} [Ordered α] {g : Graph α} {p : List α} {a : α}
    (hnodup : p.Nodup) (hp : p.IsChain g.Adj) (ha : a ∈ p) (hhead : p.head? ≠ some a)
    (hlast : p.getLast? ≠ some a) : ∃ b c, b ≠ c ∧ g.Adj a b ∧ g.Adj a c := by
  obtain ⟨front, back, rfl⟩ := List.append_of_mem ha
  rcases List.eq_nil_or_concat front with rfl | ⟨front, b, rfl⟩
  · exact absurd rfl hhead
  rw [List.concat_eq_append] at *
  cases back with
  | nil => exact absurd (by simp) hlast
  | cons c back =>
    have hpart : [b, a, c] <:+: front ++ [b] ++ a :: c :: back := ⟨front, back, by simp⟩
    have hchain := hp.infix hpart
    have hdistinct := hnodup.sublist hpart.sublist
    rw [List.isChain_cons_cons, List.isChain_cons_cons] at hchain
    refine ⟨b, c, ?_, hchain.1.symm, hchain.2.1⟩
    rintro rfl
    simp at hdistinct

namespace Tree

variable {t u : Tree} {g : Graph Node} {p ends : List Node} {n m : Node}

theorem edgeCount_addPath_le (ht : t.shape.WellFormed) (p : List Node) :
    (addPath g t p).shape.edgeCount ≤ t.shape.edgeCount + (p.length - 1) := by
  induction p generalizing t with
  | nil => exact Nat.le_refl _
  | cons a p ih =>
    cases p with
    | nil => exact Nat.le_refl _
    | cons b p =>
      set w := (g.weight? a b).getD busWeight with hw
      have hstep : (t.addEdge a b w).shape.edgeCount ≤ t.shape.edgeCount + 1 :=
        edgeCount_addEdge_le ht a b w
      have hrest := ih (t := t.addEdge a b w) (wellFormed_addEdge ht)
      rw [addPath_cons_cons, ← hw]
      simp only [List.length_cons] at hrest ⊢
      omega

theorem edgeCount_merge_le (ht : t.shape.WellFormed) (u : Tree) :
    (t.merge u).shape.edgeCount ≤ t.shape.edgeCount + u.shape.edgeCount := by
  rw [shape_merge]
  refine (edgeCount_foldl_addEdge_le _ _ _ _ (ht.foldl_addNode (fun n => n) _)).trans ?_
  rw [edgeCount_foldl_addNode (fun n => n)]
  exact Nat.le_refl _

/-- A node of a trim tree that is an end after the tree was extended was an end before. -/
theorem Trim.mem_of_degree (ht : t.Trim ends) (hu : u.shape.WellFormed)
    (hmono : ∀ a b, t.shape.Adj a b → u.shape.Adj a b) (hn : t.contains n = true)
    (hdegree : u.degree n ≤ 1) : n ∈ ends :=
  ht.ends n hn ((degree_le_of_adj ht.isTree.wellFormed hu (hmono n)).trans hdegree)

/-- The edges of a path are its steps. -/
theorem adj_addPath (h : (addPath g t p).shape.Adj n m) :
    t.shape.Adj n m ∨ [n, m] <:+: p ∨ [m, n] <:+: p := by
  induction p generalizing t with
  | nil => exact Or.inl h
  | cons a p ih =>
    cases p with
    | nil => exact Or.inl h
    | cons b p =>
      have hhere : [a, b] <:+: a :: b :: p := ⟨[], p, rfl⟩
      have hlater : ∀ {l : List Node}, l <:+: b :: p → l <:+: a :: b :: p := fun hl =>
        hl.trans (List.suffix_cons a _).isInfix
      rcases ih h with hadj | hstep | hstep
      · rcases adj_addEdge.1 hadj with ⟨rfl, rfl⟩ | ⟨rfl, rfl⟩ | hadj
        · exact Or.inr (Or.inl hhere)
        · exact Or.inr (Or.inr hhere)
        · exact Or.inl hadj
      · exact Or.inr (Or.inl (hlater hstep))
      · exact Or.inr (Or.inr (hlater hstep))

/-- The node beside the first one in a list without repetitions is the second one. -/
theorem head?_eq_of_infix {l : List Node} (hl : (n :: l).Nodup)
    (h : [n, m] <:+: n :: l ∨ [m, n] <:+: n :: l) : l.head? = some m := by
  have hnot := (List.nodup_cons.1 hl).1
  rcases h with ⟨front, back, heq⟩ | ⟨front, back, heq⟩ <;> cases front with
  | nil => ?_
  | cons a front =>
    obtain ⟨rfl, rfl⟩ := List.cons.inj heq
    exact absurd (by simp) hnot
  · obtain ⟨-, rfl⟩ := List.cons.inj heq
    rfl
  · obtain ⟨rfl, rfl⟩ := List.cons.inj heq
    exact absurd (by simp) hnot

/-- The first and the last node of a path that meets no node twice have one neighbour in it. -/
theorem degree_addPath_le_one {l : List Node} (hp : p.Nodup) (hn : p = n :: l ∨ p.reverse = n :: l) :
    (addPath g ∅ p).degree n ≤ 1 := by
  have hstep : ∀ m, (addPath g ∅ p).shape.Adj n m → l.head? = some m := by
    intro m hm
    have hsteps := (adj_addPath hm).resolve_left (not_adj_empty n m)
    rcases hn with rfl | hreverse
    · exact head?_eq_of_infix hp hsteps
    · refine head?_eq_of_infix (hreverse ▸ List.nodup_reverse.2 hp) (hreverse ▸ hsteps.symm.imp ?_ ?_) <;>
        exact fun h => List.reverse_infix.2 h
  refine (wellFormed_addPath wellFormed_empty).degree_le_one fun b c hb hc => ?_
  exact Option.some.inj ((hstep b hb).symm.trans (hstep c hc))

end Tree

namespace Packer

variable {g h k : Graph Node} {t : Tree} {anchor start : Node} {path terminals : List Node}

/-! ## Magic states -/

/-- The path from a magic state to a single boundary ends in both of them. -/
theorem trim_spliceMagicState_alone (hp : h.IsPath start anchor path) (hne : start ≠ anchor)
    (hnodup : path.Nodup) : (spliceMagicState g none path).Trim [anchor, start] ∧
      ∀ n ∈ [anchor, start], (spliceMagicState g none path).degree n ≤ 1 := by
  obtain ⟨⟨a, rest, rfl⟩, b, rest', hreverse⟩ := hp.exists_inner hne
  set u := spliceMagicState g none (start :: a :: rest) with hu
  have hwell : u.shape.WellFormed := Tree.wellFormed_addPath wellFormed_empty
  have hcontains : ∀ n, u.contains n = true ↔ n ∈ start :: a :: rest := fun n => by
    refine (Tree.contains_addPath Tree.sound_empty.wellFormed).trans ?_
    rw [Tree.not_contains_empty]
    simp
  have hcount : u.shape.edgeCount < u.shape.nodeCount := by
    have hedges : u.shape.edgeCount ≤ 0 + ((start :: a :: rest).length - 1) :=
      Tree.edgeCount_addPath_le (t := ∅) wellFormed_empty _
    have hnodes := length_le_nodeCount (g := u.shape) hnodup fun n hn => (hcontains n).2 hn
    simp only [List.length_cons] at hedges hnodes
    omega
  refine ⟨⟨Tree.sound_addPath_empty.isTree hcount, fun n hn hdegree => ?_⟩, fun n hn => ?_⟩
  · by_contra hnot
    simp only [List.mem_cons, List.not_mem_nil, or_false, not_or] at hnot
    obtain ⟨c, d, hcd, hc, hd⟩ := exists_neighbors_of_mem_chain hnodup
      (Tree.isChain_addPath (g := g) (t := ∅)) ((hcontains n).1 hn)
      (fun heq => hnot.2 (Option.some.inj heq).symm)
      (fun heq => hnot.1 (Option.some.inj (hp.last.symm.trans heq)).symm)
    exact hcd (hwell.eq_of_degree_le_one hdegree hc hd)
  · rcases List.mem_pair.1 hn with rfl | rfl
    · exact Tree.degree_addPath_le_one hnodup (Or.inr hreverse)
    · exact Tree.degree_addPath_le_one hnodup (Or.inl rfl)

section JoinPath

variable {outside : List Node} {last m : Node} {w : Nat} (htrim : t.Trim terminals)
  (hm : t.contains m = true) (hnodup : (outside ++ [last]).Nodup)
  (houtside : ∀ n ∈ outside ++ [last], t.contains n = false)

include htrim hm hnodup houtside

/-- A path beside a tree brings as many edges as nodes, the step into the tree included. -/
theorem isTree_joinPath : (joinPath g t outside last m w).shape.IsTree := by
  have hsound : t.Sound := Tree.sound_of_isTree htrim.isTree
  set u := joinPath g t outside last m w with hu
  have hstep : u.shape.edgeCount ≤ (Tree.addPath g t (outside ++ [last])).shape.edgeCount + 1 :=
    edgeCount_addEdge_le (Tree.wellFormed_addPath hsound.wellFormed) last m w
  have hpath := Tree.edgeCount_addPath_le (g := g) hsound.wellFormed (outside ++ [last])
  have hdisjoint : (t.nodes ++ (outside ++ [last])).Nodup := by
    refine List.nodup_append'.2 ⟨nodup_nodes _, hnodup, fun n hn hn' => ?_⟩
    exact absurd (Tree.mem_nodes.1 hn) (by rw [houtside n hn']; exact Bool.false_ne_true)
  have hnodes := length_le_nodeCount (g := u.shape) hdisjoint fun n hn =>
    (contains_joinPath hsound hm).2 ((List.mem_append.1 hn).imp_left Tree.mem_nodes.1)
  have htree := htrim.isTree.count
  rw [List.length_append, Tree.nodes, length_nodes] at hnodes
  have hlength : (outside ++ [last]).length = outside.length + 1 := List.length_append
  have hcount : u.shape.edgeCount < u.shape.nodeCount := by omega
  exact (sound_joinPath hsound hm).isTree hcount

/-- The path and the step into the tree pass through all nodes of the path but the first. -/
theorem mem_of_degree_joinPath {n : Node} (hhead : (outside ++ [last]).head? = some start)
    (hn : (joinPath g t outside last m w).contains n = true)
    (hdegree : (joinPath g t outside last m w).degree n ≤ 1) : n ∈ terminals ++ [start] := by
  have hsound : t.Sound := Tree.sound_of_isTree htrim.isTree
  have hwell : (joinPath g t outside last m w).shape.WellFormed := wellFormed_joinPath hsound.wellFormed
  rcases (contains_joinPath hsound hm).1 hn with hn | hn
  · exact List.mem_append_left _
      (htrim.mem_of_degree hwell (fun a b hab => adj_joinPath_of_adj hab) hn hdegree)
  · refine List.mem_append_right _ (List.mem_singleton.2 ?_)
    by_contra hnot
    have hmOut : m ∉ outside ++ [last] := fun hmem => by
      rw [houtside m hmem] at hm
      cases hm
    have hfirst : (outside ++ [last] ++ [m]).head? ≠ some n := by
      rw [List.head?_append_of_ne_nil _ (List.ne_nil_of_mem hn), hhead]
      exact fun heq => hnot (Option.some.inj heq).symm
    have hfinal : (outside ++ [last] ++ [m]).getLast? ≠ some n := by
      rw [List.getLast?_concat]
      exact fun heq => hmOut (Option.some.inj heq ▸ hn)
    have hwhole : (outside ++ [last] ++ [m]).Nodup :=
      List.nodup_append'.2 ⟨hnodup, List.nodup_singleton m, by simpa using hmOut⟩
    obtain ⟨a, b, hab, ha, hb⟩ := exists_neighbors_of_mem_chain hwhole isChain_joinPath
      (List.mem_append_left _ hn) hfirst hfinal
    exact hab (hwell.eq_of_degree_le_one hdegree ha hb)

end JoinPath

/-- With a tree of the boundaries, the spliced tree ends in boundaries and in the magic state. -/
theorem trim_spliceMagicState_joined (hg : g.WellFormed) (htrim : t.Trim terminals)
    (hk : k.Within g) (hcontracts : Board.Contracts k t anchor h) (hp : h.IsPath start anchor path)
    (hinner : anchor ∉ path.dropLast) (hne : start ≠ anchor) (hnodup : path.Nodup) :
    (spliceMagicState g (some t) path).Trim (terminals ++ [start]) := by
  obtain ⟨outside, last, m, w, rfl, hsplice, hm, -, hhead, -, houtside⟩ :=
    exists_join hg hk hcontracts hp hinner hne
  have hpath : (outside ++ [last]).Nodup := (List.nodup_append'.1 hnodup).1
  have hout : ∀ n ∈ outside ++ [last], t.contains n = false := fun n hn => (houtside n hn).2
  rw [hsplice]
  exact ⟨isTree_joinPath htrim hm hpath hout,
    fun n hn hdegree => mem_of_degree_joinPath htrim hm hpath hout hhead hn hdegree⟩

/-! ## Zero states -/

section ZeroState

variable {zero : Tree} {id : Nat} (hg : g.WellFormed) (ht : Spliced g terminals t)
  (htrim : t.Trim terminals) (hanchor : t.contains anchor = true) (hk : k.Within g)
  (hown : OnlyOwn k terminals) (hcontracts : Board.Contracts k t anchor h)
  (hzero : zero.shape.Within h) (hzeroAnchor : zero.contains anchor = true)
  (htrimZero : zero.Trim (Board.zeroTerminals anchor id))

include hg ht htrim hanchor hcontracts hzero hzeroAnchor htrimZero

/-- Each neighbour of the contracted node is joined by one step, so the edges of both trees are counted
once. -/
theorem edgeCount_spliceZeroState_lt :
    (spliceZeroState g (some t) anchor zero).shape.edgeCount <
      (spliceZeroState g (some t) anchor zero).shape.nodeCount := by
  have hzeroSound : zero.Sound := Tree.sound_of_isTree htrimZero.isTree
  have hedges := edgeCount_foldl_addEdge_le (fun e : Node × Node × Nat => e.1) (fun e => e.2.1)
    (fun e => e.2.2) (bridgesOf g t zero anchor)
    (Tree.wellFormed_merge (u := zero.removeNode anchor) ht.sound.wellFormed)
  rw [← shape_spliceZeroState] at hedges
  have hmerge := Tree.edgeCount_merge_le ht.sound.wellFormed (zero.removeNode anchor)
  have hbridges : (bridgesOf g t zero anchor).length ≤ zero.degree anchor :=
    List.length_filterMap_le _ _
  have hcut : (zero.removeNode anchor).shape.edgeCount + zero.degree anchor = zero.shape.edgeCount :=
    edgeCount_removeNode hzeroSound.wellFormed anchor
  have hdisjoint : (t.nodes ++ (zero.removeNode anchor).nodes).Nodup := by
    refine List.nodup_append'.2 ⟨nodup_nodes _, nodup_nodes _, fun n hn hn' => ?_⟩
    obtain ⟨hn', hne⟩ := hasNode_removeNode.1 (Tree.mem_nodes.1 hn')
    have hout := (hcontracts.node n (hzero.node n hn') hne).2
    rw [Tree.mem_nodes.1 hn] at hout
    cases hout
  have hnodes := length_le_nodeCount (g := (spliceZeroState g (some t) anchor zero).shape) hdisjoint
    fun n hn => by
      refine (contains_spliceZeroState hg ht.sound hanchor hcontracts hzeroSound hzero).2 ?_
      exact (List.mem_append.1 hn).imp Tree.mem_nodes.1 fun hn =>
        hasNode_removeNode.1 (Tree.mem_nodes.1 hn)
  have hleft : (zero.removeNode anchor).shape.nodeCount + 1 = zero.shape.nodeCount :=
    nodeCount_removeNode hzeroAnchor
  have htree := htrim.isTree.count
  have htreeZero := htrimZero.isTree.count
  rw [List.length_append, Tree.nodes, Tree.nodes, length_nodes, length_nodes] at hnodes
  omega

include hk hown

/-- With a tree of the boundaries, the spliced tree ends in boundaries and in the zero state. -/
theorem trim_spliceZeroState_joined : (spliceZeroState g (some t) anchor zero).Trim
    (terminals ++ [.zero id .X, .zero id .Z]) := by
  have hzeroSound : zero.Sound := Tree.sound_of_isTree htrimZero.isTree
  have hsound := (spliceZeroState_joined hg ht hanchor hk hown hcontracts hzeroSound hzero
    hzeroAnchor).1.sound
  set u := spliceZeroState g (some t) anchor zero with hu
  have hadj : ∀ a b, (t.shape.Adj a b ∨ (zero.shape.removeNode anchor).Adj a b) → u.shape.Adj a b :=
    fun a b hab => (adj_spliceZeroState hzeroSound).2 (Or.inl hab)
  refine ⟨hsound.isTree (edgeCount_spliceZeroState_lt hg ht htrim hanchor hcontracts hzero hzeroAnchor
    htrimZero), fun n hn hdegree => ?_⟩
  rcases (contains_spliceZeroState hg ht.sound hanchor hcontracts hzeroSound hzero).1 hn with
    hn | ⟨hn, hne⟩
  · exact List.mem_append_left _ (htrim.mem_of_degree hsound.wellFormed
      (fun a b hab => hadj a b (Or.inl hab)) hn hdegree)
  · -- a step to the contracted node stands for a step into the tree of the boundaries
    have hout : ∀ a, zero.shape.Adj n a → a ≠ anchor → u.shape.Adj n a ∧ t.contains a = false :=
      fun a ha hne' => ⟨hadj n a (Or.inr ((adj_removeNode hzeroSound.wellFormed).2 ⟨ha, hne, hne'⟩)),
        (hcontracts.node a (hzero.node a (hzeroSound.wellFormed.hasNode_right ha)) hne').2⟩
    have hin : zero.shape.Adj n anchor → ∃ m, u.shape.Adj n m ∧ t.contains m = true := by
      intro ha
      obtain ⟨-, m, hm, hnm⟩ := hcontracts.enter n (hzero.edge _ _ ha)
      obtain ⟨m', w, hbridge, hm', -⟩ := exists_bridge hg hm (hk.edge _ _ hnm)
      have hmem : (n, m', w) ∈ bridgesOf g t zero anchor := List.mem_filterMap.2
        ⟨n, (hzeroSound.wellFormed.mem_neighbors _ _).2 ha.symm, hbridge⟩
      exact ⟨m', (adj_spliceZeroState hzeroSound).2 (Or.inr ⟨_, hmem, Or.inl ⟨rfl, rfl⟩⟩), hm'⟩
    have hmixed : ∀ a b, zero.shape.Adj n a → zero.shape.Adj n b → a = anchor → b = anchor := by
      rintro a b ha hb rfl
      by_contra hne'
      obtain ⟨m, hm, hmTree⟩ := hin ha
      obtain ⟨hb', hbTree⟩ := hout b hb hne'
      rw [hsound.wellFormed.eq_of_degree_le_one hdegree hm hb'] at hmTree
      exact absurd hmTree (by simp [hbTree])
    have hend : zero.degree n ≤ 1 := hzeroSound.wellFormed.degree_le_one fun a b ha hb => by
      by_cases hanchor' : a = anchor
      · rw [hanchor', hmixed a b ha hb hanchor']
      · by_cases hanchor'' : b = anchor
        · exact absurd (hmixed b a hb ha hanchor'') hanchor'
        · exact hsound.wellFormed.eq_of_degree_le_one hdegree (hout a ha hanchor').1
            (hout b hb hanchor'').1
    exact List.mem_append_right _ ((List.mem_cons.1 (htrimZero.ends n hn hend)).resolve_left hne)

end ZeroState

/-! ## Zero states beside the tree -/

section Beside

variable {x z : Node} {id : Nat} {w w' : Nat} (htrim : t.Trim terminals)
  (hx : t.contains x = true) (hz : t.contains z = true)

include htrim hx hz

theorem contains_beside {n : Node} :
    ((t.addEdge x (.zero id .X) w).addEdge z (.zero id .Z) w').contains n = true ↔
      t.contains n = true ∨ n ∈ [Node.zero id .X, .zero id .Z] := by
  have hwell := htrim.isTree.wellFormed
  rw [Tree.contains_addEdge (Tree.wellFormed_addEdge hwell), Tree.contains_addEdge hwell,
    List.mem_pair]
  constructor
  · rintro (rfl | rfl | rfl | rfl | hn)
    · exact Or.inl hz
    · exact Or.inr (Or.inr rfl)
    · exact Or.inl hx
    · exact Or.inr (Or.inl rfl)
    · exact Or.inl hn
  · rintro (hn | rfl | rfl)
    · exact Or.inr (Or.inr (Or.inr (Or.inr hn)))
    · exact Or.inr (Or.inr (Or.inr (Or.inl rfl)))
    · exact Or.inr (Or.inl rfl)

/-- A tree with a zero state beside it ends in boundaries and in the zero state. -/
theorem ends_beside {n : Node}
    (hn : ((t.addEdge x (.zero id .X) w).addEdge z (.zero id .Z) w').contains n = true)
    (hdegree : ((t.addEdge x (.zero id .X) w).addEdge z (.zero id .Z) w').degree n ≤ 1) :
    n ∈ terminals ++ [.zero id .X, .zero id .Z] := by
  refine List.mem_append.2 (((contains_beside htrim hx hz).1 hn).imp_left fun hn => ?_)
  refine htrim.mem_of_degree (Tree.wellFormed_addEdge (Tree.wellFormed_addEdge
    htrim.isTree.wellFormed)) (fun a b hab => ?_) hn hdegree
  exact adj_addEdge.2 (Or.inr (Or.inr (adj_addEdge.2 (Or.inr (Or.inr hab)))))

/-- A tree with a zero state beside it is a tree if it does not run through the zero state. -/
theorem isTree_beside (hterminals : ∀ basis, Node.zero id basis ∉ terminals)
    (hsound : ((t.addEdge x (.zero id .X) w).addEdge z (.zero id .Z) w').Sound)
    (hends : ∀ basis,
      ((t.addEdge x (.zero id .X) w).addEdge z (.zero id .Z) w').degree (.zero id basis) ≤ 1) :
    ((t.addEdge x (.zero id .X) w).addEdge z (.zero id .Z) w').shape.IsTree := by
  have hwell := htrim.isTree.wellFormed
  have hout : ∀ basis, t.contains (.zero id basis) = false := by
    intro basis
    by_contra hmem
    refine hterminals basis (htrim.mem_of_degree hsound.wellFormed (fun a b hab => ?_)
      (Bool.not_eq_false _ ▸ hmem) (hends basis))
    exact adj_addEdge.2 (Or.inr (Or.inr (adj_addEdge.2 (Or.inr (Or.inr hab)))))
  have hfirst : (t.addEdge x (.zero id .X) w).shape.edgeCount ≤ t.shape.edgeCount + 1 :=
    edgeCount_addEdge_le hwell _ _ _
  have hsecond := edgeCount_addEdge_le (Tree.wellFormed_addEdge (a := x) (b := .zero id .X) (w := w)
    hwell) z (.zero id .Z) w'
  have hdisjoint : (t.nodes ++ [Node.zero id .X, .zero id .Z]).Nodup := by
    refine List.nodup_append'.2 ⟨nodup_nodes _, by simp [Node.zero], fun n hn hn' => ?_⟩
    have hn := Tree.mem_nodes.1 hn
    rcases List.mem_pair.1 hn' with rfl | rfl <;> rw [hout] at hn <;> cases hn
  have hmem : ∀ n ∈ t.nodes ++ [Node.zero id .X, .zero id .Z],
      ((t.addEdge x (.zero id .X) w).addEdge z (.zero id .Z) w').contains n = true := fun n hn =>
    (contains_beside htrim hx hz).2 ((List.mem_append.1 hn).imp_left Tree.mem_nodes.1)
  have hnodes := length_le_nodeCount hdisjoint hmem
  have htree := htrim.isTree.count
  rw [List.length_append, Tree.nodes, length_nodes] at hnodes
  refine hsound.isTree (Nat.lt_of_le_of_lt hsecond ?_)
  refine Nat.lt_of_lt_of_le ?_ hnodes
  simp only [List.length_cons, List.length_nil]
  omega

end Beside

end Packer

end LatticeSurgery
