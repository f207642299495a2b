import LatticeSurgery.Proofs.Board.Reached
import LatticeSurgery.Proofs.Cache.Filled

/-!
# The search between several terminals

With more than two terminals, both ends of a path keep only the edge that the path uses. So after a path
has ended at a terminal, the later paths that end there take the same step, and none runs through it
(`Pairing.Settled`). The first terminal is joined to all others before these are joined to each other;
hence a path that runs through a terminal is one that joins the first terminal to an earlier one
(`Pairing.Found`).
-/

namespace LatticeSurgery

open Ordered LatticeSurgery.Graph

/-- A route that is known or found meets no node twice, if those that are known do not. -/
theorem PathCache.Simple.find? {c : PathCache} {n m : Node} {g : Graph Node} {d : Nat}
    {p : List Node} (hc : c.Simple) (h : c.find? n m g = some (d, p)) : p.Nodup := by
  obtain ⟨key, -, h⟩ := Option.bind_eq_some_iff.1 h
  obtain ⟨e, he, h⟩ := Option.bind_eq_some_iff.1 h
  have hnodup := hc key e (List.mem_of_find?_eq_some he)
  cases h
  split
  · exact hnodup
  · exact List.nodup_reverse.2 hnodup

namespace Board

variable {b : Board} {g h : Graph Node} {terminals : List Node} {cache cache' : Option PathCache}
  {n k k' source target next last : Node} {d : Nat} {path : List Node}

theorem nodup_routeBetween (hcache : ∀ p, cache = some p → p.Simple)
    (hroute : b.routeBetween cache n k = (some (d, path), cache')) : path.Nodup := by
  unfold routeBetween at hroute
  cases cache with
  | none => exact shortestPath?_nodup (congrArg Prod.fst hroute)
  | some c =>
    dsimp only at hroute
    split at hroute
    · next hit hfind =>
      cases hroute
      exact (hcache c rfl).find? hfind
    · split at hroute
      · cases hroute
      · next hpath =>
        cases hroute
        exact shortestPath?_nodup hpath

/-- Without a cache, the route is a cheapest path. -/
theorem path?_of_routeBetween (hroute : b.routeBetween cache n k = (some (d, path), none)) :
    cache = none ∧ b.path? n k = some (d, path) := by
  unfold routeBetween at hroute
  cases cache with
  | none => exact ⟨rfl, congrArg Prod.fst hroute⟩
  | some c =>
    dsimp only at hroute
    split at hroute
    · cases hroute
    · split at hroute <;> cases hroute

/-! ## Trimming -/

theorem anchor_trim (b : Board) (n next : Node) : (b.trim n next).2.anchor = b.anchor := by
  obtain ⟨g, hg⟩ := exists_graph_trim b n next
  rw [hg]

/-- A terminal that is no bus tile keeps one edge. -/
theorem adj_trim (hb : b.graph.WellFormed) (hn : n.isBus = false) (hnone : b.anchor = none) :
    (b.trim n next).2.graph.Adj k k' ↔
      b.graph.Adj k k' ∧ (k = n → k' = next) ∧ (k' = n → k = next) := by
  have hunused : ∀ {m}, b.graph.Adj n m → m ≠ next →
      ∃ e ∈ (b.graph.incident n).filter fun e => decide (e.1 ≠ next), m = e.1 := by
    intro m hadj hne
    obtain ⟨e, he, rfl⟩ := hb.exists_mem_incident.2 hadj
    exact ⟨e, List.mem_filter.2 ⟨he, decide_eq_true hne⟩, rfl⟩
  unfold trim
  rw [if_neg (by simp [hn, hnone])]
  dsimp only
  rw [adj_foldl_removeEdge]
  refine and_congr_right fun hadj => ⟨fun hkept => ⟨?_, ?_⟩, fun ⟨hk, hk'⟩ e he => ?_⟩
  · rintro rfl
    by_contra hne
    obtain ⟨e, he, rfl⟩ := hunused hadj hne
    exact (hkept e he).1 ⟨rfl, rfl⟩
  · rintro rfl
    by_contra hne
    obtain ⟨e, he, rfl⟩ := hunused hadj.symm hne
    exact (hkept e he).2 ⟨rfl, rfl⟩
  · have hne : e.1 ≠ next := of_decide_eq_true (List.mem_filter.1 he).2
    constructor
    · rintro ⟨h₁, rfl⟩
      exact hne (hk h₁)
    · rintro ⟨rfl, h₂⟩
      exact hne (hk' h₂)

/-- A part of a graph with all steps between its bus tiles. -/
structure BusPart (g h : Graph Node) : Prop where
  wellFormed : h.WellFormed
  within : h.Within g
  graded : h.Graded
  bus : ∀ n m, n.isBus = true → m.isBus = true → g.Adj n m → h.Adj n m

theorem BusPart.trim (hb : BusPart g b.graph) (hn : n.isBus = false) (hnone : b.anchor = none)
    (next : Node) : BusPart g (b.trim n next).2.graph := by
  have htrim := trim_spec hb.wellFormed n next
  refine ⟨htrim.wellFormed, htrim.within.trans hb.within, graded_trim hb.wellFormed hb.graded n next,
    fun k k' hk hk' hadj => ?_⟩
  have hne : ∀ k : Node, k.isBus = true → k ≠ n := by
    rintro k hk rfl
    rw [hn] at hk
    cases hk
  exact (adj_trim hb.wellFormed hn hnone).2 ⟨hb.bus k k' hk hk' hadj, fun h => absurd h (hne k hk),
    fun h => absurd h (hne k' hk')⟩

theorem innerEnds_eq (h : innerEnds path = .ok (next, last)) :
    (∃ a t, path = a :: next :: t) ∧ ∃ a t, path.reverse = a :: last :: t := by
  unfold innerEnds at h
  split at h
  · next _ t _ u hpath hreverse =>
    cases h
    exact ⟨⟨_, _, rfl⟩, _, _, hreverse⟩
  · cases h

/-- At the ends of a path, trimming leaves the step that the path takes. -/
theorem eq_of_adj_trim (hb : b.graph.WellFormed) (hnone : b.anchor = none)
    (hsource : source.isBus = false) (htarget : target.isBus = false)
    (hp : b.graph.IsPath source target path) (hnodup : path.Nodup)
    (hinner : innerEnds path = .ok (next, last)) (hn : n = source ∨ n = target)
    (hx : ((b.trim source next).2.trim target last).2.graph.Adj n k) (hy : Steps path n k') :
    k = k' := by
  have hb₁ := (trim_spec hb source next).wellFormed
  obtain ⟨hadj, hatTarget, -⟩ := (adj_trim hb₁ htarget ((anchor_trim _ _ _).trans hnone)).1 hx
  obtain ⟨-, hatSource, -⟩ := (adj_trim hb hsource hnone).1 hadj
  obtain ⟨⟨a, t, hfirst⟩, a', u, hlast⟩ := innerEnds_eq hinner
  rcases hn with rfl | rfl
  · obtain rfl : a = n := by simpa [hfirst] using hp.head
    rw [hfirst] at hy hnodup
    exact (hatSource rfl).trans (hy.eq_second hnodup).symm
  · obtain rfl : a' = n := by simpa [hlast] using hp.reverse.head
    rw [← steps_reverse, hlast] at hy
    rw [← List.nodup_reverse, hlast] at hnodup
    exact (hatTarget rfl).trans (hy.eq_second hnodup).symm

/-! ## The order of the pairs -/

/-- A place belongs to one of some pairs. -/
def Seen (pairs : List (Nat × Nat)) (k : Nat) : Prop := ∃ q ∈ pairs, k = q.1 ∨ k = q.2

/-- When a pair comes up after others, every place outside of it was seen, or the pair consists of the
first place and one before the place. -/
def InOrder (count : Nat) : List (Nat × Nat) → List (Nat × Nat) → Prop
  | _, [] => True
  | seen, q :: rest =>
    (∀ k < count, k ≠ q.1 → k ≠ q.2 → Seen seen k ∨ (q.1 = 0 ∧ q.2 < k)) ∧
      InOrder count (seen ++ [q]) rest

theorem Seen.append {pairs : List (Nat × Nat)} {i : Nat} (hi : Seen pairs i) (q : Nat × Nat) :
    Seen (pairs ++ [q]) i := by
  obtain ⟨p, hp, hi⟩ := hi
  exact ⟨p, List.mem_append_left _ hp, hi⟩

theorem inOrder_of_seen {count : Nat} {seen : List (Nat × Nat)} (hseen : ∀ k < count, Seen seen k)
    (rest : List (Nat × Nat)) : InOrder count seen rest := by
  induction rest generalizing seen with
  | nil => trivial
  | cons q rest ih => exact ⟨fun k hk _ _ => Or.inl (hseen k hk), ih fun k hk => (hseen k hk).append q⟩

/-- The first place is joined to the others in order, after which all places were seen. -/
theorem inOrder_range' {j m : Nat} {seen : List (Nat × Nat)} (hj : 0 < j) (htwo : 1 < j + m)
    (hseen : 1 < j → ∀ k < j, Seen seen k) (rest : List (Nat × Nat)) :
    InOrder (j + m) seen ((List.range' j m).map (fun k => (0, k)) ++ rest) := by
  induction m generalizing j seen with
  | zero => exact inOrder_of_seen (hseen (by omega)) rest
  | succ m ih =>
    refine ⟨fun k hk hzero hkj => ?_, ?_⟩
    · rcases Nat.lt_or_ge k j with hless | hge
      · have hkzero : k ≠ 0 := hzero
        exact Or.inl (hseen (by omega) k hless)
      · have hne : k ≠ j := hkj
        exact Or.inr ⟨rfl, show j < k by omega⟩
    · rw [show j + (m + 1) = j + 1 + m by omega]
      refine ih (Nat.succ_pos j) (by omega) fun _ k hk => ?_
      rcases Nat.lt_or_ge k j with hless | hge
      · rcases Nat.lt_or_ge 1 j with hone | hone
        · exact (hseen hone k hless).append _
        · exact ⟨(0, j), by simp, Or.inl (show k = 0 by omega)⟩
      · exact ⟨(0, j), by simp, Or.inr (show k = j by omega)⟩

theorem inOrder_placePairs (htwo : 2 ≤ terminals.length) :
    InOrder terminals.length [] ((placePairs terminals.zipIdx).map fun q => (q.1.2, q.2.2)) := by
  cases terminals with
  | nil => simp at htwo
  | cons n ns =>
    have hfirst : (ns.zipIdx 1).map (fun e => (0, e.2)) =
        (List.range' 1 ns.length).map fun k => (0, k) := by
      rw [← List.zipIdx_map_snd, List.map_map]
      rfl
    rw [List.length_cons] at htwo ⊢
    rw [List.zipIdx_cons, placePairs, List.map_append, List.map_map, Nat.add_comm]
    have horder : InOrder (1 + ns.length) [] ((ns.zipIdx 1).map (fun e => (0, e.2)) ++
        (placePairs (ns.zipIdx 1)).map fun q => (q.1.2, q.2.2)) := by
      rw [hfirst]
      exact inOrder_range' Nat.one_pos (by omega) (by omega) _
    exact horder

/-! ## Settled terminals -/

/-- A path that was found, with its length and the places of its terminals. -/
abbrev FoundPath := Nat × (Nat × Nat) × List Node

/-- A node is one of the terminals that a path joins. -/
def IsEnd (terminals : List Node) (e : FoundPath) (n : Node) : Prop :=
  n = Tree.nodeAt terminals e.2.1.1 ∨ n = Tree.nodeAt terminals e.2.1.2

/-- What is known of a path that was found: it meets no node twice, and if it runs through a terminal,
it joins the first terminal to one before that. -/
structure Found (g : Graph Node) (terminals : List Node) (e : FoundPath) : Prop where
  path : g.IsPath (Tree.nodeAt terminals e.2.1.1) (Tree.nodeAt terminals e.2.1.2) e.2.2
  bound : e.2.1.1 < terminals.length ∧ e.2.1.2 < terminals.length
  ne : Tree.nodeAt terminals e.2.1.1 ≠ Tree.nodeAt terminals e.2.1.2
  nodup : e.2.2.Nodup
  through : ∀ k < terminals.length, k ≠ e.2.1.1 → k ≠ e.2.1.2 → Tree.nodeAt terminals k ∈ e.2.2 →
    e.2.1.1 = 0 ∧ e.2.1.2 < k

/-- What the search keeps when it trims the ends of the paths. -/
structure Pairing.Settled (g : Graph Node) (terminals : List Node) (s : Pairing) : Prop where
  board : BusPart g s.board.graph
  anchor : s.board.anchor = none
  cache : ∀ p, s.cache = some p → p.Sound ∧ p.Simple
  found : ∀ e ∈ s.paths, Found g terminals e
  /-- At the end of a path, only its edge is left. -/
  left : ∀ e ∈ s.paths, ∀ n, IsEnd terminals e n → ∀ x y, s.board.graph.Adj n x →
    Steps e.2.2 n y → x = y
  /-- Paths that end at a terminal take the same step there. -/
  agree : ∀ e ∈ s.paths, ∀ e' ∈ s.paths, ∀ n, IsEnd terminals e n → IsEnd terminals e' n →
    ∀ x y, Steps e.2.2 n x → Steps e'.2.2 n y → x = y
  /-- Without a cache, the paths are cheapest in what was left of the graph. -/
  cheapest : s.cache = none → ∀ e ∈ s.paths, ∃ h, BusPart g h ∧
    h.shortestPath? (Tree.nodeAt terminals e.2.1.1) (Tree.nodeAt terminals e.2.1.2) = some (e.1, e.2.2)

/-- The pairs of a search that trims and succeeds, one after the other. -/
theorem exists_of_joinPairs_cons {i j : Nat} {rest : List ((Node × Nat) × (Node × Nat))}
    {s s' : Pairing} (h : joinPairs true (((source, i), (target, j)) :: rest) s = .ok (s', true)) :
    ∃ d path cache next last, s.board.routeBetween s.cache source target = (some (d, path), cache) ∧
      innerEnds path = .ok (next, last) ∧
      joinPairs true rest
        { board := ((s.board.trim source next).2.trim target last).2
          cache := cache
          removed := s.removed ++ (s.board.trim source next).1 ++
            ((s.board.trim source next).2.trim target last).1
          paths := s.paths ++ [(d, (i, j), path)] } = .ok (s', true) := by
  unfold joinPairs at h
  split at h
  · cases h
  · next d path cache hroute =>
    rw [if_pos rfl] at h
    obtain ⟨⟨next, last⟩, hinner, h⟩ := exists_of_bind_eq_ok h
    exact ⟨d, path, cache, next, last, hroute, hinner, h⟩

section Join

variable {s : Pairing} {i j : Nat}

/-- No path runs through a terminal at which one has ended. -/
theorem Pairing.Settled.not_inner (hs : s.Settled g terminals) {e : FoundPath} (he : e ∈ s.paths)
    (hend : IsEnd terminals e k) (hp : s.board.graph.IsPath source target path)
    (hnodup : path.Nodup) (hk : k ∈ path) (hsource : k ≠ source) : k = target := by
  by_contra htarget
  have htwo := hp.two_le_degree hs.board.wellFormed hnodup hk hsource htarget
  have hfound := hs.found e he
  obtain ⟨y, hy⟩ := hfound.path.exists_step hfound.ne hend
  have hone := hs.board.wellFormed.degree_le_one (a := k) fun x x' hx hx' =>
    (hs.left e he k hend x y hx hy).trans (hs.left e he k hend x' y hx' hy).symm
  omega

theorem nodeAt_inj (hterminals : terminals.Nodup) {i j : Nat} (hi : i < terminals.length)
    (hj : j < terminals.length) : Tree.nodeAt terminals i = Tree.nodeAt terminals j ↔ i = j := by
  rw [Tree.nodeAt_of_lt hi, Tree.nodeAt_of_lt hj, hterminals.getElem_inj_iff]

/-- A path that is found runs through a terminal only if no path has ended there. -/
theorem Pairing.Settled.found_join (hs : s.Settled g terminals) (hterminals : terminals.Nodup)
    (hq : IsPair terminals ((source, i), (target, j)))
    (horder : ∀ k < terminals.length, k ≠ i → k ≠ j →
      Seen (s.paths.map fun e => e.2.1) k ∨ (i = 0 ∧ j < k))
    (hp : s.board.graph.IsPath source target path) (hnodup : path.Nodup) (d : Nat) :
    Found g terminals (d, (i, j), path) := by
  have hi : source = Tree.nodeAt terminals i := hq.source
  have hj : target = Tree.nodeAt terminals j := hq.target
  refine ⟨?_, hq.bound, hi ▸ hj ▸ hq.ne, hnodup, fun k hk hki hkj hmem => ?_⟩
  · rw [← hi, ← hj]
    exact hp.mono hs.board.within.edge
  · rcases horder k hk hki hkj with ⟨q, hq', hends⟩ | hlate
    · obtain ⟨e, he, rfl⟩ := List.mem_map.1 hq'
      have hend : IsEnd terminals e (Tree.nodeAt terminals k) :=
        hends.imp (congrArg (Tree.nodeAt terminals)) (congrArg (Tree.nodeAt terminals))
      have hsource : Tree.nodeAt terminals k ≠ source := by
        rw [hi]
        exact mt (nodeAt_inj hterminals hk hq.bound.1).1 hki
      have htarget := hs.not_inner he hend hp hnodup hmem hsource
      rw [hj] at htarget
      exact absurd ((nodeAt_inj hterminals hk hq.bound.2).1 htarget) hkj
    · exact hlate

/-- What holds of a search after one more path was found and its ends were trimmed. -/
theorem Pairing.Settled.join (hs : s.Settled g terminals) (hterminals : terminals.Nodup)
    (hbus : ∀ n ∈ terminals, n.isBus = false) (hq : IsPair terminals ((source, i), (target, j)))
    (horder : ∀ k < terminals.length, k ≠ i → k ≠ j →
      Seen (s.paths.map fun e => e.2.1) k ∨ (i = 0 ∧ j < k))
    (hroute : s.board.routeBetween s.cache source target = (some (d, path), cache))
    (hinner : innerEnds path = .ok (next, last)) (removed : List RemovedEdge) :
    Pairing.Settled g terminals ⟨((s.board.trim source next).2.trim target last).2, cache, removed,
      s.paths ++ [(d, (i, j), path)]⟩ := by
  have hi : source = Tree.nodeAt terminals i := hq.source
  have hj : target = Tree.nodeAt terminals j := hq.target
  have hsource : source.isBus = false := hbus _ (hi ▸ Tree.nodeAt_mem hq.bound.1)
  have htarget : target.isBus = false := hbus _ (hj ▸ Tree.nodeAt_mem hq.bound.2)
  obtain ⟨hispath, -⟩ := routeBetween_spec (b := s.board) source target fun p hp => (hs.cache p hp).1
  have hsound := cache_routeBetween (b := s.board) PathCache.keeps_sound
    (fun p hp => (hs.cache p hp).1) source target
  have hsimple := cache_routeBetween (b := s.board) PathCache.keeps_simple
    (fun p hp => (hs.cache p hp).2) source target
  rw [hroute] at hispath hsound hsimple
  have hp := hispath d path rfl
  have hnodup := nodup_routeBetween (fun p hp => (hs.cache p hp).2) hroute
  have hnew := hs.found_join hterminals hq horder hp hnodup d
  have hend : ∀ n, IsEnd terminals (d, (i, j), path) n → n = source ∨ n = target := by
    rw [hi, hj]
    exact fun n hn => hn
  have hboard₁ := hs.board.trim hsource hs.anchor next
  have hanchor₁ : (s.board.trim source next).2.anchor = none := (anchor_trim _ _ _).trans hs.anchor
  have hboard₂ := hboard₁.trim htarget hanchor₁ last
  have hless : ∀ {n x}, ((s.board.trim source next).2.trim target last).2.graph.Adj n x →
      s.board.graph.Adj n x := fun h =>
    ((adj_trim hs.board.wellFormed hsource hs.anchor).1
      ((adj_trim hboard₁.wellFormed htarget hanchor₁).1 h).1).1
  -- the new path could only take the steps that the old ones had left
  have hold : ∀ e ∈ s.paths, ∀ n, IsEnd terminals e n → ∀ x y, Steps path n x → Steps e.2.2 n y →
      x = y := fun e he n hn x y hx hy =>
    hs.left e he n hn x y (hx.adj hs.board.wellFormed hp.chain) hy
  refine ⟨hboard₂, (anchor_trim _ _ _).trans hanchor₁, fun p hp => ⟨hsound p hp, hsimple p hp⟩,
    List.forall_mem_append.2 ⟨hs.found, List.forall_mem_singleton.2 hnew⟩, ?_, ?_, ?_⟩
  · refine List.forall_mem_append.2 ⟨fun e he n hn x y hx hy => ?_, List.forall_mem_singleton.2 ?_⟩
    · exact hs.left e he n hn x y (hless hx) hy
    · exact fun n hn x y hx hy => eq_of_adj_trim hs.board.wellFormed hs.anchor hsource htarget hp hnodup
        hinner (hend n hn) hx hy
  · refine List.forall_mem_append.2 ⟨fun e he => List.forall_mem_append.2 ⟨hs.agree e he, ?_⟩,
      List.forall_mem_singleton.2 (List.forall_mem_append.2 ⟨?_, List.forall_mem_singleton.2 ?_⟩)⟩
    · exact List.forall_mem_singleton.2 fun n hn _ x y hx hy => (hold e he n hn y x hy hx).symm
    · exact fun e he n _ hn x y hx hy => hold e he n hn x y hx hy
    · exact fun n hn _ x y hx hy => hp.step_eq hq.ne hnodup (hend n hn) hx hy
  · rintro rfl
    obtain ⟨hnone, hpath⟩ := path?_of_routeBetween hroute
    refine List.forall_mem_append.2 ⟨hs.cheapest hnone, List.forall_mem_singleton.2 ?_⟩
    refine ⟨s.board.graph, hs.board, ?_⟩
    rw [← hi, ← hj]
    exact hpath

end Join

/-- What holds of a search that succeeds. -/
theorem Pairing.Settled.joinPairs {pairs : List ((Node × Nat) × (Node × Nat))} {s s' : Pairing}
    (hs : s.Settled g terminals) (hterminals : terminals.Nodup)
    (hbus : ∀ n ∈ terminals, n.isBus = false) (hpairs : ∀ q ∈ pairs, IsPair terminals q)
    (horder : InOrder terminals.length (s.paths.map fun e => e.2.1)
      (pairs.map fun q => (q.1.2, q.2.2)))
    (h : Board.joinPairs true pairs s = .ok (s', true)) : s'.Settled g terminals := by
  induction pairs generalizing s with
  | nil =>
    cases h
    exact hs
  | cons q rest ih =>
    obtain ⟨⟨source, i⟩, ⟨target, j⟩⟩ := q
    obtain ⟨d, path, cache, next, last, hroute, hinner, h⟩ := exists_of_joinPairs_cons h
    obtain ⟨hfirst, hrest⟩ := horder
    refine ih (hs.join hterminals hbus (hpairs _ List.mem_cons_self) hfirst hroute hinner _)
      (fun q hq => hpairs q (List.mem_cons_of_mem _ hq)) ?_ h
    dsimp only
    rw [List.map_append]
    exact hrest

/-- What holds of the paths between several terminals on a board that is not contracted. -/
theorem settled_of_joinPairs {l : Layout} {s : Pairing} (hb : Reached l b) (hnone : b.anchor = none)
    (hterminals : terminals.Nodup) (htwo : 2 ≤ terminals.length)
    (hbus : ∀ n ∈ terminals, n.isBus = false) (hcache : ∀ p, cache = some p → p.Filled)
    (h : joinPairs true (placePairs terminals.zipIdx) ⟨b, cache, [], []⟩ = .ok (s, true)) :
    s.Settled b.graph terminals := by
  have hplain := hb.plain hnone
  have hstart : Pairing.Settled b.graph terminals ⟨b, cache, [], []⟩ := by
    refine ⟨⟨hplain.wellFormed, Within.refl _, hplain.graded, fun _ _ _ _ h => h⟩, hnone,
      fun p hp => ⟨(hcache p hp).sound, (hcache p hp).simple⟩, ?_, ?_, ?_, ?_⟩ <;> simp
  exact hstart.joinPairs hterminals hbus (fun q => isPair_of_mem_placePairs hterminals)
    (inOrder_placePairs htwo) h

end Board

end LatticeSurgery
