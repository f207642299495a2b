import LatticeSurgery.Proofs.Board.Sound
import LatticeSurgery.Proofs.Tree.Pruning
import Mathlib.Data.Sym.Sym2

/-!
# Connecting terminals

`Board.connect` never stops with a fault. The tree that it returns is sound, contains the terminals,
ends in terminals only and lies in the graph of the board; the board that it leaves behind has the same
nodes and edges as before, since every edge that was taken away is put back (`Pairing.Sound`). The path
cache may change, but each of its paths still leads from the one node of its key to the other.
-/

namespace LatticeSurgery

open Ordered Relation LatticeSurgery.Graph

/-- Two graphs have the same nodes and edges. -/
structure Graph.Same {α : Type} [Ordered α] (g h : Graph α) : Prop where
  node : ∀ a, g.hasNode a = h.hasNode a
  edge : ∀ a b, g.Adj a b ↔ h.Adj a b

namespace Graph.Same

variable {α : Type} [Ordered α] {g h k : Graph α}

theorem refl (g : Graph α) : g.Same g := ⟨fun _ => rfl, fun _ _ => Iff.rfl⟩

theorem trans (hgh : g.Same h) (hhk : h.Same k) : g.Same k :=
  ⟨fun a => (hgh.node a).trans (hhk.node a), fun a b => (hgh.edge a b).trans (hhk.edge a b)⟩

theorem symm (hgh : g.Same h) : h.Same g :=
  ⟨fun a => (hgh.node a).symm, fun a b => (hgh.edge a b).symm⟩

theorem within (hgh : g.Same h) : g.Within h :=
  ⟨fun a ha => hgh.node a ▸ ha, fun a b hab => (hgh.edge a b).1 hab⟩

end Graph.Same

/-! ## The path cache -/

theorem Ordered.mem_insertBisecting {α : Type} [Ordered α] {a b : α} {l : List α} :
    b ∈ insertBisecting a l ↔ b = a ∨ b ∈ l := by
  rw [(insertBisecting_perm a l).mem_iff, List.mem_cons]

namespace PathCache

variable {c : PathCache} {a b : Node} {g : Graph Node} {p : List Node} {d : Nat}

/-- Every stored path leads from the first node of its key to the second one. -/
def Sound (c : PathCache) : Prop :=
  ∀ k e, e ∈ c.paths.candidates k → e.2.head? = some k.1 ∧ e.2.getLast? = some k.2

theorem sound_empty : (∅ : PathCache).Sound := by
  rintro k e he
  cases he

theorem key?_eq (a b : Node) : key? a b = none ∨ key? a b = some (a, b) ∨ key? a b = some (b, a) := by
  unfold key? least greatest
  split
  · cases hba : before b a with
    | true => simp
    | false =>
      cases hab : before a b with
      | true => simp
      | false => simp [before_total hab hba]
  · exact Or.inl rfl

/-- A path that is found leads from the one node to the other. -/
theorem Sound.find? (hc : c.Sound) (h : c.find? a b g = some (d, p)) : g.IsPath a b p := by
  obtain ⟨key, hkey, h⟩ := Option.bind_eq_some_iff.1 h
  obtain ⟨e, he, h⟩ := Option.bind_eq_some_iff.1 h
  obtain ⟨hhead, hlast⟩ := hc key e (List.mem_of_find?_eq_some he)
  have hpath : g.IsPath key.1 key.2 e.2 :=
    ⟨hhead, hlast, hasPath_iff.1 (by simpa using List.find?_some he)⟩
  have hp : p = if a = key.1 then e.2 else e.2.reverse := by
    cases h
    rfl
  rw [hp]
  rcases key?_eq a b with hk | hk | hk <;> rw [hk] at hkey <;> cases hkey
  · rwa [if_pos rfl]
  · split
    · next hab => subst hab; exact hpath
    · exact hpath.reverse

/-- A key is the pair of its two nodes, in one order or the other. -/
theorem ends_of_key? {k : Node × Node} (h : key? a b = some k) : s(k.1, k.2) = s(a, b) := by
  rcases key?_eq a b with hk | hk | hk <;> rw [hk] at h <;> cases h
  · rfl
  · exact Sym2.eq_swap

/-- A path read from the end `n`, if it has this end. -/
def readFrom (n : Node) (p : List Node) : List Node := if p.head? = some n then p else p.reverse

/-- A path between two nodes, read from the one, leads to the other. -/
theorem readFrom_ends {n m : Node} (h : s(p.head?, p.getLast?) = s(some n, some m)) :
    (readFrom n p).head? = some n ∧ (readFrom n p).getLast? = some m := by
  unfold readFrom
  rcases Sym2.eq_iff.1 h with ⟨hhead, hlast⟩ | ⟨hhead, hlast⟩
  · rw [if_pos hhead]
    exact ⟨hhead, hlast⟩
  · split
    · next hfirst =>
      have heq : m = n := Option.some.inj (hhead.symm.trans hfirst)
      rw [heq] at hhead ⊢
      exact ⟨hhead, hlast⟩
    · rw [List.head?_reverse, List.getLast?_reverse]
      exact ⟨hlast, hhead⟩

/-- An insertion puts the path under the key of the two nodes, read from the smaller end. -/
theorem candidates_insert (c : PathCache) (a b : Node) (d : Nat) (p : List Node) (k : Node × Node) :
    (c.insert a b d p).paths.candidates k =
      if key? a b = some k then insertBisecting (d, readFrom k.1 p) (c.paths.candidates k)
      else c.paths.candidates k := by
  unfold PathCache.insert
  split
  · next h => simp [h]
  · next key h =>
    refine (Cache.candidates_insertSorted _ _ _ _).trans ?_
    by_cases hk : k = key
    · subst hk
      rw [same_self, if_pos rfl, h, if_pos rfl]
      rfl
    · rw [if_neg (by simpa using hk), h, if_neg (by simpa using Ne.symm hk)]

theorem Sound.insert (hc : c.Sound) (hp : g.IsPath a b p) (d : Nat) : (c.insert a b d p).Sound := by
  intro k e he
  rw [candidates_insert] at he
  split at he
  · next hk =>
    rcases mem_insertBisecting.1 he with rfl | he
    · refine readFrom_ends ?_
      rw [hp.head, hp.last]
      exact (congrArg (Sym2.map some) (ends_of_key? hk)).symm
    · exact hc k e he
  · exact hc k e he

end PathCache

namespace Board

variable {b b' : Board} {terminals : List Node} {cache : Option PathCache} {source target : Node}

/-- A route between two terminals is a path, and the cache stays sound. -/
theorem routeBetween_spec (source target : Node) (hc : ∀ c, cache = some c → c.Sound) :
    (∀ d p, (b.routeBetween cache source target).1 = some (d, p) →
      b.graph.IsPath source target p) ∧
    ∀ c, (b.routeBetween cache source target).2 = some c → c.Sound := by
  unfold routeBetween
  cases cache with
  | none => exact ⟨fun d p h => (shortestPath?_spec h).1, fun c h => by cases h⟩
  | some c =>
    have hcache := hc c rfl
    dsimp only
    split
    · next hit hfind =>
      refine ⟨fun d p h => ?_, hc⟩
      cases h
      exact hcache.find? hfind
    · split
      · exact ⟨fun d p h => by (cases h), hc⟩
      · next d p hpath =>
        have hisPath := (shortestPath?_spec hpath).1
        refine ⟨fun d' p' h => ?_, fun c' h => ?_⟩
        · cases h
          exact hisPath
        · cases h
          exact hcache.insert hisPath d

/-! ## Taking edges away and putting them back -/

/-- The edges of `g` are those of `h` together with those that were taken away. -/
structure Trimmed (g h : Graph Node) (removed : List RemovedEdge) : Prop where
  wellFormed : h.WellFormed
  node : ∀ n, h.hasNode n = g.hasNode n
  edge : ∀ n m, g.Adj n m ↔
    h.Adj n m ∨ ∃ e ∈ removed, (n = e.1 ∧ m = e.2.1) ∨ (n = e.2.1 ∧ m = e.1)

theorem Trimmed.trans {g h k : Graph Node} {r₁ r₂ : List RemovedEdge} (hgh : Trimmed g h r₁)
    (hhk : Trimmed h k r₂) : Trimmed g k (r₁ ++ r₂) := by
  refine ⟨hhk.wellFormed, fun n => (hhk.node n).trans (hgh.node n), fun n m => ?_⟩
  rw [hgh.edge, hhk.edge, or_assoc]
  simp only [List.mem_append, or_and_right, exists_or, or_comm]

theorem Trimmed.within {g h : Graph Node} {removed : List RemovedEdge} (hgh : Trimmed g h removed) :
    h.Within g :=
  ⟨fun n hn => hgh.node n ▸ hn, fun n m h => (hgh.edge n m).2 (Or.inl h)⟩

theorem trim_spec (hb : b.graph.WellFormed) (terminal next : Node) :
    Trimmed b.graph (b.trim terminal next).2.graph (b.trim terminal next).1 := by
  unfold trim
  split
  · exact ⟨hb, fun _ => rfl, fun n m => by simp⟩
  · refine ⟨hb.foldl_removeEdge _ _, fun n => hasNode_foldl_removeEdge _ _, fun n m => ?_⟩
    dsimp only
    rw [adj_foldl_removeEdge]
    constructor
    · intro h
      by_cases hcut : ∃ e ∈ (b.graph.incident terminal).filter fun e => decide (e.1 ≠ next),
          (n = terminal ∧ m = e.1) ∨ (n = e.1 ∧ m = terminal)
      · obtain ⟨e, he, hends⟩ := hcut
        exact Or.inr ⟨(terminal, e.1, e.2), List.mem_map.2 ⟨e, he, rfl⟩, hends⟩
      · refine Or.inl ⟨h, fun e he => ?_⟩
        rw [← not_or]
        exact fun hends => hcut ⟨e, he, hends⟩
    · rintro (⟨h, -⟩ | ⟨e, he, hends⟩)
      · exact h
      · obtain ⟨e', he', rfl⟩ := List.mem_map.1 he
        have hadj := adj_of_mem_incident (List.mem_of_mem_filter he')
        rcases hends with ⟨rfl, rfl⟩ | ⟨rfl, rfl⟩
        · exact hadj
        · exact hadj.symm

/-- Putting back what was taken away restores the edges. -/
theorem restore_spec {g : Graph Node} {removed : List RemovedEdge} (hg : g.WellFormed)
    (h : Trimmed g b.graph removed) :
    (b.restore removed).graph.WellFormed ∧ g.Same (b.restore removed).graph := by
  unfold restore
  refine ⟨h.wellFormed.foldl_addEdge _ _ _ _, fun n => ?_, fun n m => ?_⟩
  · rw [Bool.eq_iff_iff]
    dsimp only
    rw [hasNode_foldl_addEdge _ _ _ _ h.wellFormed, h.node]
    refine ⟨Or.inl, ?_⟩
    rintro (hn | ⟨e, he, hends⟩)
    · exact hn
    · have hadj : g.Adj e.1 e.2.1 := (h.edge _ _).2 (Or.inr ⟨e, he, Or.inl ⟨rfl, rfl⟩⟩)
      rcases hends with rfl | rfl
      · exact hg.hasNode_left hadj
      · exact hg.hasNode_right hadj
  · dsimp only
    rw [adj_foldl_addEdge]
    exact h.edge n m

/-! ## Paths between all pairs -/

/-- What the search for the paths between terminals keeps: no edge is lost, and every path found so
far leads from the one terminal to the other. -/
structure Pairing.Sound (g : Graph Node) (terminals : List Node) (s : Pairing) : Prop where
  trimmed : Trimmed g s.board.graph s.removed
  cache : ∀ c, s.cache = some c → c.Sound
  paths : ∀ p ∈ s.paths, g.IsPath (Tree.nodeAt terminals p.2.1.1) (Tree.nodeAt terminals p.2.1.2)
    p.2.2 ∧ p.2.1.1 < terminals.length ∧ p.2.1.2 < terminals.length

/-- A pair of terminals with their places. -/
structure IsPair (terminals : List Node) (q : (Node × Nat) × (Node × Nat)) : Prop where
  source : q.1.1 = Tree.nodeAt terminals q.1.2
  target : q.2.1 = Tree.nodeAt terminals q.2.2
  bound : q.1.2 < terminals.length ∧ q.2.2 < terminals.length
  ne : q.1.1 ≠ q.2.1

theorem innerEnds_ok {g : Graph Node} {p : List Node} (hp : g.IsPath source target p)
    (hne : source ≠ target) : ∃ ends, innerEnds p = .ok ends := by
  obtain ⟨⟨n, t, hfirst⟩, ⟨m, u, hlast⟩⟩ := hp.exists_inner hne
  refine ⟨(n, m), ?_⟩
  unfold innerEnds
  rw [hlast, hfirst]

/-- A path between a pair of terminals may be listed with the others. -/
theorem Pairing.Sound.paths_concat {g : Graph Node} {s : Pairing} (hs : s.Sound g terminals)
    {i j : Nat} {path : List Node} (hq : IsPair terminals ((source, i), (target, j)))
    (hpath : s.board.graph.IsPath source target path) (length : Nat) :
    ∀ p ∈ s.paths ++ [(length, (i, j), path)],
      g.IsPath (Tree.nodeAt terminals p.2.1.1) (Tree.nodeAt terminals p.2.1.2) p.2.2 ∧
        p.2.1.1 < terminals.length ∧ p.2.1.2 < terminals.length := by
  intro p hp
  rcases List.mem_append.1 hp with hp | hp
  · exact hs.paths p hp
  · have hsource : source = Tree.nodeAt terminals i := hq.source
    have htarget : target = Tree.nodeAt terminals j := hq.target
    rw [List.mem_singleton.1 hp]
    dsimp only
    rw [← hsource, ← htarget]
    exact ⟨hpath.mono hs.trimmed.within.edge, hq.bound⟩

/-- What the parts of a step of the search leave true: looking up or finding a route, trimming a
terminal, and listing a path. -/
structure Pairing.Lasting (P : Pairing → Prop) : Prop where
  route : ∀ s source target, P s →
    P { s with cache := (s.board.routeBetween s.cache source target).2 }
  trim : ∀ s terminal next, P s →
    P { s with
      board := (s.board.trim terminal next).2
      removed := s.removed ++ (s.board.trim terminal next).1 }
  list : ∀ s p, P s → P { s with paths := s.paths ++ [p] }

/-- Whatever the paths are, a search leaves true what its steps leave true. -/
theorem Pairing.Lasting.joinPairs {P : Pairing → Prop} (hP : Pairing.Lasting P)
    {trimming : Bool} {pairs : List ((Node × Nat) × (Node × Nat))} {s : Pairing} {r : Pairing × Bool}
    (hs : P s) (h : Board.joinPairs trimming pairs s = .ok r) : P r.1 := by
  induction pairs generalizing s with
  | nil =>
    cases h
    exact hs
  | cons q rest ih =>
    obtain ⟨⟨source, i⟩, ⟨target, j⟩⟩ := q
    have hrouted := hP.route s source target hs
    unfold Board.joinPairs at h
    split at h
    · next hroute =>
      rw [hroute] at hrouted
      cases h
      exact hrouted
    · next length path _ hroute =>
      rw [hroute] at hrouted
      split at h
      · obtain ⟨⟨next, last⟩, -, h⟩ := exists_of_bind_eq_ok h
        exact ih (hP.list _ (length, (i, j), path) (hP.trim _ target last
          (hP.trim _ source next hrouted))) h
      · exact ih (hP.list _ _ hrouted) h

/-- What a search makes of the state before it: it edits the graph only, keeps the paths, and finds one
for each pair if it succeeds. -/
structure Pairing.Extended (g : Graph Node) (terminals : List Node)
    (pairs : List ((Node × Nat) × (Node × Nat))) (s : Pairing) (r : Pairing × Bool) : Prop where
  sound : r.1.Sound g terminals
  board : ∃ h, r.1.board = { s.board with graph := h }
  kept : ∀ p ∈ s.paths, p ∈ r.1.paths
  found : r.2 = true → ∀ q ∈ pairs, ∃ p ∈ r.1.paths, p.2.1 = (q.1.2, q.2.2)

/-- Whatever is done with the edges after a path was found, the rest of the search keeps the path. -/
theorem Pairing.Extended.cons {g : Graph Node} {s s' : Pairing} {r : Pairing × Bool}
    {rest : List ((Node × Nat) × (Node × Nat))} {i j length : Nat} {path : List Node}
    (hr : Pairing.Extended g terminals rest s' r)
    (hpaths : s'.paths = s.paths ++ [(length, (i, j), path)])
    (hboard : ∃ h, s'.board = { s.board with graph := h }) :
    Pairing.Extended g terminals (((source, i), (target, j)) :: rest) s r := by
  obtain ⟨h, hboard'⟩ := hr.board
  obtain ⟨h', hboard⟩ := hboard
  refine ⟨hr.sound, ⟨h, by rw [hboard', hboard]⟩, fun p hp => ?_, fun hok q hq => ?_⟩
  · exact hr.kept p (hpaths ▸ List.mem_append_left _ hp)
  · rcases List.mem_cons.1 hq with rfl | hq
    · refine ⟨(length, (i, j), path), hr.kept _ ?_, rfl⟩
      rw [hpaths]
      simp
    · exact hr.found hok q hq

/-- Finding the paths between pairs of terminals never fails. If every pair is connected, each of
them has its path in the end. -/
theorem joinPairs_ends {g : Graph Node} (trimming : Bool)
    {pairs : List ((Node × Nat) × (Node × Nat))} (hpairs : ∀ q ∈ pairs, IsPair terminals q)
    {s : Pairing} (hs : s.Sound g terminals) :
    Ends (joinPairs trimming pairs s) (fun _ => False) (Pairing.Extended g terminals pairs s) := by
  induction pairs generalizing s with
  | nil => exact ⟨hs, ⟨s.board.graph, rfl⟩, fun _ hp => hp, fun _ q hq => by cases hq⟩
  | cons q rest ih =>
    obtain ⟨⟨source, i⟩, ⟨target, j⟩⟩ := q
    have hq := hpairs _ List.mem_cons_self
    have hrest : ∀ q ∈ rest, IsPair terminals q := fun q hq => hpairs q (List.mem_cons_of_mem _ hq)
    obtain ⟨hroute, hcache⟩ := routeBetween_spec (b := s.board) source target
      hs.cache
    unfold joinPairs
    cases hr : s.board.routeBetween s.cache source target with
    | mk route cache =>
      rw [hr] at hroute hcache
      cases route with
      | none =>
        refine ⟨⟨hs.trimmed, hcache, hs.paths⟩, ⟨s.board.graph, rfl⟩, fun _ hp => hp, ?_⟩
        intro h
        cases h
      | some found =>
        obtain ⟨length, path⟩ := found
        have hpath := hroute length path rfl
        have hpaths := hs.paths_concat hq hpath length
        dsimp only
        split
        · obtain ⟨⟨next, last⟩, hinner⟩ := innerEnds_ok hpath hq.ne
          rw [hinner]
          have htrimmed := (hs.trimmed.trans (trim_spec hs.trimmed.wellFormed source next)).trans
            (trim_spec (trim_spec hs.trimmed.wellFormed source next).wellFormed target last)
          refine (ih hrest ⟨htrimmed, hcache, hpaths⟩).mono (fun _ h => h) fun r hr => ?_
          refine hr.cons rfl ⟨((s.board.trim source next).2.trim target last).2.graph, ?_⟩
          unfold trim
          split <;> split <;> rfl
        · have hsound : Pairing.Sound g terminals
              { s with cache := cache, paths := s.paths ++ [(length, (i, j), path)] } :=
            ⟨hs.trimmed, hcache, hpaths⟩
          refine (ih hrest hsound).mono (fun _ h => h) fun r hr => ?_
          exact hr.cons rfl ⟨s.board.graph, rfl⟩

theorem mem_placePairs {l : List (Node × Nat)} {R : Node × Nat → Node × Nat → Prop}
    (hl : l.Pairwise R) {q : (Node × Nat) × (Node × Nat)} (hq : q ∈ placePairs l) :
    q.1 ∈ l ∧ q.2 ∈ l ∧ R q.1 q.2 := by
  induction l with
  | nil => cases hq
  | cons a l ih =>
    obtain ⟨ha, hl⟩ := List.pairwise_cons.1 hl
    rcases List.mem_append.1 hq with hq | hq
    · obtain ⟨c, hc, rfl⟩ := List.mem_map.1 hq
      exact ⟨List.mem_cons_self, List.mem_cons_of_mem _ hc, ha c hc⟩
    · obtain ⟨h₁, h₂, hR⟩ := ih hl hq
      exact ⟨List.mem_cons_of_mem _ h₁, List.mem_cons_of_mem _ h₂, hR⟩

theorem isPair_of_mem_placePairs (hterminals : terminals.Nodup)
    {q : (Node × Nat) × (Node × Nat)} (hq : q ∈ placePairs terminals.zipIdx) :
    IsPair terminals q := by
  have hpairwise : terminals.zipIdx.Pairwise fun a c => a.1 ≠ c.1 := by
    rw [← List.pairwise_map (f := Prod.fst) (R := (· ≠ ·)), List.zipIdx_map_fst]
    exact hterminals
  obtain ⟨h₁, h₂, hne⟩ := mem_placePairs hpairwise hq
  rw [List.mem_zipIdx_iff_getElem?] at h₁ h₂
  have hat : ∀ a : Node × Nat, terminals[a.2]? = some a.1 →
      a.1 = Tree.nodeAt terminals a.2 ∧ a.2 < terminals.length := fun a ha => by
    refine ⟨?_, (List.getElem?_eq_some_iff.1 ha).1⟩
    rw [Tree.nodeAt, List.getD_eq_getElem?_getD, ha, Option.getD_some]
  exact ⟨(hat _ h₁).1, (hat _ h₂).1, ⟨(hat _ h₁).2, (hat _ h₂).2⟩, hne⟩

/-- The first terminal is paired with every other one. -/
theorem exists_placePair {j : Nat} (hpos : 0 < j) (hj : j < terminals.length) :
    ∃ q ∈ placePairs terminals.zipIdx, (q.1.2, q.2.2) = (0, j) := by
  cases terminals with
  | nil => simp at hj
  | cons a rest =>
    refine ⟨((a, 0), ((a :: rest)[j], j)), ?_, rfl⟩
    rw [List.zipIdx_cons, placePairs]
    refine List.mem_append_left _ (List.mem_map.2 ⟨((a :: rest)[j], j), ?_, rfl⟩)
    have hmem : ((a :: rest)[j], j) ∈ (a :: rest).zipIdx := by
      rw [List.mem_zipIdx_iff_getElem?]
      exact List.getElem?_eq_getElem hj
    rw [List.zipIdx_cons] at hmem
    rcases List.mem_cons.1 hmem with heq | hmem
    · exact absurd (congrArg Prod.snd heq) (by dsimp only; omega)
    · exact hmem

/-! ## Connecting -/

/-- What connecting terminals leaves behind. -/
structure Connects (b : Board) (terminals : List Node) (c : Connection) : Prop where
  board : ∃ g, c.board = { b with graph := g }
  wellFormed : c.board.graph.WellFormed
  same : b.graph.Same c.board.graph
  tree : ∀ t, c.tree = some t →
    t.Sound ∧ t.shape.Within b.graph ∧ ∀ n ∈ terminals, t.contains n = true
  trim : ∀ t, c.tree = some t → t.Trim terminals
  cache : ∀ p, c.cache = some p → p.Sound

theorem connect_single (hb : b.graph.WellFormed) (hc : ∀ c, cache = some c → c.Sound) (n : Node) :
    Ends (b.connect [n] cache) (fun _ => False) (b.Connects [n]) := by
  refine ⟨⟨b.graph, rfl⟩, hb, Same.refl _, fun t ht => ?_, fun t ht => ?_, hc⟩ <;>
    dsimp only at ht <;> split at ht
  · next hn =>
    cases ht
    refine ⟨Tree.sound_single n, ⟨fun m hm => ?_, fun m k h => absurd h Tree.not_adj_single⟩, ?_⟩
    · rw [Tree.contains_single.1 hm]
      exact hn
    · intro m hm
      exact Tree.contains_single.2 (List.mem_singleton.1 hm)
  · cases ht
  · cases ht
    exact Tree.trim_single n
  · cases ht

/-- Connecting different terminals never fails. -/
theorem connect_ends (cache : Option PathCache) (hb : b.graph.WellFormed)
    (hterminals : terminals.Nodup) (hne : terminals ≠ []) (hc : ∀ c, cache = some c → c.Sound) :
    Ends (b.connect terminals cache) (fun _ => False) (b.Connects terminals) := by
  match terminals, hterminals, hne with
  | [n], _, _ => exact connect_single hb hc n
  | a :: a' :: rest, hterminals, _ =>
    have hstart : Pairing.Sound b.graph (a :: a' :: rest) ⟨b, cache, [], []⟩ :=
      ⟨⟨hb, fun _ => rfl, fun n m => by simp⟩, hc, fun p hp => by cases hp⟩
    refine Ends.bind (joinPairs_ends _ (fun q => isPair_of_mem_placePairs hterminals) hstart) ?_
    rintro ⟨s, connected⟩ ⟨hs, ⟨h, hboard⟩, -, hfound⟩
    obtain ⟨hwell, hsame⟩ := restore_spec hb hs.trimmed
    have htree : ∀ t, (if connected = true then some (treeOfPaths (s.board.restore s.removed).graph
        (a :: a' :: rest) s.paths) else none) = some t →
        (t.Sound ∧ t.shape.Within b.graph ∧ ∀ n ∈ a :: a' :: rest, t.contains n = true) ∧
          t.Trim (a :: a' :: rest) := by
      intro t ht
      cases connected with
      | false => cases ht
      | true =>
        cases ht
        have hpaths : ∀ p ∈ s.paths, (s.board.restore s.removed).graph.IsPath
            (Tree.nodeAt (a :: a' :: rest) p.2.1.1) (Tree.nodeAt (a :: a' :: rest) p.2.1.2) p.2.2 :=
          fun p hp => (hs.paths p hp).1.mono hsame.within.edge
        have hpairs : ∀ j, 0 < j → j < (a :: a' :: rest).length → ∃ p ∈ s.paths, p.2.1 = (0, j) := by
          intro j hpos hj
          obtain ⟨q, hq, hplaces⟩ := exists_placePair hpos hj
          obtain ⟨p, hp, hpq⟩ := hfound rfl q hq
          exact ⟨p, hp, hpq.trans hplaces⟩
        obtain ⟨hsound, hwithin, hcontains⟩ := Tree.treeOfPaths_spec hwell hterminals (by simp) hpaths
          hpairs fun p hp => (hs.paths p hp).2
        exact ⟨⟨hsound, hwithin.trans hsame.symm.within, hcontains⟩, Tree.trim_treeOfPaths
          hterminals (by simp) hpaths hpairs fun p hp => (hs.paths p hp).2⟩
    refine ⟨⟨(s.board.restore s.removed).graph, ?_⟩, hwell, hsame, fun t ht => (htree t ht).1,
      fun t ht => (htree t ht).2, hs.cache⟩
    dsimp only at hboard ⊢
    rw [restore, hboard]

/-! ## The closest zero state -/

/-- The terminals by which a zero state is joined to a node. -/
def zeroTerminals (target : Node) (id : Nat) : List Node := [target, .zero id .X, .zero id .Z]

theorem nodup_zeroTerminals {target : Node} (h : target.kind ≠ .patch .zero) (id : Nat) :
    (zeroTerminals target id).Nodup := by
  have hne : ∀ basis, target ≠ .zero id basis := fun basis heq => h (heq ▸ rfl)
  simp [zeroTerminals, hne]

/-- A zero state of the board, with a tree that joins both of its nodes to the target and ends in
these nodes only. -/
structure ZeroStateTree (g : Graph Node) (target : Node) (id : Nat) (t : Tree) : Prop where
  sound : t.Sound
  within : t.shape.Within g
  contains : ∀ n ∈ zeroTerminals target id, t.contains n = true
  trim : t.Trim (zeroTerminals target id)

/-- A zero state that is found is one of the candidates, and its tree joins both of its nodes to the
target. -/
theorem closestZeroStateFrom_ends {g : Graph Node} (htarget : target.kind ≠ .patch .zero)
    {ids : List Nat} {candidates : List Nat} (hids : ∀ id ∈ ids, id ∈ candidates)
    (best : Option (Nat × Tree)) (hb : b.graph.WellFormed) (hsame : g.Same b.graph)
    (hbest : ∀ id t, best = some (id, t) → id ∈ candidates ∧ ZeroStateTree g target id t) :
    Ends (closestZeroStateFrom target ids best b) (fun _ => False) fun r =>
      ∀ id t, r.1 = some (id, t) → id ∈ candidates ∧ ZeroStateTree g target id t := by
  induction ids generalizing best b with
  | nil => exact hbest
  | cons i ids ih =>
    unfold closestZeroStateFrom
    refine Ends.bind (connect_ends none hb (nodup_zeroTerminals htarget i) (by simp)
      fun c h => by cases h) ?_
    rintro c hc
    refine ih (fun id hid => hids id (List.mem_cons_of_mem _ hid)) _ hc.wellFormed
      (hsame.trans hc.same) ?_
    intro id t ht
    have hnew : ∀ t, c.tree = some t → i ∈ candidates ∧ ZeroStateTree g target i t := by
      intro t ht
      obtain ⟨hsound, hwithin, hcontains⟩ := hc.tree t ht
      exact ⟨hids i List.mem_cons_self, hsound, hwithin.trans hsame.symm.within, hcontains,
        hc.trim t ht⟩
    split at ht
    · exact hbest id t ht
    · next t' ht' =>
      cases ht
      exact hnew t ht'
    · next ht' =>
      split at ht
      · cases ht
        exact hnew t ht'
      · exact hbest id t ht

end Board

end LatticeSurgery
