import LatticeSurgery.Proofs.Board.Routing

/-!
# Paths from the cache

A path cache answers from what was put into it, whichever of two nodes was named first at either time.
Under the key of two nodes it lists just the paths put in for them, each read from the smaller node, in
order of their lengths and then of the paths themselves (`PathCache.Records`). A look-up takes the first
one whose edges are all there. So it finds a path if there is one to be found, the path leads the way it
was asked for, and no path put in for the two nodes that could have been found is shorter
(`PathCache.find?_ofInsertions`).
-/

namespace LatticeSurgery

open Ordered LatticeSurgery.Graph

namespace PathCache

/-- A path that is put into a cache for two nodes, with its length. -/
structure Insertion where
  /-- The node named first. -/
  source : Node
  /-- The node named second. -/
  target : Node
  /-- The length of the path. -/
  length : Nat
  /-- The path. -/
  path : List Node
deriving DecidableEq

namespace Insertion

/-- The two nodes, whichever was named first. -/
def ends (e : Insertion) : Sym2 Node := s(e.source, e.target)

/-- The path leads from one of the two nodes to the other, either way. -/
def Joins (e : Insertion) : Prop :=
  s(e.path.head?, e.path.getLast?) = s(some e.source, some e.target)

instance (e : Insertion) : Decidable e.Joins :=
  inferInstanceAs (Decidable (s(e.path.head?, e.path.getLast?) = s(some e.source, some e.target)))

/-- What is stored: the length, and the path read from the node `n`. -/
def entry (n : Node) (e : Insertion) : Nat × List Node := (e.length, readFrom n e.path)

end Insertion

/-- The cache after some insertions, the first one first. -/
def ofInsertions (history : List Insertion) : PathCache :=
  history.foldl (fun c e => c.insert e.source e.target e.length e.path) ∅

/-- What was put in under a key. -/
def insertedUnder (k : Node × Node) (history : List Insertion) : List Insertion :=
  history.filter fun e => decide (key? e.source e.target = some k)

/-- Each key has just the paths put in under it as candidates, as often as they were put in and in order.
-/
structure Records (c : PathCache) (history : List Insertion) : Prop where
  ordered : ∀ k, (c.paths.candidates k).Pairwise fun x y => before y x = false
  perm : ∀ k, (c.paths.candidates k).Perm ((insertedUnder k history).map (Insertion.entry k.1))

/-- What a look-up may return: a path that is there and was put in for the two nodes. None of those that
are there is shorter. -/
structure Cheapest (history : List Insertion) (g : Graph Node) (a b : Node) (d : Nat)
    (p : List Node) : Prop where
  path : g.IsPath a b p
  inserted : ∃ e ∈ history, e.ends = s(a, b) ∧ e.length = d ∧ (p = e.path ∨ p = e.path.reverse)
  least : ∀ e ∈ history, e.ends = s(a, b) → e.path.IsChain g.Adj → d ≤ e.length

variable {c : PathCache} {history : List Insertion} {e : Insertion} {g : Graph Node} {a b : Node}
  {k : Node × Node} {d : Nat} {p : List Node}

/-! ## Keys -/

theorem exists_key?_iff :
    (∃ k, key? a b = some k) ↔ a.kind = .patch .qubit ∧ b.kind = .patch .qubit := by
  unfold key?
  split
  · next h => exact iff_of_true ⟨_, rfl⟩ h
  · next h =>
    refine iff_of_false ?_ h
    rintro ⟨k, hk⟩
    cases hk

theorem key?_comm (a b : Node) : key? a b = key? b a := by
  have hkey : (least a b, greatest a b) = (least b a, greatest b a) := edgeKey_comm a b
  unfold key?
  simp only [hkey, and_comm]

/-- What was put in under the key of two nodes was put in for these nodes. -/
theorem mem_insertedUnder (hk : key? a b = some k) :
    e ∈ insertedUnder k history ↔ e ∈ history ∧ e.ends = s(a, b) := by
  rw [insertedUnder, List.mem_filter, decide_eq_true_eq]
  refine and_congr_right fun _ =>
    ⟨fun he => (ends_of_key? he).symm.trans (ends_of_key? hk), fun he => ?_⟩
  rcases Sym2.eq_iff.1 he with ⟨hsource, htarget⟩ | ⟨hsource, htarget⟩
  · rw [hsource, htarget, hk]
  · rw [hsource, htarget, key?_comm, hk]

/-! ## Insertions -/

theorem records_empty : Records ∅ [] :=
  ⟨fun _ => List.Pairwise.nil, fun _ => List.Perm.refl _⟩

theorem insertedUnder_concat (k : Node × Node) (history : List Insertion) (e : Insertion) :
    insertedUnder k (history ++ [e]) =
      if key? e.source e.target = some k then insertedUnder k history ++ [e]
      else insertedUnder k history := by
  rw [insertedUnder, List.filter_append]
  split
  · next h => simp [insertedUnder, h]
  · next h => simp [insertedUnder, h]

/-- One more path goes to its place under its key. The place is the right one since the candidates are
in order. -/
theorem Records.insert (hc : c.Records history) (e : Insertion) :
    (c.insert e.source e.target e.length e.path).Records (history ++ [e]) := by
  refine ⟨fun k => ?_, fun k => ?_⟩
  · rw [candidates_insert]
    split
    · rw [insertBisecting_eq_place (hc.ordered k)]
      exact pairwise_placeOn (hc.ordered k)
    · exact hc.ordered k
  · rw [candidates_insert, insertedUnder_concat]
    split
    · rw [List.map_append]
      exact (insertBisecting_perm _ _).trans
        (((hc.perm k).cons _).trans (List.perm_append_singleton _ _).symm)
    · exact hc.perm k

theorem records_ofInsertions (history : List Insertion) : (ofInsertions history).Records history := by
  induction history using List.reverseRecOn with
  | nil => exact records_empty
  | append_singleton history e ih =>
    rw [ofInsertions, List.foldl_append]
    exact ih.insert e

/-! ## Looking up -/

theorem Records.sound (hc : c.Records history) (hjoins : ∀ e ∈ history, e.Joins) : c.Sound := by
  intro k x hx
  obtain ⟨e, he, rfl⟩ := List.mem_map.1 ((hc.perm k).mem_iff.1 hx)
  obtain ⟨hmem, hkey⟩ := List.mem_filter.1 he
  refine readFrom_ends ((hjoins e hmem).trans ?_)
  exact (congrArg (Sym2.map some) (ends_of_key? (of_decide_eq_true hkey))).symm

/-- The steps of a path are the same either way. -/
theorem hasPath_readFrom (n : Node) (p : List Node) :
    g.hasPath (readFrom n p) = true ↔ p.IsChain g.Adj := by
  rw [hasPath_iff]
  unfold readFrom
  split
  · exact Iff.rfl
  · rw [List.isChain_reverse]
    exact ⟨fun h => h.imp fun _ _ hab => hab.symm, fun h => h.imp fun _ _ hab => hab.symm⟩

/-- The candidates that a look-up can take are the paths put in for the two nodes that are there. -/
theorem Records.mem_candidates_iff (hc : c.Records history) (hk : key? a b = some k)
    {x : Nat × List Node} :
    x ∈ c.paths.candidates k ∧ g.hasPath x.2 = true ↔
      ∃ e ∈ history, e.ends = s(a, b) ∧ e.path.IsChain g.Adj ∧ e.entry k.1 = x := by
  rw [(hc.perm k).mem_iff, List.mem_map]
  constructor
  · rintro ⟨⟨e, he, rfl⟩, hpath⟩
    obtain ⟨hmem, hends⟩ := (mem_insertedUnder hk).1 he
    exact ⟨e, hmem, hends, (hasPath_readFrom _ _).1 hpath, rfl⟩
  · rintro ⟨e, hmem, hends, hchain, rfl⟩
    exact ⟨⟨e, (mem_insertedUnder hk).2 ⟨hmem, hends⟩, rfl⟩, (hasPath_readFrom _ _).2 hchain⟩

/-- A look-up takes the first candidate that is there, the way it is asked for. -/
theorem find?_of_key? (hk : key? a b = some k) :
    c.find? a b g = ((c.paths.candidates k).find? fun x => g.hasPath x.2).map fun x =>
      (x.1, if a = k.1 then x.2 else x.2.reverse) := by
  simp only [PathCache.find?, Cache.find?, hk, Option.bind_eq_bind, Option.bind_some]
  cases (c.paths.candidates k).find? fun x => g.hasPath x.2 <;> rfl

/-- A look-up finds a path exactly if one that was put in for the two nodes is there. -/
theorem Records.isSome_find?_iff (hc : c.Records history) :
    (c.find? a b g).isSome = true ↔ a.kind = .patch .qubit ∧ b.kind = .patch .qubit ∧
      ∃ e ∈ history, e.ends = s(a, b) ∧ e.path.IsChain g.Adj := by
  rw [← and_assoc, ← exists_key?_iff]
  cases hk : key? a b with
  | none => simp [PathCache.find?, hk]
  | some k =>
    have hends : (∃ e ∈ history, e.ends = s(a, b) ∧ e.path.IsChain g.Adj) ↔
        ∃ x ∈ c.paths.candidates k, g.hasPath x.2 = true := by
      simp only [hc.mem_candidates_iff hk]
      constructor
      · rintro ⟨e, hmem, hends, hchain⟩
        exact ⟨_, e, hmem, hends, hchain, rfl⟩
      · rintro ⟨x, e, hmem, hends, hchain, -⟩
        exact ⟨e, hmem, hends, hchain⟩
    rw [find?_of_key? hk, Option.isSome_map, List.find?_isSome, hends]
    exact (and_iff_right ⟨k, rfl⟩).symm

/-- What a look-up finds is a cheapest path. -/
theorem Records.cheapest (hc : c.Records history) (hjoins : ∀ e ∈ history, e.Joins)
    (h : c.find? a b g = some (d, p)) : Cheapest history g a b d p := by
  have hpath := (hc.sound hjoins).find? h
  obtain ⟨k, hk⟩ : ∃ k, key? a b = some k := by
    obtain ⟨k, hk, -⟩ := Option.bind_eq_some_iff.1 h
    exact ⟨k, hk⟩
  rw [find?_of_key? hk] at h
  obtain ⟨x, hx, h⟩ := Option.map_eq_some_iff.1 h
  obtain ⟨e, hmem, hends, -, rfl⟩ := (hc.mem_candidates_iff hk).1
    ⟨List.mem_of_find?_eq_some hx, by simpa using List.find?_some hx⟩
  cases h
  refine ⟨hpath, ⟨e, hmem, hends, rfl, ?_⟩, fun e' hmem' hends' hchain' => ?_⟩
  · have hread : (e.entry k.1).2 = e.path ∨ (e.entry k.1).2 = e.path.reverse := ite_eq_or_eq _ _ _
    split
    · exact hread
    · rw [List.reverse_eq_iff, List.reverse_eq_iff, List.reverse_reverse]
      exact hread.symm
  · obtain ⟨hcandidate, hvalid⟩ := (hc.mem_candidates_iff hk).2 ⟨e', hmem', hends', hchain', rfl⟩
    have hafter := not_before_of_find? (hc.ordered k) hx hcandidate hvalid
    exact Nat.le_of_not_lt (of_decide_eq_false (Bool.or_eq_false_iff.1 hafter).1)

/-- After any insertions of paths between two nodes, in whatever direction, the cache records them: the
candidates under each key are in order, and none is lost or doubled. A look-up between any two nodes
finds a path exactly if both are boundaries of data patches and a path put in for them is there, and what
it finds is a cheapest one of these. -/
theorem find?_ofInsertions {history : List Insertion} (hjoins : ∀ e ∈ history, e.Joins) :
    (ofInsertions history).Records history ∧ ∀ (g : Graph Node) (a b : Node),
      (((ofInsertions history).find? a b g).isSome = true ↔
        a.kind = .patch .qubit ∧ b.kind = .patch .qubit ∧
          ∃ e ∈ history, e.ends = s(a, b) ∧ e.path.IsChain g.Adj) ∧
      ∀ d p, (ofInsertions history).find? a b g = some (d, p) → Cheapest history g a b d p :=
  have hrecords := records_ofInsertions history
  ⟨hrecords, fun _ _ _ => ⟨hrecords.isSome_find?_iff, fun _ _ h => hrecords.cheapest hjoins h⟩⟩

/-- Paths between two data patches from both ends, one of them against the direction in which the nodes
are named, and a path to a magic state. -/
def detourHistory : List Insertion :=
  [⟨.qubit 1 .Z, .qubit 0 .X, 200002, [.qubit 1 .Z, .bus 3, .bus 2, .bus 1, .qubit 0 .X]⟩,
    ⟨.qubit 0 .X, .qubit 1 .Z, 200001, [.qubit 1 .Z, .bus 4, .bus 1, .qubit 0 .X]⟩,
    ⟨.qubit 0 .X, .qubit 1 .Z, 200000, [.qubit 0 .X, .bus 0, .qubit 1 .Z]⟩,
    ⟨.qubit 0 .X, .boundary .magic 0 .Z, 200000, [.qubit 0 .X, .bus 0, .boundary .magic 0 .Z]⟩]

/-- A graph in which only two of the paths between the data patches are left. -/
def detourGraph : Graph Node :=
  [(.qubit 0 .X, .bus 1), (.bus 1, .bus 2), (.bus 2, .bus 3), (.bus 3, .qubit 1 .Z), (.bus 1, .bus 4),
    (.bus 4, .qubit 1 .Z)].foldl (fun g (e : Node × Node) => g.addEdge e.1 e.2 1) ∅

/-- The shorter one of the two is found, from either end. -/
theorem detourHistory_find? : (∀ e ∈ detourHistory, e.Joins) ∧
    (ofInsertions detourHistory).find? (.qubit 0 .X) (.qubit 1 .Z) detourGraph =
      some (200001, [.qubit 0 .X, .bus 1, .bus 4, .qubit 1 .Z]) ∧
    (ofInsertions detourHistory).find? (.qubit 1 .Z) (.qubit 0 .X) detourGraph =
      some (200001, [.qubit 1 .Z, .bus 4, .bus 1, .qubit 0 .X]) ∧
    Cheapest detourHistory detourGraph (.qubit 1 .Z) (.qubit 0 .X) 200001
      [.qubit 1 .Z, .bus 4, .bus 1, .qubit 0 .X] := by
  have hjoins : ∀ e ∈ detourHistory, e.Joins := by decide
  have hforth : (ofInsertions detourHistory).find? (.qubit 0 .X) (.qubit 1 .Z) detourGraph =
      some (200001, [.qubit 0 .X, .bus 1, .bus 4, .qubit 1 .Z]) := by decide +kernel
  have hback : (ofInsertions detourHistory).find? (.qubit 1 .Z) (.qubit 0 .X) detourGraph =
      some (200001, [.qubit 1 .Z, .bus 4, .bus 1, .qubit 0 .X]) := by decide +kernel
  obtain ⟨-, hfind⟩ := find?_ofInsertions hjoins
  exact ⟨hjoins, hforth, hback, (hfind _ _ _).2 _ _ hback⟩

end PathCache

end LatticeSurgery
