import LatticeSurgery.Proofs.Board.Routing

/-!
# Filled path caches

A path cache is filled with cheapest paths between nodes of boards, and by connecting terminals, which
remembers the paths that were not known (`PathCache.Filled`). All that is ever remembered is a cheapest
path of some graph, so what these leave true holds of a filled cache (`PathCache.Filled.of_keeps`): each
path leads from the one node of its key to the other, and meets no node twice.
-/

namespace LatticeSurgery

open Ordered Relation LatticeSurgery.Graph

namespace PathCache

/-- Remembering a cheapest path leaves a property of caches true. -/
def Keeps (I : PathCache → Prop) : Prop :=
  ∀ (c : PathCache) (g : Graph Node) (n m : Node) (d : Nat) (p : List Node), I c →
    g.shortestPath? n m = some (d, p) → I (c.insert n m d p)

end PathCache

namespace Board

variable {b : Board} {I : PathCache → Prop} {cache : Option PathCache}

theorem cache_routeBetween (hI : PathCache.Keeps I) (hcache : ∀ p, cache = some p → I p)
    (source target : Node) : ∀ p, (b.routeBetween cache source target).2 = some p → I p := by
  unfold routeBetween
  cases cache with
  | none =>
    intro p hp
    cases hp
  | some p =>
    dsimp only
    split
    · exact hcache
    · split
      · exact hcache
      · next d path hpath =>
        intro p' hp'
        cases hp'
        exact hI p b.graph source target d path (hcache p rfl) hpath

theorem lasting_cache (hI : PathCache.Keeps I) :
    Pairing.Lasting fun s => ∀ p, s.cache = some p → I p where
  route _ source target hs := cache_routeBetween hI hs source target
  trim _ _ _ hs := hs
  list _ _ hs := hs

theorem cache_of_connect (hI : PathCache.Keeps I) {terminals : List Node} {c : Connection}
    (hcache : ∀ p, cache = some p → I p) (h : b.connect terminals cache = .ok c) :
    ∀ p, c.cache = some p → I p := by
  unfold connect at h
  split at h
  · cases h
    exact hcache
  · obtain ⟨r, hjoin, h⟩ := exists_of_bind_eq_ok h
    cases h
    exact (lasting_cache hI).joinPairs hcache hjoin

end Board

namespace PathCache

/-- A path cache filled from boards, contracted or not. -/
inductive Filled : PathCache → Prop
  /-- A cache that nothing was put into. -/
  | empty : Filled ∅
  /-- A cheapest path between two nodes is put into it. -/
  | insert {p : PathCache} {b : Board} {n m : Node} {d : Nat} {path : List Node} (hp : Filled p)
      (hpath : b.path? n m = some (d, path)) : Filled (p.insert n m d path)
  /-- Terminals are connected with its help. -/
  | connect {p p' : PathCache} {b : Board} {terminals : List Node} {c : Board.Connection}
      (hp : Filled p) (hc : b.connect terminals (some p) = .ok c) (hp' : c.cache = some p') : Filled p'

variable {p : PathCache} {I : PathCache → Prop}

theorem Filled.of_keeps (hI : Keeps I) (hempty : I ∅) (h : Filled p) : I p := by
  induction h with
  | empty => exact hempty
  | insert _ hpath ih => exact hI _ _ _ _ _ _ ih hpath
  | connect _ hc hp' ih =>
    refine Board.cache_of_connect hI (fun p hp => ?_) hc _ hp'
    cases hp
    exact ih

theorem keeps_sound : Keeps Sound := fun _ _ _ _ d _ hc hpath =>
  hc.insert (shortestPath?_spec hpath).1 d

theorem Filled.sound (h : Filled p) : p.Sound := h.of_keeps keeps_sound sound_empty

/-- No stored path meets a node twice. -/
def Simple (c : PathCache) : Prop := ∀ k e, e ∈ c.paths.candidates k → e.2.Nodup

theorem Simple.insert {c : PathCache} {a b : Node} {path : List Node} (hc : c.Simple)
    (hpath : path.Nodup) (d : Nat) : (c.insert a b d path).Simple := by
  intro k e he
  rw [candidates_insert] at he
  split at he
  · rcases mem_insertBisecting.1 he with rfl | he
    · show (readFrom k.1 path).Nodup
      unfold readFrom
      split
      · exact hpath
      · exact List.nodup_reverse.2 hpath
    · exact hc k e he
  · exact hc k e he

theorem keeps_simple : Keeps Simple := fun _ _ _ _ d _ hc hpath =>
  hc.insert (shortestPath?_nodup hpath) d

theorem Filled.simple (h : Filled p) : p.Simple := h.of_keeps keeps_simple fun _ _ he => by cases he

end PathCache

end LatticeSurgery
