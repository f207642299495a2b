import LatticeSurgery.Proofs.Board.Indexed
import LatticeSurgery.Proofs.Graph.Distance
import Mathlib.Data.List.MinMax

/-!
# The choice of a magic state

The choice goes through the candidates once and looks for a path only where the stock alone does not
rule a candidate out. A candidate that is passed over for its stock is at least as bad as the best one so
far, whatever its path, so nothing is lost: the choice is the one of a plain search, which rates every
candidate that has a path and takes the first one with the least score (`choose_eq_first_least`).
-/

namespace LatticeSurgery

open LatticeSurgery.Graph

/-- A search finds no path where there is none, and only there. -/
theorem Graph.shortestPath?_eq_none_iff {α : Type} [Ordered α] {g : Graph α} {a b : α}
    (hg : g.WellFormed) : g.shortestPath? a b = none ↔
      ¬ (g.hasNode a = true ∧ g.hasNode b = true ∧ g.Linked a b) := by
  constructor
  · rintro h ⟨ha, hb, hab⟩
    obtain ⟨d, p, hp⟩ := exists_shortestPath? hg ha hb hab
    cases h.symm.trans hp
  · intro h
    by_contra hsome
    obtain ⟨⟨d, p⟩, hp⟩ := Option.ne_none_iff_exists'.1 hsome
    obtain ⟨hpath, -, ha, hb⟩ := shortestPath?_spec hp
    exact h ⟨ha, hb, hpath.linked⟩

namespace Factories

variable (f : Factories) (b : Board) (target : Node)

/-- What can be chosen: a magic state of one of the factories, or a storage. -/
def Offers (n : Node) : Prop :=
  (n.kind = .patch .magic ∧ f.states.contains n = true) ∨ n.kind = .patch .storage

/-- The score and the path of a candidate that can be chosen and has a path to the target. -/
def rate (n : Node) : Option Choice :=
  (f.scarcity? n).bind fun scarcity =>
    (b.path? n target).map fun r => ⟨scarcityWeight * scarcity + r.1, n, r.2⟩

variable {f b target}

theorem isSome_scarcity?_iff {n : Node} : (f.scarcity? n).isSome = true ↔ f.Offers n := by
  unfold Offers scarcity? SortedMap.contains
  cases n with
  | bus i => simp [Node.kind]
  | boundary k i c => cases k <;> simp [Node.kind]

theorem rate_eq_none_iff {n : Node} :
    f.rate b target n = none ↔ (f.Offers n → b.path? n target = none) := by
  unfold rate
  rw [← isSome_scarcity?_iff]
  cases f.scarcity? n <;> simp

/-- The candidate `c` replaces the best one so far only if its score is less. -/
def better (best : Option Choice) (c : Choice) : Option Choice :=
  if beaten best c.score then best else some c

/-- A score that does not beat the best one so far beats it even less when the path is added. -/
theorem beaten_mono {best : Option Choice} {score score' : Nat} (hle : score ≤ score')
    (h : beaten best score = true) : beaten best score' = true := by
  cases best with
  | none => exact h
  | some c => exact decide_eq_true ((of_decide_eq_true h).trans hle)

/-- Looking for the path only where it may matter makes no difference. -/
theorem consider_eq (best : Option Choice) (n : Node) :
    f.consider b target best n = (f.rate b target n).elim best (better best) := by
  unfold consider rate
  cases f.scarcity? n with
  | none => rfl
  | some scarcity =>
    dsimp only [Option.bind_some]
    split
    · next hbeaten =>
      cases b.path? n target with
      | none => rfl
      | some r =>
        have hbeaten' := beaten_mono (Nat.le_add_right _ r.1) hbeaten
        exact (if_pos hbeaten').symm
    · cases b.path? n target <;> rfl

/-- Of the candidates that are rated, the best one after the whole list is the first one with the least
score. -/
theorem foldl_better (l : List Choice) : l.foldl better none = l.argmin Choice.score := by
  unfold List.argmin
  refine congrArg (fun step => l.foldl step none) (funext fun best => funext fun c => ?_)
  cases best with
  | none => rfl
  | some best =>
    by_cases hless : c.score < best.score <;> simp [better, beaten, List.argAux, hless]

theorem foldl_consider (candidates : List Node) (best : Option Choice) :
    candidates.foldl (f.consider b target) best =
      (candidates.filterMap (f.rate b target)).foldl better best := by
  induction candidates generalizing best with
  | nil => rfl
  | cons n ns ih =>
    rw [List.foldl_cons, ih, consider_eq, List.filterMap_cons]
    cases f.rate b target n <;> rfl

/-- The choice is the one of the plain search: of the candidates that are magic states of the factories or
storages and have a path to the target, the first one with the least score, with that path. Nothing is
chosen only if there is no such candidate; and on the graph of a board, a path is missing only between
nodes that are not linked. -/
theorem choose_eq_first_least (f : Factories) (b : Board) (candidates : List Node) (target : Node) :
    f.choose b candidates target =
      ((candidates.filterMap (f.rate b target)).argmin Choice.score).map (fun c => (c.node, c.path)) ∧
    (f.choose b candidates target = none ↔
      ∀ n ∈ candidates, f.Offers n → b.path? n target = none) ∧
    (b.graph.WellFormed → (f.choose b candidates target = none ↔ ∀ n ∈ candidates, f.Offers n →
      ¬ (b.graph.hasNode n = true ∧ b.graph.hasNode target = true ∧ b.graph.Linked n target))) := by
  have hplain : f.choose b candidates target =
      ((candidates.filterMap (f.rate b target)).argmin Choice.score).map
        fun c => (c.node, c.path) := by
    rw [choose, foldl_consider, foldl_better]
  have hnone : f.choose b candidates target = none ↔
      ∀ n ∈ candidates, f.Offers n → b.path? n target = none := by
    rw [hplain, Option.map_eq_none_iff, List.argmin_eq_none, List.filterMap_eq_nil_iff]
    exact forall_congr' fun n => imp_congr_right fun _ => rate_eq_none_iff
  refine ⟨hplain, hnone, fun hb => hnone.trans ?_⟩
  refine forall_congr' fun n => imp_congr_right fun _ => imp_congr_right fun _ => ?_
  exact shortestPath?_eq_none_iff hb

/-- A row of bus tiles with a magic state at its left end, a storage at its right end and two more magic
states above it; a data patch lies next to the storage. -/
def choosingLayout : Layout where
  bus := SortedSet.ofList [⟨0, 0⟩, ⟨1, 0⟩, ⟨2, 0⟩, ⟨3, 0⟩, ⟨4, 0⟩]
  data := SortedSet.ofList [⟨4, 1⟩]
  magic := SortedSet.ofList [⟨-1, 0⟩, ⟨0, 1⟩, ⟨2, 1⟩]
  zero := ∅
  storage := SortedSet.ofList [⟨5, 0⟩]

/-- Candidates, some of them twice; there is no magic state with the number 9. -/
def choosingCandidates : List Node :=
  [.boundary .storage 0 .Z, .boundary .magic 9 .Z, .boundary .magic 1 .Z, .boundary .magic 0 .Z,
    .boundary .magic 1 .Z]

/-- Two magic states that are equally far away and equally plentiful: the first one of the list is chosen,
over the storage before it, which is closer. The other boundary of the patch has no neighbour. -/
theorem choosingLayout_first_least : ∃ b f b', Board.ofLayout choosingLayout = .ok b ∧
    setUp b 0 2 = .ok (f, b') ∧
    choose (f.takeStock b').2 b' ([.bus 1] ++ choosingCandidates) (.qubit 0 .X) =
      some (.boundary .magic 1 .Z,
        [.boundary .magic 1 .Z, .bus 0, .bus 1, .bus 2, .bus 3, .bus 4, .qubit 0 .X]) ∧
    b'.graph.WellFormed ∧ choose (f.takeStock b').2 b' choosingCandidates (.qubit 0 .Z) = none ∧
    ∀ n ∈ choosingCandidates, (f.takeStock b').2.Offers n →
      ¬ (b'.graph.hasNode n = true ∧ b'.graph.hasNode (.qubit 0 .Z) = true ∧
        b'.graph.Linked n (.qubit 0 .Z)) := by
  have hrun : (Board.ofLayout choosingLayout).toOption.any (fun b =>
      (setUp b 0 2).toOption.any fun r =>
        decide (choose (r.1.takeStock r.2).2 r.2 ([.bus 1] ++ choosingCandidates) (.qubit 0 .X) =
            some (.boundary .magic 1 .Z,
              [.boundary .magic 1 .Z, .bus 0, .bus 1, .bus 2, .bus 3, .bus 4, .qubit 0 .X]) ∧
          choose (r.1.takeStock r.2).2 r.2 choosingCandidates (.qubit 0 .Z) = none)) = true := by
    decide +kernel
  obtain ⟨b, hb, hrun⟩ := exists_of_any_toOption hrun
  obtain ⟨⟨f, b'⟩, hsetup, hrun⟩ := exists_of_any_toOption hrun
  obtain ⟨hchosen, hnone⟩ := of_decide_eq_true hrun
  have hwell : b'.graph.WellFormed := (sound_of_setUp (Board.ofLayout_spec hb).1 hsetup).graph
  obtain ⟨-, -, hlinked⟩ :=
    choose_eq_first_least (f.takeStock b').2 b' choosingCandidates (.qubit 0 .Z)
  exact ⟨b, f, b', hb, hsetup, hchosen, hwell, hnone, (hlinked hwell).1 hnone⟩

end Factories

end LatticeSurgery
