import LatticeSurgery.Proofs.Cache.Hits
import LatticeSurgery.Proofs.Packing.Commuting
import LatticeSurgery.Proofs.Packing.Soundness
import LatticeSurgery.Schedule.Run

/-!
# Packing leaves the marks of its commitments

When storages are not seen to, packing a tick does to the board and the factories what committing the
packed rotations does, and nothing else: a rotation that is put off or fails on the way leaves no trace
(`pack_only_commits`). So a tick in which the same packings are used again ends on the same board and
with the same factories, in whatever order the cache returns them.
-/

namespace LatticeSurgery

open Ordered WordSource

namespace Packer

variable {b b' : Board} {f f' : Factories} {p : Packer}

theorem Concludes.frame {outcome : Outcome} {d d' : Desk} (h : Concludes outcome d d')
    (hnot : ∀ q, outcome ≠ .packed q) : d' = d := by
  cases h with
  | unpacked _ => rfl
  | packed _ _ _ => exact absurd rfl (hnot _)

/-- A rotation that is not packed leaves everything on the desk as it was, apart from the caches. -/
theorem frame_of_packRotation {r : Rotation} {d d' : Desk} {outcome : Outcome}
    (h : packRotation r d = .ok (outcome, d')) (hnot : ∀ q, outcome ≠ .packed q) :
    ∃ packer, d' = { d with packer := packer } := by
  rcases cases_of_packRotation h with h | ⟨found, d₁, -, hconnect, h⟩
  · exact ⟨d.packer, h.frame hnot⟩
  · obtain ⟨packer, -, rfl⟩ := frame_of_connectQubits hconnect
    exact ⟨packer, h.frame hnot⟩

/-- Packing commits what it packs, when storages are not seen to. -/
theorem commitAll_of_pack {σ : Type} [WordSource σ] {rotations : List Rotation} {rng : σ}
    {r : Result σ} (hstore : p.store = .never) (hreset : p.reset = .never)
    (h : p.pack rotations b f rng = .ok r) :
    commitAll p.turnTicks r.packed b f = .ok (r.board, r.factories) := by
  obtain ⟨b₀, b₁, hbefore, hcommits, hafter⟩ := exists_course h
  rw [runStorages_never hstore hreset (by simp)] at hbefore hafter
  cases hbefore
  cases hafter
  exact hcommits

end Packer

namespace Run

variable {σ : Type} [WordSource σ] {s : Run σ} {available : SortedSet Node}
  {rotations : List Rotation}

/-- Packings that the cache returns are committed, and the reuse is counted. -/
theorem packOrReuse_of_commitAll {b : Board} {f : Factories}
    (hfound : s.cache.find (PackingCache.key available rotations) rotations s.board ≠ [])
    (h : commitAll s.packer.turnTicks
      (s.cache.find (PackingCache.key available rotations) rotations s.board) s.board s.factories =
        .ok (b, f)) :
    s.packOrReuse available rotations = (countPlus s.cacheHits 1).map fun hits =>
      (s.cache.find (PackingCache.key available rotations) rotations s.board,
        { s with board := b, factories := f, cacheHits := hits }) := by
  unfold packOrReuse
  dsimp only
  split
  · next hnil => exact absurd hnil hfound
  · rw [h]
    cases countPlus s.cacheHits 1 <;> rfl

end Run

namespace Packer

/-- On a board of a layout, and with storages that are not seen to, packing ends on the board and with
the factories that committing the packed rotations leads to, in the order in which they are returned.
Neither round is left with a trace of a rotation that it did not pack. And a tick for which the cache
returns the same packings, in any order, ends on that board and with those factories, if the reuse can be
counted. -/
theorem pack_only_commits {σ : Type} [WordSource σ] {l : Layout} {p : Packer} (hp : Packer.Used l p)
    {b : Board} (hb : Board.Stage l b) (f : Factories) (rng : σ) (rotations : List Rotation)
    (hstore : p.store = .never) (hreset : p.reset = .never) :
    (Ends (p.pack rotations b f rng) (p.Stops rng rotations) fun r =>
      commitAll p.turnTicks r.packed b f = .ok (r.board, r.factories) ∧
      ∀ (s : Run σ) (available : SortedSet Node), s.board = b → s.factories = f →
        s.packer.turnTicks = p.turnTicks → r.packed ≠ [] →
        (s.cache.find (PackingCache.key available rotations) rotations b).Perm r.packed →
        s.packOrReuse available rotations = (countPlus s.cacheHits 1).map fun hits =>
          (s.cache.find (PackingCache.key available rotations) rotations b,
            { s with board := r.board, factories := r.factories, cacheHits := hits })) ∧
    (∀ (r : Rotation) (b b' : Board) (f f' : Factories) (rng rng' : σ) (outcome : Outcome),
      packTurn p.turnTicks r b f rng = .ok (outcome, b', f', rng') →
      (∀ q, outcome ≠ .packed q) → b' = b ∧ f' = f) ∧
    ∀ (r : Rotation) (d d' : Desk) (outcome : Outcome), packRotation r d = .ok (outcome, d') →
      (∀ q, outcome ≠ .packed q) → ∃ packer, d' = { d with packer := packer } := by
  refine ⟨?_, fun r b b' f f' rng rng' outcome h hnot => ?_,
    fun r d d' outcome => frame_of_packRotation⟩
  · cases hpack : p.pack rotations b f rng with
    | error e => exact (pack_ends hp.sound hb.sound f rng rotations).of_error hpack
    | ok r =>
      have hcommits := commitAll_of_pack hstore hreset hpack
      have hresult := (pack_ends hp.sound hb.sound f rng rotations).of_ok hpack
      refine ⟨hcommits, ?_⟩
      rintro s available rfl rfl hturnTicks hpacked hperm
      refine Run.packOrReuse_of_commitAll (fun hnil => hpacked ?_) ?_
      · rw [hnil] at hperm
        exact List.nil_perm.1 hperm
      · rw [hturnTicks]
        exact commitAll_of_perm hperm.symm hb.sound (fun q hq => (hresult.fresh q hq).serves) hcommits
  · rcases commits_of_packTurn h with ⟨q, hq, -⟩ | ⟨-, hboard, hfactories⟩
    · exact absurd hq (hnot q)
    · exact ⟨hboard, hfactories⟩

/-- The state before a tick in which the rotations of the bench are to be done, with some packings in
the cache. -/
def benchRun (b : Board) (ps : List Packed) : Run CyclicWords where
  board := b
  factories := benchFactories
  progress := Progress.ofCircuit (Circuit.ofRotations "bench" benchRotations 3) .full
  packer := Packer.new 3 .never .never
  cache := PackingCache.insert ∅ (PackingCache.key ∅ benchRotations) ps
  log := ∅
  candidates := ∅
  idleTicks := 0
  cacheHits := 0
  rng := ⟨[0], 0⟩

/-- What the cache returns for that tick. -/
def benchFound (b : Board) (ps : List Packed) : List Packed :=
  (benchRun b ps).cache.find (PackingCache.key ∅ benchRotations) benchRotations b

/-- On the bench, the turn is packed first and the π/8 rotation second. The cache returns them the
other way round, and committing them again comes to the same. -/
theorem benchRotations_only_commit : ∃ b, Board.ofLayout benchLayout = .ok b ∧
    ∃ r, (Packer.new 3 .never .never).pack benchRotations b benchFactories
      (⟨[0], 0⟩ : CyclicWords) = .ok r ∧ r.packed.length = 2 ∧
      commitAll 3 r.packed b benchFactories = .ok (r.board, r.factories) ∧
      benchFound b r.packed ≠ r.packed ∧
      (benchRun b r.packed).packOrReuse ∅ benchRotations = .ok (benchFound b r.packed,
        { benchRun b r.packed with board := r.board, factories := r.factories, cacheHits := 1 }) := by
  have hrun : (Board.ofLayout benchLayout).toOption.any (fun b =>
      ((Packer.new 3 .never .never).pack benchRotations b benchFactories
        (⟨[0], 0⟩ : CyclicWords)).toOption.any fun r =>
          decide (r.packed.length = 2) && decide (benchFound b r.packed ≠ r.packed) &&
            decide ((benchFound b r.packed).Perm r.packed)) = true := by decide +kernel
  obtain ⟨b, hb, hrun⟩ := exists_of_any_toOption hrun
  obtain ⟨r, hr, hrun⟩ := exists_of_any_toOption hrun
  simp only [Bool.and_eq_true, decide_eq_true_eq] at hrun
  obtain ⟨⟨hlength, hne⟩, hperm⟩ := hrun
  have hends := (pack_only_commits (l := benchLayout) (.new 3 .never .never) (.ofLayout hb)
    benchFactories (⟨[0], 0⟩ : CyclicWords) benchRotations rfl rfl).1
  obtain ⟨hcommits, hreplay⟩ := Ends.of_ok hends hr
  have hpacked : r.packed ≠ [] := fun hnil => by
    rw [hnil] at hlength
    cases hlength
  exact ⟨b, hb, r, hr, hlength, hcommits, hne,
    hreplay (benchRun b r.packed) ∅ rfl rfl rfl hpacked hperm⟩

end Packer

end LatticeSurgery
