import LatticeSurgery.Proofs.Packing.Course
import LatticeSurgery.Proofs.Packing.SecondRound

/-!
# The two rounds of a tick

`Packer.exists_rounds` takes a packed tick apart into its two rounds. What the rounds do for single
rotations follows: no rotation is packed on a busy patch, measurements of a single boundary are packed
whenever their patch is free, and the trees that are routed do not meet, however long a turn takes.
-/

namespace LatticeSurgery

open Ordered WordSource

namespace Packer

open Packed

variable {σ : Type} [WordSource σ] {b b' : Board} {f : Factories} {rng : σ} {turnTicks : Int}
  {rotations : List Rotation} {p : Packer} {r : Rotation} {result : Result σ}

/-! ## The first round -/

section FirstRound

variable {busy : SortedSet Nat} {magicFree : Bool} {s s' : FirstRound σ}

/-- The first round goes on with what it has packed. -/
theorem subset_of_firstRound {rs : List Rotation}
    (h : firstRound turnTicks busy magicFree rs s = .ok s') : s.packed ⊆ s'.packed := by
  obtain ⟨ps, hpacked, -⟩ := commits_of_firstRound h
  rw [hpacked]
  exact List.subset_append_left _ _

/-- What is left for the second round is to be routed. -/
theorem triage_of_mem_remaining {rs : List Rotation}
    (h : firstRound turnTicks busy magicFree rs s = .ok s')
    (hs : ∀ r ∈ s.remaining, triage busy magicFree r = .route) :
    ∀ r ∈ s'.remaining, triage busy magicFree r = .route := by
  induction rs generalizing s with
  | nil =>
    cases h
    exact hs
  | cons r rs ih =>
    obtain ⟨s₁, hstep, hrest⟩ := FirstRound.exists_step h
    refine ih hrest ?_
    cases hstep with
    | route htriage => exact List.forall_mem_append.2 ⟨hs, List.forall_mem_singleton.2 htriage⟩
    | defer | alone | turn => exact hs

/-- What is to be packed alone is packed in the first round. -/
theorem mem_of_triage_alone {rs : List Rotation}
    (h : firstRound turnTicks busy magicFree rs s = .ok s') (hr : r ∈ rs) {tree : Tree}
    (halone : triage busy magicFree r = .alone tree) : ⟨r, tree, none⟩ ∈ s'.packed := by
  induction rs generalizing s with
  | nil => cases hr
  | cons r' rs ih =>
    rcases List.mem_cons.1 hr with rfl | hr
    · unfold firstRound at h
      rw [halone] at h
      exact subset_of_firstRound h (List.mem_append_right _ (List.mem_singleton.2 rfl))
    · obtain ⟨s₁, -, hrest⟩ := FirstRound.exists_step h
      exact ih hrest hr

/-- A rotation is routed only if its patches are free. -/
theorem disjoint_of_triage_route (h : triage busy magicFree r = .route) :
    r.activeQubits.disjoint busy = true := by
  unfold triage at h
  dsimp only at h
  split at h
  · split at h
    · next hfree => exact (Bool.and_eq_true _ _ ▸ hfree).2
    · cases h
  · split at h
    · split at h <;> cases h
    · split at h
      · next hfree => exact hfree
      · cases h
  · split at h <;> cases h
  · split at h
    · next hfree => exact hfree
    · cases h

/-- Turns are not routed. -/
theorem kind_of_triage_route (h : triage busy magicFree r = .route) : r.kind ≠ .turn := by
  intro hk
  simp only [triage, hk] at h
  split at h <;> cases h

/-- A measurement of a single boundary is packed alone if its patch is free. -/
theorem triage_of_lone (hk : r.kind = .measurement) {n : Node} (hn : r.activeNodes.toList = [n])
    (hfree : r.activeQubits.disjoint busy = true) :
    triage busy magicFree r = .alone (Tree.single n) := by
  unfold triage
  dsimp only
  rw [hk, hn, hfree]
  rfl

end FirstRound

/-! ## Both rounds -/

/-- Patches are free when they were so before storages were seen to. -/
theorem freeOn_congr (hb : b.Sound) (hb' : b'.Sound) (h : b.SparesData b') :
    FreeOn b' r ↔ FreeOn b r := by
  have hsame : ∀ q basis, Node.qubit q basis ∈ b'.unavailable ↔ Node.qubit q basis ∈ b.unavailable :=
    fun q basis => by rw [hb.mem_unavailable, hb'.mem_unavailable, h q basis]
  simp only [FreeOn, hsame]

variable (hp : p.Sound) (hb : b.Sound) (h : p.pack rotations b f rng = .ok result)

include hp hb h

/-- A tick is packed in two rounds, which begin on the board `b₀` when the storages have been seen to;
the second one goes through what the first one leaves. -/
theorem exists_secondRound : ∃ b₀ first d₀ d, b₀.Sound ∧ b.SparesData b₀ ∧
    firstRound p.turnTicks b₀.busyQubits (!(stockOf b₀).magic.isEmpty) rotations
      ⟨[], [], b₀, f, p.fails, rng⟩ = .ok first ∧
    first.Sound p.turnTicks b₀ f rng rotations ∧
    Routes first.board
      (first.board.openPart.removeNodes (first.packed.flatMap fun q => q.tree.nodes)).graph [] [] d₀ ∧
    d₀.packer.trees = p.trees ∧
    secondRound first.remaining first.packed d₀ = .ok (result.packed, d) ∧
    result.packer = d.packer := by
  unfold pack at h
  obtain ⟨b₀, hbefore, h⟩ := exists_of_bind_eq_ok h
  dsimp only at h
  obtain ⟨first, hfirst, h⟩ := exists_of_bind_eq_ok h
  obtain ⟨⟨packed, d⟩, hsecond, h⟩ := exists_of_bind_eq_ok h
  obtain ⟨b₂, -, h⟩ := exists_of_bind_eq_ok h
  cases h
  obtain ⟨hoccupies, hspares⟩ := (runStorages_ends p .beforePacking hb).of_ok hbefore
  have hb₀ := hoccupies.sound
  have hsound := (firstRound_ends hb₀ _ rotations
    (FirstRound.Sound.start hb₀ f p.fails rng)).of_ok hfirst
  rw [List.nil_append] at hsound
  exact ⟨b₀, first, _, d, hb₀, hspares, hfirst, hsound,
    Routes.start hb₀ hsound (hp.with_fails first.fails), rfl, hsecond, rfl⟩

/-- What the second round has routed in the end. -/
theorem exists_rounds : ∃ b₀ first d routed, b₀.Sound ∧ b.SparesData b₀ ∧
    firstRound p.turnTicks b₀.busyQubits (!(stockOf b₀).magic.isEmpty) rotations
      ⟨[], [], b₀, f, p.fails, rng⟩ = .ok first ∧
    first.Sound p.turnTicks b₀ f rng rotations ∧
    Routes first.board
      (first.board.openPart.removeNodes (first.packed.flatMap fun q => q.tree.nodes)).graph
      first.remaining routed d ∧
    result.packed = first.packed ++ routed := by
  obtain ⟨b₀, first, d₀, d, hb₀, hspares, hfirst, hsound, hstart, -, hsecond, -⟩ :=
    exists_secondRound hp hb h
  have hrounds := secondRound_ends hsound.occupies.sound first.packed first.remaining hstart
  rw [List.append_nil, List.nil_append] at hrounds
  obtain ⟨-, -, -, routed, hpacked, hroutes⟩ := hrounds.of_ok hsecond
  exact ⟨b₀, first, d, routed, hb₀, hspares, hfirst, hsound, hroutes, hpacked⟩

/-- Nothing is packed on a busy patch. -/
theorem freeOn_of_pack {q : Packed} (hq : q ∈ result.packed) : FreeOn b q.rotation := by
  obtain ⟨b₀, first, d, routed, hb₀, hspares, hfirst, hsound, hroutes, hpacked⟩ :=
    exists_rounds hp hb h
  rw [← freeOn_congr hb hb₀ hspares]
  rcases List.mem_append.1 (hpacked ▸ hq) with hq | hq
  · exact hsound.free q hq
  · have hroute := triage_of_mem_remaining hfirst (by simp) q.rotation
      (hroutes.order.subset (List.mem_map_of_mem hq))
    exact freeOn_iff.2 (disjoint_of_triage_route hroute)

/-- A measurement of a single boundary is packed whenever its patch is free. -/
theorem exists_packed_of_lone (hr : r ∈ rotations) (hk : r.kind = .measurement) {n : Node}
    (hn : r.activeNodes.toList = [n]) (hfree : FreeOn b r) :
    ∃ q ∈ result.packed, q.rotation = r := by
  obtain ⟨b₀, first, d, routed, hb₀, hspares, hfirst, -, -, hpacked⟩ := exists_rounds hp hb h
  have halone : triage b₀.busyQubits (!(stockOf b₀).magic.isEmpty) r = .alone (Tree.single n) :=
    triage_of_lone hk hn (freeOn_iff.1 ((freeOn_congr hb hb₀ hspares).2 hfree))
  rw [hpacked]
  exact ⟨_, List.mem_append_left _ (mem_of_triage_alone hfirst hr halone), rfl⟩

/-- The trees of rotations that are not rigid do not meet, however long turns take. -/
theorem apart_of_not_rigid : result.packed.Pairwise fun q q' =>
    q.rotation.isRigid = false → q'.rotation.isRigid = false → q.Apart q' := by
  obtain ⟨b₀, first, d, routed, -, -, -, hsound, hroutes, hpacked⟩ := exists_rounds hp hb h
  have hfirst : ∀ q ∈ first.packed, ¬ q.rotation.isRigid = false := fun q hq hnot => by
    rw [hsound.rigid q hq] at hnot
    cases hnot
  rw [hpacked]
  refine List.pairwise_append.2 ⟨?_, hroutes.apart.imp fun hapart _ _ => hapart,
    fun q hq _ _ hnot => absurd hnot (hfirst q hq)⟩
  exact List.pairwise_of_forall_mem_list fun q hq _ _ hnot => absurd hnot (hfirst q hq)

end Packer

end LatticeSurgery
