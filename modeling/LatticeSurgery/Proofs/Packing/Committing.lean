import LatticeSurgery.Packing.Packer
import LatticeSurgery.Proofs.Board.Occupies
import LatticeSurgery.Proofs.Tree.Assembly

/-!
# Committing packed rotations

A packed rotation holds its resource when the nodes of the resource belong to its tree
(`Packed.Holds`), and is ready on a board when the resource is ready there (`Packed.ReadyOn`).
Committing such a rotation succeeds and occupies nodes of its tree only, so rotations with trees
that do not meet can be committed one after the other.
-/

namespace LatticeSurgery

open Ordered

/-- Two factories that differ in their stock only. -/
structure Factories.SameSetup (f f' : Factories) : Prop where
  replenishTicks : f'.replenishTicks = f.replenishTicks
  tick : f'.tick = f.tick
  groups : f'.groups = f.groups

namespace Factories.SameSetup

variable {f f' f'' : Factories}

theorem refl (f : Factories) : f.SameSetup f := ⟨rfl, rfl, rfl⟩

theorem trans (h : f.SameSetup f') (h' : f'.SameSetup f'') : f.SameSetup f'' :=
  ⟨h'.replenishTicks.trans h.replenishTicks, h'.tick.trans h.tick, h'.groups.trans h.groups⟩

theorem mark (f : Factories) (inStock : Bool) (n : Node) : f.SameSetup (f.mark inStock n) :=
  ⟨rfl, rfl, rfl⟩

end Factories.SameSetup

namespace Packed

variable {p q : Packed} {b b' : Board} {turnTicks : Int}

/-- The trees of two packed rotations do not meet. -/
def Apart (p q : Packed) : Prop := ∀ n, p.tree.contains n = true → q.tree.contains n = false

theorem Apart.symm (h : p.Apart q) : q.Apart p := by
  intro n hn
  by_contra hp
  rw [Bool.not_eq_false] at hp
  rw [h n hp] at hn
  cases hn

/-- The nodes of the resource belong to the tree. -/
def Holds (p : Packed) : Prop :=
  match p.resource with
  | some (.magicState n) => p.tree.contains n = true
  | some (.storage n) => p.tree.contains n = true
  | some (.zeroState id) =>
    p.tree.contains (.zero id .X) = true ∧ p.tree.contains (.zero id .Z) = true
  | some (.bus _) => True
  | none => True

/-- The resource is ready on a board. For a turn this means that the nodes of its tree are open, or
are counting down from the start of a turn already. -/
def ReadyOn (b : Board) (turnTicks : Int) (p : Packed) : Prop :=
  match p.resource with
  | some (.magicState n) => n.kind = .patch .magic ∧ b.ticksOf n = some 0
  | some (.storage n) => n.kind = .patch .storage ∧ b.ticksOf n = some 0
  | some (.zeroState id) => b.ticksOf (.zero id .X) = some 0 ∧ b.ticksOf (.zero id .Z) = some 0
  | some (.bus _) => ∀ n, p.tree.contains n = true →
    n.kind ≠ .patch .magic ∧ b.graph.hasNode n = true ∧
      (n ∉ b.unavailable ∨ b.ticksOf n = some turnTicks)
  | none => True

/-- The packed rotation occupies the nodes of a turn. -/
def Turning (p : Packed) : Prop := ∃ n, p.resource = some (.bus n)

/-- What committing a packed rotation does to a board. -/
structure Commits (b : Board) (p : Packed) (turnTicks : Int) (b' : Board) : Prop where
  occupies : b.Occupies b'
  frame : ∀ n, p.tree.contains n = false → b'.ticksOf n = b.ticksOf n
  data : ¬ p.Turning → b.SparesData b'
  turn : p.Turning → ∀ n, p.tree.contains n = true → b'.ticksOf n = some turnTicks

theorem not_turning_of_resource {x : Option Resource} (h : p.resource = x)
    (hx : ∀ n, x ≠ some (.bus n)) : ¬ p.Turning := by
  rintro ⟨n, hn⟩
  exact hx n (h.symm.trans hn)

/-- A rotation that is not a turn is committed by setting ready nodes of its tree, none of them a
boundary of a data patch. -/
theorem commits_of_setTo {ns : List Node} {t : Int} (hb : b.Sound) (h : b.SetTo ns t b')
    (hturning : ¬ p.Turning) (hns : ∀ n ∈ ns, p.tree.contains n = true ∧ n.kind ≠ .patch .qubit ∧
      b.ticksOf n = some 0) (hmagic : ∀ n ∈ ns, n.kind = .patch .magic → t = Phase.depletedTicks) :
    Commits b p turnTicks b' := by
  have hopen : ∀ n ∈ ns, n ∉ b.unavailable := by
    intro n hn hclosed
    obtain ⟨t', ht', hclosed⟩ := hb.mem_unavailable.1 hclosed
    rw [(hns n hn).2.2, Option.some_inj] at ht'
    subst ht'
    unfold Node.isClosed at hclosed
    split at hclosed <;> simp at hclosed
  refine ⟨h.occupies hb (fun n hn => Or.inl (hopen n hn)) hmagic, fun n hn => ?_, fun _ => ?_,
    fun hturn => absurd hturn hturning⟩
  · rw [h.ticks, if_neg]
    intro hmem
    rw [(hns n hmem).1] at hn
    cases hn
  · exact h.sparesData fun n hn => (hns n hn).2.1

/-! ## Each kind of resource -/

variable {n : Node}

theorem commit_magicState (hb : b.Sound) (f : Factories)
    (hresource : p.resource = some (.magicState n)) (hn : p.tree.contains n = true)
    (hkind : n.kind = .patch .magic) (hzero : b.ticksOf n = some 0) :
    ∃ b', commit b f p turnTicks = .ok (b', f.consume n) ∧ p.Commits b turnTicks b' := by
  obtain ⟨b', hok, hset⟩ :=
    Board.exists_setTick hb (hb.hasNode_of_ticksOf hzero) (Node.means_depleted hkind)
  have hturning : ¬ p.Turning := not_turning_of_resource hresource (by simp)
  refine ⟨b', ?_, commits_of_setTo hb hset hturning (fun m hm => ?_) fun _ _ _ => rfl⟩
  · unfold commit
    rw [hresource]
    dsimp only
    rw [hok]
    rfl
  · rw [List.mem_singleton.1 hm]
    exact ⟨hn, by simp [hkind], hzero⟩

theorem commit_storage (hb : b.Sound) (f : Factories)
    (hresource : p.resource = some (.storage n)) (hn : p.tree.contains n = true)
    (hkind : n.kind = .patch .storage) (hzero : b.ticksOf n = some 0) :
    ∃ b', commit b f p turnTicks = .ok (b', f) ∧ p.Commits b turnTicks b' := by
  obtain ⟨b', hok, hset⟩ := Board.exists_setTick hb (hb.hasNode_of_ticksOf hzero)
    (Node.means_storage (t := Phase.consumedTicks) hkind (Or.inl rfl))
  have hturning : ¬ p.Turning := not_turning_of_resource hresource (by simp)
  refine ⟨b', ?_, commits_of_setTo hb hset hturning (fun m hm => ?_) fun m hm hmagic => ?_⟩
  · unfold commit
    rw [hresource]
    dsimp only
    rw [if_pos hzero, hok]
    rfl
  · rw [List.mem_singleton.1 hm]
    exact ⟨hn, by simp [hkind], hzero⟩
  · rw [List.mem_singleton.1 hm, hkind] at hmagic
    cases hmagic

theorem commit_zeroState {id : Nat} (hb : b.Sound) (f : Factories)
    (hresource : p.resource = some (.zeroState id))
    (hn : ∀ basis, p.tree.contains (.zero id basis) = true)
    (hzero : ∀ basis, b.ticksOf (.zero id basis) = some 0) :
    ∃ b', commit b f p turnTicks = .ok (b', f) ∧ p.Commits b turnTicks b' := by
  have hnodes : ∀ n ∈ [Node.zero id .X, Node.zero id .Z], ∃ basis, n = .zero id basis := by
    intro n hn
    rw [List.mem_pair] at hn
    rcases hn with rfl | rfl
    · exact ⟨.X, rfl⟩
    · exact ⟨.Z, rfl⟩
  obtain ⟨b', hok, hset⟩ : ∃ b', b.setTicks [.zero id .X, .zero id .Z] 1 = .ok b' ∧
      b.SetTo [.zero id .X, .zero id .Z] 1 b' := by
    refine Board.exists_setTicks hb fun n hn => ?_
    obtain ⟨basis, rfl⟩ := hnodes n hn
    exact ⟨hb.hasNode_of_ticksOf (hzero basis), Node.means_of_nonneg (by omega)⟩
  have hturning : ¬ p.Turning := not_turning_of_resource hresource (by simp)
  refine ⟨b', ?_, commits_of_setTo hb hset hturning (fun m hm => ?_) fun m hm hmagic => ?_⟩
  · unfold commit
    rw [hresource]
    dsimp only
    rw [hok]
    rfl
  · obtain ⟨basis, rfl⟩ := hnodes m hm
    exact ⟨hn basis, by simp [Node.kind], hzero basis⟩
  · obtain ⟨basis, rfl⟩ := hnodes m hm
    cases hmagic

/-- A turn is committed unless its countdown is negative. -/
theorem commit_bus_ends (hb : b.Sound) (f : Factories) (hresource : p.resource = some (.bus n))
    (hready : ∀ m, p.tree.contains m = true → m.kind ≠ .patch .magic ∧ b.graph.hasNode m = true ∧
      (m ∉ b.unavailable ∨ b.ticksOf m = some turnTicks)) :
    Ends (commit b f p turnTicks) (fun _ => turnTicks < 0)
      fun r => p.Commits b turnTicks r.1 ∧ r.2 = f := by
  have hturning : p.Turning := ⟨n, hresource⟩
  unfold commit
  rw [hresource]
  dsimp only
  refine Ends.bind (Board.setTicks_ends_of_hasNode hb fun m hm =>
    (hready m (Tree.mem_nodes.1 hm)).2.1) ?_
  intro b' hset
  refine ⟨⟨hset.occupies hb (fun m hm => (hready m (Tree.mem_nodes.1 hm)).2.2) ?_, fun m hm => ?_,
    fun hnot => absurd hturning hnot, fun _ m hm => ?_⟩, rfl⟩
  · exact fun m hm hmagic => absurd hmagic (hready m (Tree.mem_nodes.1 hm)).1
  · rw [hset.ticks, if_neg]
    rw [Tree.mem_nodes, hm]
    simp
  · rw [hset.ticks, if_pos (Tree.mem_nodes.2 hm)]

/-! ## Committing -/

/-- Committing a packed rotation whose resource is ready succeeds, unless the countdown of a turn is
negative. -/
theorem commit_ends (hb : b.Sound) (f : Factories) (hholds : p.Holds)
    (hready : p.ReadyOn b turnTicks) :
    Ends (commit b f p turnTicks) (fun _ => p.Turning ∧ turnTicks < 0)
      fun r => p.Commits b turnTicks r.1 ∧ f.SameSetup r.2 := by
  unfold Holds at hholds
  unfold ReadyOn at hready
  cases hresource : p.resource with
  | none =>
    have hturning : ¬ p.Turning := not_turning_of_resource hresource (by simp)
    unfold commit
    rw [hresource]
    exact ⟨⟨Board.Occupies.refl hb, fun _ _ => rfl, fun _ _ _ => rfl,
      fun hturn => absurd hturn hturning⟩, Factories.SameSetup.refl f⟩
  | some resource =>
    rw [hresource] at hholds hready
    cases resource with
    | magicState n =>
      obtain ⟨b', hok, hcommits⟩ := commit_magicState hb f hresource hholds hready.1 hready.2
      rw [hok]
      exact ⟨hcommits, Factories.SameSetup.mark f false n⟩
    | storage n =>
      obtain ⟨b', hok, hcommits⟩ := commit_storage hb f hresource hholds hready.1 hready.2
      rw [hok]
      exact ⟨hcommits, Factories.SameSetup.refl f⟩
    | zeroState id =>
      obtain ⟨b', hok, hcommits⟩ := commit_zeroState hb f hresource
        (fun basis => by cases basis; exacts [hholds.1, hholds.2])
        (fun basis => by cases basis; exacts [hready.1, hready.2])
      rw [hok]
      exact ⟨hcommits, Factories.SameSetup.refl f⟩
    | bus n =>
      refine (commit_bus_ends hb f hresource hready).mono (fun _ hneg => ⟨⟨n, hresource⟩, hneg⟩) ?_
      rintro ⟨b', f'⟩ ⟨hcommits, rfl⟩
      exact ⟨hcommits, Factories.SameSetup.refl _⟩

/-- A resource other than a bus tile is ready wherever the nodes of the tree have the same
countdowns. -/
theorem ReadyOn.congr {turnTicks' : Int} (hready : p.ReadyOn b turnTicks) (hholds : p.Holds)
    (hturning : ¬ p.Turning) (hkeep : ∀ n, p.tree.contains n = true → b'.ticksOf n = b.ticksOf n) :
    p.ReadyOn b' turnTicks' := by
  unfold Holds at hholds
  unfold ReadyOn at hready ⊢
  split
  · next n hresource =>
    rw [hresource] at hholds hready
    exact ⟨hready.1, (hkeep n hholds).trans hready.2⟩
  · next n hresource =>
    rw [hresource] at hholds hready
    exact ⟨hready.1, (hkeep n hholds).trans hready.2⟩
  · next id hresource =>
    rw [hresource] at hholds hready
    exact ⟨(hkeep _ hholds.1).trans hready.1, (hkeep _ hholds.2).trans hready.2⟩
  · next n hresource => exact absurd ⟨n, hresource⟩ hturning
  · trivial

/-- Committing a rotation leaves a rotation with a tree apart from it ready. -/
theorem ReadyOn.of_commits (hb : b.Sound) (hready : p.ReadyOn b turnTicks) (hholds : p.Holds)
    (hapart : q.Apart p) (hq : q.Commits b turnTicks b') : p.ReadyOn b' turnTicks := by
  have hkeep : ∀ n, p.tree.contains n = true → b'.ticksOf n = b.ticksOf n := fun n hn =>
    hq.frame n (hapart.symm n hn)
  by_cases hturning : p.Turning
  · obtain ⟨n, hresource⟩ := hturning
    unfold ReadyOn at hready ⊢
    rw [hresource] at hready ⊢
    intro m hm
    obtain ⟨hkind, hnode, hopen⟩ := hready m hm
    refine ⟨hkind, by rw [hq.occupies.graph]; exact hnode, ?_⟩
    rcases hopen with hopen | hsame
    · refine Or.inl fun hclosed => hopen ?_
      obtain ⟨t, ht, hclosed⟩ := hq.occupies.sound.mem_unavailable.1 hclosed
      exact hb.mem_unavailable.2 ⟨t, (hkeep m hm).symm.trans ht, hclosed⟩
    · exact Or.inr ((hkeep m hm).trans hsame)
  · exact hready.congr hholds hturning hkeep

/-- What committing several packed rotations does to a board. -/
structure CommitsAll (b : Board) (ps : List Packed) (turnTicks : Int) (b' : Board) : Prop where
  occupies : b.Occupies b'
  frame : ∀ n, (∀ p ∈ ps, p.tree.contains n = false) → b'.ticksOf n = b.ticksOf n
  data : ∀ id basis, (∀ p ∈ ps, p.Turning → p.tree.contains (.qubit id basis) = false) →
    b'.ticksOf (.qubit id basis) = b.ticksOf (.qubit id basis)
  turn : ∀ p ∈ ps, p.Turning → ∀ n, p.tree.contains n = true → b'.ticksOf n = some turnTicks

/-- Packed rotations that are ready and apart can be committed one after the other. -/
theorem commitAll_ends {ps : List Packed} (hb : b.Sound) (f : Factories)
    (hps : ∀ p ∈ ps, p.Holds ∧ p.ReadyOn b turnTicks) (hapart : ps.Pairwise Apart) :
    Ends (commitAll turnTicks ps b f) (fun _ => turnTicks < 0)
      fun r => CommitsAll b ps turnTicks r.1 ∧ f.SameSetup r.2 := by
  induction ps generalizing b f with
  | nil =>
    exact ⟨⟨Board.Occupies.refl hb, fun _ _ => rfl, fun _ _ _ => rfl, by simp⟩,
      Factories.SameSetup.refl f⟩
  | cons p ps ih =>
    obtain ⟨hp, hps'⟩ := List.pairwise_cons.1 hapart
    obtain ⟨hholds, hready⟩ := hps p List.mem_cons_self
    refine Ends.bind ((commit_ends hb f hholds hready).mono (fun e he => he.2)
      fun _ h => h) ?_
    rintro ⟨b₁, f₁⟩ ⟨hone, hsetup⟩
    refine (ih hone.occupies.sound f₁ (fun q hq => ?_) hps').mono (fun _ h => h) ?_
    · obtain ⟨hholds', hready'⟩ := hps q (List.mem_cons_of_mem _ hq)
      exact ⟨hholds', hready'.of_commits hb hholds' (hp q hq) hone⟩
    · rintro ⟨b₂, f₂⟩ ⟨hrest, hsetup'⟩
      refine ⟨⟨hone.occupies.trans hb hrest.occupies, fun n hn => ?_, fun id basis hn => ?_, ?_⟩,
        hsetup.trans hsetup'⟩
      · rw [hrest.frame n fun q hq => hn q (List.mem_cons_of_mem _ hq),
          hone.frame n (hn p List.mem_cons_self)]
      · rw [hrest.data id basis fun q hq => hn q (List.mem_cons_of_mem _ hq)]
        by_cases hturn : p.Turning
        · exact hone.frame _ (hn p List.mem_cons_self hturn)
        · exact hone.data hturn id basis
      · intro q hq hturn n hn
        rcases List.mem_cons.1 hq with rfl | hq
        · rw [hrest.frame n fun q' hq' => hp q' hq' n hn]
          exact hone.turn hturn n hn
        · exact hrest.turn q hq hturn n hn

end Packed

end LatticeSurgery
