import LatticeSurgery.Proofs.Packing.Routing

/-!
# The course of a tick

Packing a tick sees to the storages, commits the rotations that it packs, in the order in which it
returns them, and sees to the storages once more (`Packer.exists_course`). Nothing else happens to the
board and the factories, whatever is found on the way. So what a tick does to a node can be read off
what a commitment does to it.
-/

namespace LatticeSurgery

variable {b b' : Board} {f f' : Factories} {p : Packed} {turnTicks turnTicks' : Int}

/-! ## Commitments -/

/-- Only turns ask how long a turn takes. -/
theorem commit_congr (h : ¬ p.Turning) : commit b f p turnTicks = commit b f p turnTicks' := by
  unfold commit
  split
  · rfl
  · rfl
  · rfl
  · next n hn => exact absurd ⟨n, hn⟩ h
  · rfl

/-- The nodes that committing a packed rotation sets, and the countdown that it gives them. -/
def Packed.marks (turnTicks : Int) (p : Packed) : List Node × Int :=
  match p.resource with
  | some (.magicState n) => ([n], Phase.depletedTicks)
  | some (.storage n) => ([n], Phase.consumedTicks)
  | some (.zeroState id) => ([.zero id .X, .zero id .Z], 1)
  | some (.bus _) => (p.tree.nodes, turnTicks)
  | none => ([], 0)

/-- A commitment that succeeds sets countdowns and nothing else, and a storage that it takes from was
ready. -/
theorem commit_setTo (hb : b.Sound) (h : commit b f p turnTicks = .ok (b', f')) :
    b.SetTo (p.marks turnTicks).1 (p.marks turnTicks).2 b' ∧ f.SameSetup f' ∧
      ∀ n, p.resource = some (.storage n) → b.ticksOf n = some 0 := by
  unfold commit at h
  split at h <;> rename_i hresource <;> simp only [Packed.marks, hresource]
  · obtain ⟨b₁, hset, h⟩ := exists_of_bind_eq_ok h
    cases h
    exact ⟨hb.setTo_of_setTick hset, .mark f false _, by simp⟩
  · split at h
    · next hready =>
      obtain ⟨b₁, hset, h⟩ := exists_of_bind_eq_ok h
      cases h
      refine ⟨hb.setTo_of_setTick hset, .refl f, fun m hm => ?_⟩
      cases hm
      exact hready
    · cases h
  · obtain ⟨b₁, hset, h⟩ := exists_of_bind_eq_ok h
    cases h
    exact ⟨hb.setTo_of_setTicks hset, .refl f, by simp⟩
  · obtain ⟨b₁, hset, h⟩ := exists_of_bind_eq_ok h
    cases h
    exact ⟨hb.setTo_of_setTicks hset, .refl f, by simp⟩
  · cases h
    exact ⟨⟨hb, rfl, fun m => by simp⟩, .refl f, by simp⟩

/-- Of the magic states and storages, committing the rotation sets its resource at most. -/
def Packed.MarksOwn (p : Packed) : Prop :=
  ∀ turnTicks, ∀ n ∈ (p.marks turnTicks).1,
    (n.kind = .patch .magic → p.resource = some (.magicState n)) ∧
      (n.kind = .patch .storage → p.resource = some (.storage n))

theorem Packed.marksOwn_of_kinds
    (hmagic : ∀ n, p.resource = some (.magicState n) → n.kind = .patch .magic)
    (hstorage : ∀ n, p.resource = some (.storage n) → n.kind = .patch .storage)
    (hturn : ∀ bus n, p.resource = some (.bus bus) → p.tree.contains n = true →
      n.kind = .bus ∨ n.kind = .patch .qubit) : p.MarksOwn := by
  intro turnTicks n hn
  unfold Packed.marks at hn
  split at hn
  · next m hm =>
    rw [List.mem_singleton.1 hn, hmagic m hm]
    exact ⟨fun _ => hm, by simp⟩
  · next m hm =>
    rw [List.mem_singleton.1 hn, hstorage m hm]
    exact ⟨by simp, fun _ => hm⟩
  · rcases List.mem_pair.1 hn with rfl | rfl <;> exact ⟨by simp [Node.kind], by simp [Node.kind]⟩
  · next m hm =>
    rcases hturn m n hm (Tree.mem_nodes.1 hn) with hk | hk <;> rw [hk] <;> exact ⟨by simp, by simp⟩
  · cases hn

theorem Packed.Serves.marksOwn (h : p.Serves) : p.MarksOwn := by
  refine marksOwn_of_kinds (fun n => h.kind_of_magicState) (fun n => h.kind_of_storage) ?_
  intro bus n hbus hn
  rcases h.node_of_turn hbus hn with ⟨q, -, basis, rfl⟩ | rfl
  · exact Or.inr rfl
  · exact Or.inl (h.kind_of_bus hbus)

theorem commitAll_cons_eq_ok {ps : List Packed} :
    commitAll turnTicks (p :: ps) b f = .ok (b', f') ↔ ∃ b₁ f₁,
      commit b f p turnTicks = .ok (b₁, f₁) ∧ commitAll turnTicks ps b₁ f₁ = .ok (b', f') := by
  constructor
  · intro h
    obtain ⟨⟨b₁, f₁⟩, hone, hrest⟩ := exists_of_bind_eq_ok h
    exact ⟨b₁, f₁, hone, hrest⟩
  · rintro ⟨b₁, f₁, hone, hrest⟩
    rw [commitAll, hone]
    exact hrest

/-- Committing some rotations and then some more. -/
theorem commitAll_append {ps qs : List Packed} {b₁ : Board} {f₁ : Factories}
    (h : commitAll turnTicks ps b f = .ok (b₁, f₁))
    (h' : commitAll turnTicks qs b₁ f₁ = .ok (b', f')) :
    commitAll turnTicks (ps ++ qs) b f = .ok (b', f') := by
  induction ps generalizing b f with
  | nil =>
    cases h
    exact h'
  | cons p ps ih =>
    obtain ⟨b₂, f₂, hone, hrest⟩ := commitAll_cons_eq_ok.1 h
    exact commitAll_cons_eq_ok.2 ⟨b₂, f₂, hone, ih hrest⟩

namespace Packer

variable {σ : Type} [WordSource σ] {r : Rotation} {d d' : Desk} {outcome : Outcome}

/-! ## The first round -/

/-- A turn that is packed is committed. -/
theorem commits_of_packTurn {rng rng' : σ}
    (h : packTurn turnTicks r b f rng = .ok (outcome, b', f', rng')) :
    (∃ p, outcome = .packed p ∧ commit b f p turnTicks = .ok (b', f')) ∨
      ((∀ p, outcome ≠ .packed p) ∧ b' = b ∧ f' = f) := by
  unfold packTurn at h
  split at h
  · cases h
    exact Or.inr ⟨by simp, rfl, rfl⟩
  · dsimp only at h
    obtain ⟨⟨drawn, rng₁⟩, -, h⟩ := exists_of_bind_eq_ok h
    cases drawn with
    | none =>
      cases h
      exact Or.inr ⟨by simp, rfl, rfl⟩
    | some bus =>
      obtain ⟨⟨b₁, f₁⟩, hcommit, h⟩ := exists_of_bind_eq_ok h
      cases h
      exact Or.inl ⟨_, rfl, hcommit⟩

/-- The first round commits what it packs. -/
theorem commits_of_firstRound {busy : SortedSet Nat} {magicFree : Bool} {rs : List Rotation}
    {s s' : FirstRound σ} (h : firstRound turnTicks busy magicFree rs s = .ok s') :
    ∃ ps, s'.packed = s.packed ++ ps ∧
      commitAll turnTicks ps s.board s.factories = .ok (s'.board, s'.factories) := by
  induction rs generalizing s with
  | nil =>
    cases h
    exact ⟨[], by simp, rfl⟩
  | cons r rs ih =>
    obtain ⟨s₁, hstep, hrest⟩ := FirstRound.exists_step h
    obtain ⟨ps, hpacked, hcommits⟩ := ih hrest
    cases hstep with
    | defer | route => exact ⟨ps, hpacked, hcommits⟩
    | @alone tree =>
      refine ⟨⟨r, tree, none⟩ :: ps, by rw [hpacked]; simp, ?_⟩
      exact commitAll_cons_eq_ok.2 ⟨s.board, s.factories, rfl, hcommits⟩
    | @turn outcome b₁ f₁ _ _ _ hturn _ =>
      refine ⟨outcome.packings ++ ps, by rw [hpacked, List.append_assoc], ?_⟩
      rcases commits_of_packTurn hturn with ⟨p, rfl, hcommit⟩ | ⟨hnot, rfl, rfl⟩
      · exact commitAll_cons_eq_ok.2 ⟨b₁, f₁, hcommit, hcommits⟩
      · rw [Outcome.packings_eq_nil hnot]
        exact hcommits

/-! ## The second round -/

/-- How the routing of a rotation ends on a desk whose caches have been seen to: the rotation is not
packed and the desk is left alone, or it is committed and its resource is taken out of the stock. -/
inductive Concludes : Outcome → Desk → Desk → Prop
  /-- Nothing is packed. -/
  | unpacked {outcome : Outcome} {d : Desk} (h : ∀ p, outcome ≠ .packed p) : Concludes outcome d d
  /-- The rotation is committed. -/
  | packed {p : Packed} {d : Desk} {b : Board} {f : Factories} (stock : Stock)
      (hturning : ¬ p.Turning) (hcommit : commit d.board d.factories p 0 = .ok (b, f)) :
      Concludes (.packed p) d { d with board := b, factories := f, stock := stock }

/-- A rotation that needs no resource is committed without a change. -/
theorem concludes_measurement (r : Rotation) (t : Tree) (d : Desk) :
    Concludes (.packed ⟨r, t, none⟩) d d :=
  .packed d.stock (Packed.not_turning_of_resource rfl (by simp)) rfl

/-- What the search for a resource state leads to: nothing changes, or the rotation is committed and the
state is taken out of the stock. -/
inductive Supplies (r : Rotation) (d : Desk) : Outcome → Desk → Prop
  /-- No state is found. -/
  | failed (reason : FailReason) : Supplies r d (.failed reason) d
  /-- The rotation asks for none. -/
  | deferred (hk : r.kind = .measurement ∨ r.kind = .turn) : Supplies r d .deferred d
  /-- A magic state or a storage is taken. -/
  | magic {t : Tree} {n : Node} {b : Board} {f : Factories}
      (hcommit : commit d.board d.factories ⟨r, t, some (magicResource n)⟩ 0 = .ok (b, f)) :
      Supplies r d (.packed ⟨r, t, some (magicResource n)⟩)
        { d with board := b, factories := f, stock := { d.stock with magic := d.stock.magic.erase n } }
  /-- A zero state is taken. -/
  | zero {t : Tree} {id : Nat} {b : Board} {f : Factories} (left : List Nat)
      (hcommit : commit d.board d.factories ⟨r, t, some (.zeroState id)⟩ 0 = .ok (b, f)) :
      Supplies r d (.packed ⟨r, t, some (.zeroState id)⟩)
        { d with board := b, factories := f, stock := { d.stock with zero := left } }

theorem supplies_of_packBesideZeroState {t : Tree}
    (h : packBesideZeroState r t d = .ok (some (p, d'))) : Supplies r d (.packed p) d' := by
  unfold packBesideZeroState at h
  split at h
  · cases h
  · dsimp only at h
    obtain ⟨⟨b₁, f₁⟩, hcommit, h⟩ := exists_of_bind_eq_ok h
    cases h
    exact .zero _ hcommit

theorem supplies_of_packMagicState {qubits : Option Tree} {anchor : Node} {sub : Board}
    (h : packMagicState r qubits anchor sub d = .ok (outcome, d')) : Supplies r d outcome d' := by
  unfold packMagicState at h
  split at h
  · cases h
    exact .failed _
  · split at h
    · cases h
      exact .failed _
    · dsimp only at h
      obtain ⟨⟨b₁, f₁⟩, hcommit, h⟩ := exists_of_bind_eq_ok h
      cases h
      exact .magic hcommit

theorem supplies_of_packZeroState {qubits : Option Tree} {anchor : Node} {sub : Board}
    (h : packZeroState r qubits anchor sub d = .ok (outcome, d')) : Supplies r d outcome d' := by
  unfold packZeroState at h
  dsimp only at h
  split at h
  · cases h
    exact .failed _
  · obtain ⟨⟨found, b₀⟩, -, h⟩ := exists_of_bind_eq_ok h
    cases found with
    | none =>
      cases h
      exact .failed _
    | some found =>
      obtain ⟨⟨b₁, f₁⟩, hcommit, h⟩ := exists_of_bind_eq_ok h
      cases h
      exact .zero _ hcommit

theorem supplies_of_packResource {terminals : List Node} {qubits : Option Tree} {anchor : Node}
    (h : packResource r terminals qubits anchor d = .ok (outcome, d')) : Supplies r d outcome d' := by
  unfold packResource at h
  -- the resource is looked for in the same way on the board itself and on the contracted one
  cases qubits
  all_goals
    obtain ⟨sub, -, h⟩ := exists_of_bind_eq_ok h
    split at h
    · exact supplies_of_packMagicState h
    · exact supplies_of_packZeroState h
    · next hk =>
      cases h
      exact .deferred (Or.inl hk)
    · next hk =>
      cases h
      exact .deferred (Or.inr hk)

theorem Supplies.concludes (h : Supplies r d outcome d') : Concludes outcome d d' := by
  cases h with
  | failed reason => exact .unpacked (by simp)
  | deferred => exact .unpacked (by simp)
  | magic hcommit =>
    refine .packed _ (Packed.not_turning_of_resource rfl fun n => ?_) hcommit
    unfold magicResource
    split <;> simp
  | zero left hcommit => exact .packed _ (Packed.not_turning_of_resource rfl (by simp)) hcommit

/-- How the routing of a rotation ends, once its boundaries are connected if there are several. -/
inductive Finishes (r : Rotation) (qubits : Option Tree) (anchor : Node) (d : Desk) :
    Outcome → Desk → Prop
  /-- A measurement needs nothing else. -/
  | measured (hk : r.kind = .measurement) :
      Finishes r qubits anchor d (.packed ⟨r, qubits.getD (Tree.single anchor), none⟩) d
  /-- A zero state lies beside the tree. -/
  | beside {t : Tree} {p : Packed} {d' : Desk} (hk : r.kind = .pi4) (hqubits : qubits = some t)
      (h : packBesideZeroState r t d = .ok (some (p, d'))) :
      Finishes r qubits anchor d (.packed p) d'
  /-- A resource state is looked for. -/
  | resource {outcome : Outcome} {d' : Desk} (hk : r.kind ≠ .measurement)
      (h : packResource r r.activeNodes.toList qubits anchor d = .ok (outcome, d')) :
      Finishes r qubits anchor d outcome d'

/-- How a rotation is routed. -/
inductive Routing (r : Rotation) (d : Desk) : Outcome → Desk → Prop
  /-- It has no boundary. -/
  | deferred (hnone : r.activeNodes.toList = []) : Routing r d .deferred d
  /-- One of its boundaries is shut in. -/
  | shut (hsome : r.activeNodes.toList ≠ []) : Routing r d (.failed .qubitDisconnected) d
  /-- It has a single boundary. -/
  | single {anchor : Node} {outcome : Outcome} {d' : Desk} (hnodes : r.activeNodes.toList = [anchor])
      (h : Finishes r none anchor d outcome d') : Routing r d outcome d'
  /-- Its boundaries cannot be connected. -/
  | unconnected {d' : Desk} (hseveral : 2 ≤ r.activeNodes.toList.length)
      (hconnect : connectQubits r r.activeNodes.toList d = .ok (none, d')) :
      Routing r d (.failed .steinerTreeNotFound) d'
  /-- Its boundaries are connected first. -/
  | connected {anchor : Node} {t : Tree} {d₁ : Desk} {outcome : Outcome} {d' : Desk}
      (hseveral : 2 ≤ r.activeNodes.toList.length) (hanchor : anchor ∈ r.activeNodes)
      (hconnect : connectQubits r r.activeNodes.toList d = .ok (some t, d₁))
      (h : Finishes r (some t) anchor d₁ outcome d') : Routing r d outcome d'

theorem routing_of_packRotation (h : packRotation r d = .ok (outcome, d')) :
    Routing r d outcome d' := by
  unfold packRotation at h
  dsimp only at h
  split at h
  · next hnone =>
    cases h
    exact .deferred hnone
  · next anchor others hnodes =>
    split at h
    · cases h
      exact .shut (by simp [hnodes])
    · split at h
      · next hothers =>
        rw [List.isEmpty_iff.1 hothers] at hnodes
        refine .single hnodes ?_
        split at h
        · next hk =>
          cases h
          exact .measured hk
        · next hk => exact .resource hk h
      · next hothers =>
        obtain ⟨⟨found, d₁⟩, hconnect, h⟩ := exists_of_bind_eq_ok h
        have hseveral : 2 ≤ r.activeNodes.toList.length := by
          have hpos := List.length_pos_iff.2 (mt List.isEmpty_iff.2 hothers)
          rw [hnodes, List.length_cons]
          omega
        cases found with
        | none =>
          cases h
          exact .unconnected hseveral hconnect
        | some t =>
          have hanchor : anchor ∈ r.activeNodes := by
            rw [SortedSet.mem_def, hnodes]
            exact List.mem_cons_self
          refine .connected hseveral hanchor hconnect ?_
          dsimp only at h
          split at h
          · next hk =>
            cases h
            exact .measured hk
          · next hk =>
            split at h
            · next hpi4 =>
              obtain ⟨found, hbeside, h⟩ := exists_of_bind_eq_ok h
              cases found with
              | none => exact .resource hk h
              | some found =>
                cases h
                exact .beside hpi4 rfl hbeside
            · exact .resource hk h

theorem Finishes.concludes {qubits : Option Tree} {anchor : Node}
    (h : Finishes r qubits anchor d outcome d') : Concludes outcome d d' := by
  cases h with
  | measured => exact concludes_measurement _ _ _
  | beside _ _ h => exact (supplies_of_packBesideZeroState h).concludes
  | resource _ h => exact (supplies_of_packResource h).concludes

/-- A rotation is routed at once, or its boundaries are connected first. -/
theorem cases_of_packRotation (h : packRotation r d = .ok (outcome, d')) :
    Concludes outcome d d' ∨ ∃ found d₁, 2 ≤ r.activeNodes.toList.length ∧
      connectQubits r r.activeNodes.toList d = .ok (found, d₁) ∧ Concludes outcome d₁ d' := by
  cases routing_of_packRotation h with
  | deferred => exact Or.inl (.unpacked (by simp))
  | shut => exact Or.inl (.unpacked (by simp))
  | single _ h => exact Or.inl h.concludes
  | unconnected hseveral hconnect =>
    exact Or.inr ⟨none, _, hseveral, hconnect, .unpacked (by simp)⟩
  | connected hseveral _ hconnect h => exact Or.inr ⟨_, _, hseveral, hconnect, h.concludes⟩

/-- What routing a rotation does: a rotation that is packed is committed, and nothing else touches the
board and the factories. -/
structure Settles (outcome : Outcome) (d d' : Desk) : Prop where
  config : d.packer.SameButCaches d'.packer
  packed : ∀ p, outcome = .packed p → ¬ p.Turning ∧
    commit d.board d.factories p 0 = .ok (d'.board, d'.factories)
  unpacked : (∀ p, outcome ≠ .packed p) → d'.board = d.board ∧ d'.factories = d.factories

theorem Concludes.settles (h : Concludes outcome d d') : Settles outcome d d' := by
  cases h with
  | unpacked h => exact ⟨SameButCaches.refl _, fun p hp => absurd hp (h p), fun _ => ⟨rfl, rfl⟩⟩
  | packed stock hturning hcommit =>
    refine ⟨SameButCaches.refl _, fun q hq => ?_, fun hnot => absurd rfl (hnot _)⟩
    cases hq
    exact ⟨hturning, hcommit⟩

/-- Connecting boundaries touches the caches only. -/
theorem frame_of_connectQubits {terminals : List Node} {found : Option Tree}
    (h : connectQubits r terminals d = .ok (found, d')) :
    ∃ packer, d.packer.SameButCaches packer ∧ d' = { d with packer := packer } := by
  unfold connectQubits at h
  split at h
  · cases h
    exact ⟨d.packer, SameButCaches.refl _, rfl⟩
  · obtain ⟨c, -, h⟩ := exists_of_bind_eq_ok h
    dsimp only at h
    split at h
    all_goals
      cases h
      refine ⟨_, ?_, rfl⟩
      exact ⟨⟨rfl, rfl, rfl⟩, rfl⟩

theorem settles_of_packRotation (h : packRotation r d = .ok (outcome, d')) :
    Settles outcome d d' := by
  rcases cases_of_packRotation h with h | ⟨found, d₁, -, hconnect, h⟩
  · exact h.settles
  · -- nothing was done to the board and the factories before
    obtain ⟨packer, hconfig, rfl⟩ := frame_of_connectQubits hconnect
    obtain ⟨hconfig', hpacked, hunpacked⟩ := h.settles
    exact ⟨hconfig.trans hconfig', hpacked, hunpacked⟩

/-- What is packed when a rotation is routed is committed. -/
theorem commits_of_packRotation (h : packRotation r d = .ok (outcome, d')) (turnTicks : Int) :
    commitAll turnTicks outcome.packings d.board d.factories = .ok (d'.board, d'.factories) := by
  obtain ⟨-, hpacked, hunpacked⟩ := settles_of_packRotation h
  cases outcome with
  | packed q =>
    obtain ⟨hturning, hcommit⟩ := hpacked q rfl
    exact commitAll_cons_eq_ok.2 ⟨_, _, (commit_congr hturning).trans hcommit, rfl⟩
  | failed reason =>
    obtain ⟨hboard, hfactories⟩ := hunpacked (by simp)
    rw [hboard, hfactories]
    rfl
  | deferred =>
    obtain ⟨hboard, hfactories⟩ := hunpacked (by simp)
    rw [hboard, hfactories]
    rfl

/-- The second round commits what it packs. -/
theorem commits_of_secondRound {rs : List Rotation} {ps ps' : List Packed}
    (h : secondRound rs ps d = .ok (ps', d')) (turnTicks : Int) :
    d.packer.SameConfig d'.packer ∧ ∃ qs, ps' = ps ++ qs ∧
      commitAll turnTicks qs d.board d.factories = .ok (d'.board, d'.factories) := by
  induction rs generalizing ps d with
  | nil =>
    cases h
    exact ⟨SameConfig.refl _, [], by simp, rfl⟩
  | cons r rs ih =>
    rcases cases_of_secondRound h with ⟨-, hrest⟩ | ⟨-, outcome, d₁, fails, hrotation, -, hrest⟩
    · exact ih hrest
    · have hconfig := (settles_of_packRotation hrotation).config.toSameConfig
      have hcommits := commits_of_packRotation hrotation turnTicks
      have hsame := same_enter outcome fails d₁
      obtain ⟨hconfig', qs, rfl, hcommits'⟩ := ih hrest
      rw [hsame.board, hsame.factories] at hcommits'
      exact ⟨(hconfig.trans hsame.config).trans hconfig', _, List.append_assoc _ _ _,
        commitAll_append hcommits hcommits'⟩

/-! ## A tick -/

/-- When storages are seen to is fixed for a run. -/
theorem SameConfig.runStorages_eq {p q : Packer} (h : p.SameConfig q) (moment : StoragePhase) :
    q.runStorages moment b = p.runStorages moment b := by
  unfold runStorages
  rw [h.store, h.reset]

/-- The course of a tick in which `ps` are packed: the storages are seen to, which leads to `b₀`, the
packed rotations are committed, which leads to `b₁`, and the storages are seen to again. -/
structure Course (p : Packer) (ps : List Packed) (b : Board) (f : Factories) (b₀ b₁ b' : Board)
    (f' : Factories) : Prop where
  before : p.runStorages .beforePacking b = .ok b₀
  commits : commitAll p.turnTicks ps b₀ f = .ok (b₁, f')
  after : p.runStorages .afterPacking b₁ = .ok b'

/-- Packing takes its course. -/
theorem exists_course {p : Packer} {rotations : List Rotation} {rng : σ} {r : Result σ}
    (h : p.pack rotations b f rng = .ok r) :
    ∃ b₀ b₁, p.Course r.packed b f b₀ b₁ r.board r.factories := by
  unfold pack at h
  obtain ⟨b₀, hbefore, h⟩ := exists_of_bind_eq_ok h
  dsimp only at h
  obtain ⟨first, hfirst, h⟩ := exists_of_bind_eq_ok h
  obtain ⟨⟨packed, d⟩, hsecond, h⟩ := exists_of_bind_eq_ok h
  obtain ⟨b₂, hafter, h⟩ := exists_of_bind_eq_ok h
  obtain ⟨ps, hps, hcommits⟩ := commits_of_firstRound hfirst
  obtain ⟨hconfig, qs, rfl, hcommits'⟩ := commits_of_secondRound hsecond p.turnTicks
  cases h
  refine ⟨b₀, d.board, hbefore, ?_, ?_⟩
  · rw [hps, List.nil_append]
    exact commitAll_append hcommits hcommits'
  · rw [← hafter]
    exact (SameConfig.runStorages_eq ⟨hconfig.turnTicks, hconfig.store, hconfig.reset⟩ _).symm

end Packer

end LatticeSurgery
