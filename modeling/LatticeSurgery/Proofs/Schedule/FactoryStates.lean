import LatticeSurgery.Proofs.Packing.StorageCycle
import LatticeSurgery.Proofs.Schedule.Boards

/-!
# Factories are refilled while no magic state is ready

Between two ticks, a factory is either being refilled or in use, whatever was done to the board since
it was set up (`factory_states`). Within a tick, magic states that are ready may be spent, one by one,
and nothing else happens to them (`Plant.Since`). When the tick passes, a factory whose states are all
spent starts its refill at once, so no factory is left without a ready state that is not counting down.
-/

namespace LatticeSurgery

open Ordered Relation

/-- A board with its factories. -/
structure Plant where
  /-- The board. -/
  board : Board
  /-- The factories. -/
  factories : Factories

namespace Board

variable {b : Board} {g : List Node} {n : Node}

/-- All magic states of a factory have the same running countdown. -/
def CountsDown (b : Board) (g : List Node) : Prop :=
  g ≠ [] ∧ ∃ t : Int, 0 < t ∧ ∀ n ∈ g, b.ticksOf n = some t

/-- Each magic state of a factory is ready or spent, and one of them is ready. -/
def InUse (b : Board) (g : List Node) : Prop :=
  (∀ n ∈ g, b.statusOf n = some ⟨.patch .magic, .ready⟩ ∨
    b.statusOf n = some ⟨.patch .magic, .depleted⟩) ∧
  ∃ n ∈ g, b.statusOf n = some ⟨.patch .magic, .ready⟩

end Board

namespace Plant

variable {l : Layout} {s s' : Plant} {b b' : Board} {f f' : Factories} {k : Nat}

/-- Something that is done to the board of a layout and its factories and succeeds: a tick is packed,
packings that a cache returns are committed, storages are seen to, filled or reset, stock is taken, or a
tick passes. -/
inductive Step (l : Layout) : Plant → Plant → Prop
  | pack {b : Board} {f : Factories} {σ : Type} [WordSource σ] {p : Packer} {rotations : List Rotation}
    {rng : σ} {r : Packer.Result σ} (hp : Packer.Used l p) (h : p.pack rotations b f rng = .ok r) :
    Step l ⟨b, f⟩ ⟨r.board, r.factories⟩
  | reuse {b b' : Board} {f f' : Factories} {c : PackingCache} {key : PackingKey}
    {rotations : List Rotation} {turnTicks : Int} (hc : PackingCache.Filled l c)
    (h : commitAll turnTicks (c.find key rotations b) b f = .ok (b', f')) :
    Step l ⟨b, f⟩ ⟨b', f'⟩
  | tend {b b' : Board} {f : Factories} {p : Packer} {moment : StoragePhase}
    (h : p.runStorages moment b = .ok b') : Step l ⟨b, f⟩ ⟨b', f⟩
  | store (b : Board) (f : Factories) : Step l ⟨b, f⟩ ⟨b.storeMagicStates, f⟩
  | reset {b b' : Board} {f : Factories} (h : b.resetStorages = .ok b') : Step l ⟨b, f⟩ ⟨b', f⟩
  | takeStock (b : Board) (f : Factories) : Step l ⟨b, f⟩ ⟨b, (f.takeStock b).2⟩
  | advance {b b' : Board} {f f' : Factories} {τ : Type} {done : List τ} {log log' : Factories.Log τ}
    (h : f.advance done b log 1 = .ok (f', b', log')) : Step l ⟨b, f⟩ ⟨b', f'⟩

/-- What is done to a plant makes a board of the layout of it. -/
theorem lasting_stage (l : Layout) : Board.Lasting (Board.Stage l) where
  setTicks h hset := h.setTicks hset
  elapse ticks h := h.elapse ticks
  storeMagicStates h := h.storeMagicStates
  resetStorages h hreset := h.resetStorages hreset

/-- Since the last tick passed, or since the factories were set up, nodes were occupied. Then, every
factory was being refilled or had a magic state ready. -/
structure Since (l : Layout) (k : Nat) (s : Plant) : Prop where
  stage : Board.Stage l s.board
  replenishTicks : s.factories.replenishTicks = k
  placed : Factories.Placed s.board s.factories.groups
  since : ∃ b, b.Sound ∧ s.factories.Cycling b ∧ b.Occupies s.board

/-- What happens within a tick. -/
theorem Since.occupy (h : Since l k ⟨b, f⟩) (hstage : Board.Stage l b') (hoccupies : b.Occupies b')
    (hsetup : f.SameSetup f') : Since l k ⟨b', f'⟩ := by
  obtain ⟨-, hreplenish, hplaced, b₀, hb₀, hcycling, hsince⟩ := h
  refine ⟨hstage, hsetup.replenishTicks.trans hreplenish, ?_, b₀, hb₀, ⟨fun g hg => ?_,
    fun g hg => ?_⟩, hsince.trans hb₀ hoccupies⟩
  · show Factories.Placed b' f'.groups
    rw [hsetup.groups]
    exact hplaced.of_hasNode fun n => by rw [hoccupies.graph]
  · exact hcycling.ne_nil g (hsetup.groups ▸ hg)
  · show Factories.CyclingGroup b₀ f'.replenishTicks g
    rw [hsetup.replenishTicks]
    exact hcycling.group g (hsetup.groups ▸ hg)

/-- A tick passes unless the clock is at its end, and then every factory is being refilled or has a
magic state ready. -/
theorem Since.advance_ends (h : Since l k ⟨b, f⟩) (hk : k + 1 < 2 ^ 31) {τ : Type} (done : List τ)
    (log : Factories.Log τ) : Ends (f.advance done b log 1)
      (fun e => e = .countOutOfRange ∧ countLimit ≤ f.tick + 1) fun r =>
      Since l k ⟨r.2.1, r.1⟩ ∧ r.1.groups = f.groups ∧ r.1.Cycling r.2.1 := by
  obtain ⟨hstage, hreplenish, hplaced, b₀, hb₀, hcycling, hsince⟩ := h
  dsimp only at hreplenish hplaced hsince
  have hrange : f.replenishTicks + 1 < 2 ^ 31 := hreplenish ▸ hk
  have hplaced₀ : Factories.Placed b₀ f.groups :=
    hplaced.of_hasNode fun n => by rw [hsince.graph]
  cases hadvance : f.advance done b log 1 with
  | error e =>
    exact ((Factories.advance_ends hstage.sound hplaced done log).of_error hadvance).resolve_left
      fun hout => hout hrange
  | ok r =>
    obtain ⟨f', b', log'⟩ := r
    obtain ⟨hreplenish', hgroups, -, hpasses, -⟩ :=
      (Factories.advance_ends hstage.sound hplaced done log).of_ok hadvance
    dsimp only at hreplenish' hgroups hpasses
    have hpassed := hcycling.pass hb₀ hplaced₀ hrange hsince hpasses
    have hcycling' : f'.Cycling b' := by
      refine ⟨fun g hg => hpassed.ne_nil g (hgroups ▸ hg), fun g hg => ?_⟩
      rw [hreplenish']
      exact hpassed.group g (hgroups ▸ hg)
    refine ⟨⟨(lasting_stage l).advance hstage hadvance, hreplenish'.trans hreplenish, ?_, b',
      hpasses.sound, hcycling', .refl hpasses.sound⟩, hgroups, hcycling'⟩
    show Factories.Placed b' f'.groups
    rw [hgroups]
    exact hplaced.of_hasNode hpasses.node

theorem Step.since (hk : k + 1 < 2 ^ 31) (hstep : Step l s s') (h : Since l k s) :
    Since l k s' ∧ s'.factories.groups = s.factories.groups := by
  have hb := h.stage.sound
  have hlast := lasting_stage l
  cases hstep with
  | @pack _ _ _ _ _ rotations rng _ hp hpack =>
    have hresult := (Packer.pack_ends hp.sound hb _ rng rotations).of_ok hpack
    exact ⟨h.occupy (hlast.pack h.stage hpack) hresult.packs.occupies hresult.setup,
      hresult.setup.groups⟩
  | @reuse _ _ _ _ _ key rotations _ hc hcommits =>
    obtain ⟨hpacks, hsetup⟩ := (PackingCache.reuse_ends hc.sound hb _ key rotations).of_ok hcommits
    exact ⟨h.occupy (hlast.commitAll h.stage hcommits) hpacks.occupies hsetup, hsetup.groups⟩
  | @tend _ _ _ p moment hrun =>
    exact ⟨h.occupy (hlast.runStorages h.stage hrun)
      ((Packer.runStorages_ends p moment hb).of_ok hrun).1 (.refl _), rfl⟩
  | store => exact ⟨h.occupy h.stage.storeMagicStates (Board.storeMagicStates_spec hb).1 (.refl _), rfl⟩
  | reset hreset =>
    exact ⟨h.occupy (h.stage.resetStorages hreset)
      ((Board.resetStorages_ends hb).of_ok hreset).1 (.refl _), rfl⟩
  | takeStock b f =>
    have hsetup := Factories.takeStock_setup f b
    exact ⟨h.occupy h.stage (.refl hb) hsetup, hsetup.groups⟩
  | @advance _ _ _ _ _ done log _ hadvance =>
    obtain ⟨hsince, hgroups, -⟩ := (h.advance_ends hk done log).of_ok hadvance
    exact ⟨hsince, hgroups⟩

theorem Since.of_steps (hk : k + 1 < 2 ^ 31) (hsteps : ReflTransGen (Step l) s s')
    (h : Since l k s) : Since l k s' ∧ s'.factories.groups = s.factories.groups := by
  induction hsteps with
  | refl => exact ⟨h, rfl⟩
  | tail _ hstep ih =>
    obtain ⟨hsince, hgroups⟩ := hstep.since hk ih.1
    exact ⟨hsince, hgroups.trans ih.2⟩

/-- Every factory is being refilled or in use, and if no magic state is ready, all factories are being
refilled. -/
structure Supplied (s : Plant) : Prop where
  states : ∀ g ∈ s.factories.groups, s.board.CountsDown g ∨ s.board.InUse g
  refilled : (∀ n, n.kind = .patch .magic → s.board.statusOf n ≠ some ⟨.patch .magic, .ready⟩) →
    ∀ g ∈ s.factories.groups, s.board.CountsDown g

theorem supplied_of_cycling (h : s.factories.Cycling s.board)
    (hplaced : Factories.Placed s.board s.factories.groups) : s.Supplied := by
  have hkind : ∀ g ∈ s.factories.groups, ∀ n ∈ g, n.kind = .patch .magic := fun g hg n hn =>
    hplaced.kind n (List.mem_flatten_of_mem hg hn)
  have hstates : ∀ g ∈ s.factories.groups, s.board.CountsDown g ∨ s.board.InUse g := by
    intro g hg
    rcases h.group g hg with ⟨t, hpos, -, hall⟩ | ⟨hall, n, hn, hready⟩
    · exact Or.inl ⟨h.ne_nil g hg, t, hpos, hall⟩
    · refine Or.inr ⟨fun m hm => ?_, n, hn, (Board.statusOf_ready_iff (hkind g hg n hn)).2 hready⟩
      exact (hall m hm).imp (Board.statusOf_ready_iff (hkind g hg m hm)).2
        (Board.statusOf_depleted_iff (hkind g hg m hm)).2
  refine ⟨hstates, fun hnone g hg => (hstates g hg).resolve_right ?_⟩
  rintro ⟨-, n, hn, hready⟩
  exact hnone n (hkind g hg n hn) hready

end Plant

/-- Setting up factories on a board of a layout succeeds, unless they are to hold no magic states or
refills take too long. From then on, whatever is done to the board and the factories, ticks can pass
for as long as the clock has 32-bit numbers for them; and at the start and after every tick each factory
is being refilled or in use, so all factories are being refilled while no magic state is ready. The
board stays one of the layout. -/
theorem factory_states {l : Layout} {b : Board} (hb : Board.Stage l b) {k perFactory : Nat}
    (hper : 1 ≤ perFactory) (hk : k + 1 < 2 ^ 31) :
    ∃ f b', Factories.setUp b k perFactory = .ok (f, b') ∧
      f.groups = Factories.chunks perFactory (b.nodesOfKind (.patch .magic)).toList ∧
      Plant.Supplied ⟨b', f⟩ ∧
      ∀ s, ReflTransGen (Plant.Step l) ⟨b', f⟩ s →
        Board.Stage l s.board ∧ s.factories.groups = f.groups ∧
        ∀ (τ : Type) (done : List τ) (log : Factories.Log τ),
          Ends (s.factories.advance done s.board log 1)
            (fun e => e = .countOutOfRange ∧ countLimit ≤ s.factories.tick + 1)
            fun r => r.1.groups = f.groups ∧ Plant.Supplied ⟨r.2.1, r.1⟩ := by
  have hsetUp := Factories.setUp_ends hb.sound k perFactory
  cases h : Factories.setUp b k perFactory with
  | error e =>
    rcases hsetUp.of_error h with hzero | hrange
    · omega
    · exact absurd hk hrange
  | ok r =>
    obtain ⟨f, b'⟩ := r
    have hset := hsetUp.of_ok h
    have hcycling := hset.cycling hk
    have hsince : Plant.Since l k ⟨b', f⟩ :=
      ⟨(Plant.lasting_stage l).setUp hb h, hset.replenishTicks, hset.placed, b', hset.sound, hcycling,
        .refl hset.sound⟩
    refine ⟨f, b', rfl, Factories.groups_of_setUp h,
      Plant.supplied_of_cycling hcycling hset.placed, fun s hs => ?_⟩
    obtain ⟨hnow, hgroups⟩ := hsince.of_steps hk hs
    refine ⟨hnow.stage, hgroups, fun τ done log => ?_⟩
    refine (hnow.advance_ends hk done log).mono (fun _ h => h) ?_
    rintro ⟨f₁, b₁, log₁⟩ ⟨hnext, hgroups', hcycling'⟩
    exact ⟨hgroups'.trans hgroups, Plant.supplied_of_cycling hcycling' hnext.placed⟩

/-- With a refill of two ticks, the magic state is ready after a tick. It is moved into the storage,
which leaves its factory without a ready state, so in the next tick the refill starts. -/
theorem resetLayout_refilled : ∃ b f b', Board.ofLayout Depot.resetLayout = .ok b ∧
    Factories.setUp b 2 1 = .ok (f, b') ∧ f.groups = [[Board.magicNode 0]] ∧
    ∃ s, ReflTransGen (Plant.Step Depot.resetLayout) ⟨b', f⟩ s ∧
      s.board.statusOf (Board.magicNode 0) = some ⟨.patch .magic, .depleted⟩ ∧
      ∃ f₁ b₁ log₁, s.factories.advance ([] : List Packed) s.board ∅ 1 = .ok (f₁, b₁, log₁) ∧
        b₁.CountsDown [Board.magicNode 0] := by
  have hrun : (Board.ofLayout Depot.resetLayout).toOption.any (fun b =>
      (Factories.setUp b 2 1).toOption.any fun r =>
        (r.1.advance ([] : List Packed) r.2 ∅ 1).toOption.any fun r₁ =>
          (r₁.1.advance ([] : List Packed) r₁.2.1.storeMagicStates ∅ 1).toOption.any fun r₂ =>
            decide (r.1.groups = [[Board.magicNode 0]]) &&
              decide (r₁.2.1.storeMagicStates.statusOf (Board.magicNode 0) =
                some ⟨.patch .magic, .depleted⟩) &&
                decide (r₂.2.1.statusOf (Board.magicNode 0) ≠ some ⟨.patch .magic, .ready⟩)) =
      true := by decide +kernel
  obtain ⟨b, hb, hrun⟩ := exists_of_any_toOption hrun
  obtain ⟨⟨f, b'⟩, hsetUp, hrun⟩ := exists_of_any_toOption hrun
  obtain ⟨⟨f₁, b₁, log₁⟩, hfirst, hrun⟩ := exists_of_any_toOption hrun
  obtain ⟨⟨f₂, b₂, log₂⟩, hsecond, hrun⟩ := exists_of_any_toOption hrun
  simp only [Bool.and_eq_true, decide_eq_true_eq] at hrun
  obtain ⟨⟨hgroups, hspent⟩, hnot⟩ := hrun
  have hsteps : ReflTransGen (Plant.Step Depot.resetLayout) ⟨b', f⟩ ⟨b₁.storeMagicStates, f₁⟩ :=
    (ReflTransGen.single (.advance hfirst)).tail (.store _ _)
  obtain ⟨f', b'', hsetUp', -, -, hstates⟩ :=
    factory_states (.ofLayout hb) (le_refl 1) (by decide : 2 + 1 < 2 ^ 31)
  obtain ⟨rfl, rfl⟩ := Prod.mk.inj (Except.ok.inj (hsetUp.symm.trans hsetUp'))
  obtain ⟨hgroups', hsupplied⟩ := ((hstates _ hsteps).2.2 Packed [] ∅).of_ok hsecond
  refine ⟨b, f, b', hb, hsetUp, hgroups, _, hsteps, hspent, f₂, b₂, log₂, hsecond, ?_⟩
  refine (hsupplied.states [Board.magicNode 0] ?_).resolve_right ?_
  · show [Board.magicNode 0] ∈ f₂.groups
    rw [hgroups', hgroups]
    exact List.mem_singleton_self _
  · rintro ⟨-, n, hn, hready⟩
    rw [List.mem_singleton.1 hn] at hready
    exact hnot hready

end LatticeSurgery
