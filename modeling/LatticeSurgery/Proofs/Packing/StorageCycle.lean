import LatticeSurgery.Proofs.Board.StorageCycle
import LatticeSurgery.Proofs.Factory.Clock
import LatticeSurgery.Proofs.Packing.Course
import LatticeSurgery.Proofs.Packing.SecondRound
import LatticeSurgery.Proofs.Schedule.Refilling

/-!
# Storages in a sequence of operations

A `Depot` is a board with its factories and its packer, and the history of what was done to it: storages
are filled and reset, time passes, rotations are packed, and packings that were returned are committed
once more, in any order. In every such sequence each storage goes through the phases of its life one by
one, and rotations take no more from it than was put into it (`Depot.storage_life`).
-/

namespace LatticeSurgery

open Ordered Relation LatticeSurgery.Graph

variable {b b' : Board} {f f' : Factories} {p : Packed} {turnTicks : Int} {id : Nat}

namespace Board

/-- Setting the countdowns of other nodes leaves a storage alone. -/
theorem SetTo.ticksOf_storage {ns : List Node} {t : Int} (h : b.SetTo ns t b')
    (hns : ∀ n ∈ ns, n.kind ≠ .patch .storage) :
    b'.ticksOf (storageNode id) = b.ticksOf (storageNode id) := by
  rw [h.ticks, if_neg fun hmem => hns _ hmem rfl]

end Board

open Board

/-! ## Commitments -/

/-- The rotation is carried out with the magic state of the storage. -/
def Packed.Draws (p : Packed) (id : Nat) : Prop := p.resource = some (.storage (storageNode id))

instance (p : Packed) (id : Nat) : Decidable (p.Draws id) :=
  inferInstanceAs (Decidable (p.resource = some (.storage (storageNode id))))

/-- How many of some rotations are carried out with the magic state of the storage. -/
def drawn (id : Nat) (ps : List Packed) : Nat := ps.countP fun p => decide (p.Draws id)

/-- What committing rotations does to a storage: nothing, or one of them takes the magic state. -/
def Draining (b b' : Board) (id k : Nat) : Prop :=
  (b'.ticksOf (storageNode id) = b.ticksOf (storageNode id) ∧ k = 0) ∨
    (b.ticksOf (storageNode id) = some 0 ∧
      b'.ticksOf (storageNode id) = some Phase.consumedTicks ∧ k = 1)

/-- Committing a rotation drains no storage but its resource. -/
theorem commit_draining (hb : b.Sound) (hown : p.MarksOwn)
    (h : commit b f p turnTicks = .ok (b', f')) (id : Nat) : Draining b b' id (drawn id [p]) := by
  obtain ⟨hset, -, hready⟩ := commit_setTo hb h
  by_cases hdraws : p.Draws id
  · refine Or.inr ⟨hready _ hdraws, ?_, by simp [drawn, hdraws]⟩
    have hmarks : p.marks turnTicks = ([storageNode id], Phase.consumedTicks) := by
      unfold Packed.marks
      rw [show p.resource = some (.storage (storageNode id)) from hdraws]
    rw [hset.ticks, hmarks, if_pos (List.mem_singleton_self _)]
  · refine Or.inl ⟨?_, by simp [drawn, hdraws]⟩
    rw [hset.ticks, if_neg fun hmem => hdraws ((hown _ _ hmem).2 rfl)]

theorem Draining.trans {b₁ : Board} {k k' : Nat} (h : Draining b b₁ id k)
    (h' : Draining b₁ b' id k') : Draining b b' id (k + k') := by
  rcases h with ⟨hsame, rfl⟩ | ⟨hready, hconsumed, rfl⟩
  · rcases h' with ⟨hsame', rfl⟩ | ⟨hready', hconsumed', rfl⟩
    · exact Or.inl ⟨hsame'.trans hsame, rfl⟩
    · exact Or.inr ⟨hsame ▸ hready', hconsumed', rfl⟩
  · rcases h' with ⟨hsame', rfl⟩ | ⟨hready', hconsumed', rfl⟩
    · exact Or.inr ⟨hready, hsame'.trans hconsumed, rfl⟩
    · cases hconsumed.symm.trans hready'

/-- Committing rotations one after the other changes countdowns only, and one of them at most draws on
a storage. -/
theorem commitAll_storages {ps : List Packed} (hb : b.Sound) (hown : ∀ p ∈ ps, p.MarksOwn)
    (h : commitAll turnTicks ps b f = .ok (b', f')) :
    b'.Sound ∧ b'.graph = b.graph ∧ f.SameSetup f' ∧ ∀ id, Draining b b' id (drawn id ps) := by
  induction ps generalizing b f with
  | nil =>
    cases h
    exact ⟨hb, rfl, .refl _, fun id => Or.inl ⟨rfl, rfl⟩⟩
  | cons p ps ih =>
    obtain ⟨b₁, f₁, hone, hrest⟩ := commitAll_cons_eq_ok.1 h
    obtain ⟨hset, hsetup, -⟩ := commit_setTo hb hone
    obtain ⟨hsound, hgraph, hsetup', hdrains⟩ :=
      ih hset.sound (fun q hq => hown q (List.mem_cons_of_mem _ hq)) hrest
    refine ⟨hsound, hgraph.trans hset.graph, hsetup.trans hsetup', fun id => ?_⟩
    have hsum : drawn id (p :: ps) = drawn id [p] + drawn id ps := by
      rw [drawn, drawn, drawn, ← List.countP_append, List.singleton_append]
    rw [hsum]
    exact (commit_draining hb (hown p List.mem_cons_self) hone id).trans (hdrains id)

theorem Draining.lives {k : Nat} (h : Draining b b' id k) : b.Lives b' id k := by
  rcases h with ⟨hsame, rfl⟩ | ⟨hready, hconsumed, rfl⟩
  · exact .rests hsame
  · exact .spent hready hconsumed

/-! ## Factories -/

/-- Refilling changes countdowns of magic states only. -/
theorem Factories.refill_storages {ticks : Int} {groups : List (List Node)} (hb : b.Sound)
    (hgroups : ∀ n ∈ groups.flatten, n.kind = .patch .magic)
    (h : refill ticks groups f b = .ok (f', b')) : b'.Sound ∧ b'.graph = b.graph ∧
      f'.groups = f.groups ∧ ∀ id, b'.ticksOf (storageNode id) = b.ticksOf (storageNode id) := by
  induction groups generalizing f b with
  | nil =>
    cases h
    exact ⟨hb, rfl, rfl, fun _ => rfl⟩
  | cons g gs ih =>
    have hrest : ∀ n ∈ gs.flatten, n.kind = .patch .magic := fun n hn => hgroups n (by simp [hn])
    unfold refill at h
    split at h
    · obtain ⟨b₁, hset, h⟩ := exists_of_bind_eq_ok h
      have hset := hb.setTo_of_setTicks hset
      obtain ⟨hsound, hgraph, hsame, hticks⟩ := ih hset.sound hrest h
      refine ⟨hsound, hgraph.trans hset.graph, hsame.trans (foldl_mark_setup f true g).groups,
        fun id => (hticks id).trans (hset.ticksOf_storage fun n hn => ?_)⟩
      rw [hgroups n (by simp [hn])]
      simp
    · exact ih hb hrest h

theorem Factories.advance_storages {τ : Type} {done : List τ} {log log' : Log τ} {elapsed : Nat}
    (hb : b.Sound) (hp : b.graph.Ported) (hgroups : ∀ n ∈ f.groups.flatten, n.kind = .patch .magic)
    (h : f.advance done b log elapsed = .ok (f', b', log')) : b'.Sound ∧ b'.graph.Ported ∧
      f'.groups = f.groups ∧ ∀ id, b.Lives b' id 0 := by
  obtain ⟨ticks, f₁, -, hrefill, -, hf', -⟩ := exists_of_advance h
  obtain ⟨hsound, hgraph, hsame, hticks⟩ :=
    refill_storages (elapse_spec hb elapsed).sound hgroups hrefill
  have hgroups' : f'.groups = f₁.groups := by rw [hf']
  exact ⟨hsound, hgraph ▸ ported_elapse hb hp elapsed, hgroups'.trans hsame,
    fun id => lives_of_elapse hb (hticks id)⟩

/-- Setting up factories changes countdowns of magic states only. -/
theorem Factories.setUp_storages {replenishTicks perFactory : Nat} (hb : b.Sound)
    (h : setUp b replenishTicks perFactory = .ok (f', b')) : b'.Sound ∧ b'.graph = b.graph ∧
      (∀ n ∈ f'.groups.flatten, n.kind = .patch .magic) ∧
      ∀ id, b'.ticksOf (storageNode id) = b.ticksOf (storageNode id) := by
  have hset := (setUp_ends hb replenishTicks perFactory).of_ok h
  refine ⟨hset.sound, hset.graph, hset.placed.kind, fun id => hset.other _ ?_⟩
  simp [storageNode, Node.kind]

/-! ## Packing -/

theorem Packer.runStorages_tends {q : Packer} {moment : StoragePhase} (hb : b.Sound)
    (hp : b.graph.Ported) (h : q.runStorages moment b = .ok b') : b.Tends b' := by
  unfold runStorages at h
  split at h
  · cases h
    exact .refl hb
  · have hstore : b.Tends (if q.store = moment then b.storeMagicStates else b) := by
      split
      · exact storeMagicStates_tends hb hp
      · exact .refl hb
    dsimp only at h
    split at h
    · exact hstore.trans hb
        (resetStorages_tends hstore.occupies.sound (hstore.occupies.graph ▸ hp) h)
    · cases h
      exact hstore

/-! ## Sequences of operations -/

/-- One operation: the board before it, the board after it, and the rotations committed by it. -/
structure Leg where
  /-- The board before. -/
  before : Board
  /-- The board after. -/
  after : Board
  /-- The rotations committed. -/
  done : List Packed

/-- A board with what works on it, and what was done so far. -/
structure Depot where
  /-- The board. -/
  board : Board
  /-- The factories. -/
  factories : Factories
  /-- The packer. -/
  packer : Packer
  /-- The packings that the packer returned. -/
  returned : List Packed
  /-- The operations so far, in order. -/
  history : List Leg

namespace Depot

variable {d d' : Depot}

/-- A depot in which nothing was done, with a new packer and no factories. -/
def start (b : Board) (turnTicks : Nat) (store reset : StoragePhase) : Depot :=
  ⟨b, ⟨0, 0, [], ∅⟩, Packer.new turnTicks store reset, [], []⟩

/-- The depot after an operation that leads to the given board and factories. -/
def proceed (d : Depot) (b : Board) (f : Factories) (done : List Packed) : Depot :=
  { d with board := b, factories := f, history := d.history ++ [⟨d.board, b, done⟩] }

/-- The depot after a tick was packed: the storages are seen to, the packed rotations are committed,
and the storages are seen to again. -/
def packed {σ : Type} (d : Depot) (b₀ b₁ : Board) (r : Packer.Result σ) : Depot :=
  { ((d.proceed b₀ d.factories []).proceed b₁ r.factories r.packed).proceed r.board r.factories [] with
    packer := r.packer, returned := d.returned ++ r.packed }

/-- An operation that succeeds. -/
inductive Step : Depot → Depot → Prop
  | store (d : Depot) : Step d (d.proceed d.board.storeMagicStates d.factories [])
  | reset {d : Depot} {b : Board} (h : d.board.resetStorages = .ok b) :
    Step d (d.proceed b d.factories [])
  | elapse (d : Depot) (ticks : Nat) : Step d (d.proceed (d.board.elapse ticks) d.factories [])
  | setUp {d : Depot} {b : Board} {f : Factories} {replenishTicks perFactory : Nat}
    (h : Factories.setUp d.board replenishTicks perFactory = .ok (f, b)) : Step d (d.proceed b f [])
  | advance {d : Depot} {b : Board} {f : Factories} {τ : Type} {done : List τ}
    {log log' : Factories.Log τ} {elapsed : Nat}
    (h : d.factories.advance done d.board log elapsed = .ok (f, b, log')) : Step d (d.proceed b f [])
  | pack {d : Depot} {σ : Type} [WordSource σ] {rotations : List Rotation} {rng : σ}
    {r : Packer.Result σ} {b₀ b₁ : Board}
    (h : d.packer.pack rotations d.board d.factories rng = .ok r)
    (hcourse : d.packer.Course r.packed d.board d.factories b₀ b₁ r.board r.factories) :
    Step d (d.packed b₀ b₁ r)
  | commit {d : Depot} {b : Board} {f : Factories} {p : Packed} {turnTicks : Int}
    (hp : p ∈ d.returned) (h : commit d.board d.factories p turnTicks = .ok (b, f)) :
    Step d (d.proceed b f [p])

/-- Every packing that succeeds is an operation. -/
theorem exists_step_of_pack {σ : Type} [WordSource σ] {rotations : List Rotation} {rng : σ}
    {r : Packer.Result σ} (h : d.packer.pack rotations d.board d.factories rng = .ok r) :
    ∃ b₀ b₁, Step d (d.packed b₀ b₁ r) := by
  obtain ⟨b₀, b₁, hcourse⟩ := Packer.exists_course h
  exact ⟨b₀, b₁, .pack h hcourse⟩

/-- How many rotations were carried out with the magic state of a storage. -/
def spent (id : Nat) (history : List Leg) : Nat := (history.map fun l => drawn id l.done).sum

/-- How often a ready magic state was spent to fill a storage. -/
def filled (id : Nat) (history : List Leg) : Nat :=
  history.countP fun l => decide (l.before.Fills l.after id)

theorem spent_concat (id : Nat) (history : List Leg) (l : Leg) :
    spent id (history ++ [l]) = spent id history + drawn id l.done := by
  simp [spent]

theorem filled_concat (id : Nat) (history : List Leg) (l : Leg) : filled id (history ++ [l]) =
    filled id history + if l.before.Fills l.after id then 1 else 0 := by
  simp [filled, List.countP_append, List.countP_singleton]

/-- What is kept by every operation about the board and its history. -/
structure Lived (d : Depot) : Prop where
  sound : d.board.Sound
  ported : d.board.graph.Ported
  lives : ∀ l ∈ d.history, l.before.Sound ∧ ∀ id, l.before.Lives l.after id (drawn id l.done)
  balance : ∀ id, spent id d.history + d.board.held id ≤ filled id d.history
  past : ∀ past, past <+: d.history → ∀ id, spent id past ≤ filled id past

/-- What is kept by every operation about what works on the board. -/
structure Manned (d : Depot) : Prop where
  packer : d.packer.Sound
  serves : ∀ p ∈ d.returned, p.Serves
  groups : ∀ n ∈ d.factories.groups.flatten, n.kind = .patch .magic

theorem Lived.proceed (h : d.Lived) (hb : b.Sound) (hp : b.graph.Ported) (f : Factories)
    (done : List Packed) (hlives : ∀ id, d.board.Lives b id (drawn id done)) :
    (d.proceed b f done).Lived := by
  have hbalance : ∀ id, spent id (d.proceed b f done).history + b.held id ≤
      filled id (d.proceed b f done).history := by
    intro id
    have hbefore := h.balance id
    have hstep := (hlives id).balance
    unfold Depot.proceed
    rw [spent_concat, filled_concat]
    dsimp only
    omega
  refine ⟨hb, hp, fun l hl => ?_, hbalance, fun past hpast id => ?_⟩
  · rcases List.mem_append.1 hl with hl | hl
    · exact h.lives l hl
    · rw [List.mem_singleton.1 hl]
      exact ⟨h.sound, hlives⟩
  · rcases List.prefix_concat_iff.1 hpast with rfl | hpast
    · have hnow := hbalance id
      unfold Depot.proceed at hnow
      exact Nat.le_trans (Nat.le_add_right _ _) hnow
    · exact h.past past hpast id

theorem Manned.proceed (h : d.Manned) (b : Board) (done : List Packed)
    (hgroups : ∀ n ∈ f.groups.flatten, n.kind = .patch .magic) : (d.proceed b f done).Manned :=
  ⟨h.packer, h.serves, hgroups⟩

/-- Seeing to the storages is an operation. -/
theorem Lived.tend (h : d.Lived) (htends : d.board.Tends b) (f : Factories) :
    (d.proceed b f []).Lived :=
  h.proceed htends.occupies.sound (htends.occupies.graph ▸ h.ported) f [] htends.lives

theorem Step.kept (h : d.Lived ∧ d.Manned) (hstep : Step d d') : d'.Lived ∧ d'.Manned := by
  obtain ⟨hlived, hmanned⟩ := h
  have hb := hlived.sound
  have hp := hlived.ported
  cases hstep with
  | store => exact ⟨hlived.tend (storeMagicStates_tends hb hp) _, hmanned.proceed _ _ hmanned.groups⟩
  | reset h => exact ⟨hlived.tend (resetStorages_tends hb hp h) _, hmanned.proceed _ _ hmanned.groups⟩
  | elapse ticks =>
    exact ⟨hlived.proceed (elapse_spec hb ticks).sound (ported_elapse hb hp ticks) _ []
      fun id => lives_of_elapse hb rfl, hmanned.proceed _ _ hmanned.groups⟩
  | setUp h =>
    obtain ⟨hsound, hgraph, hgroups, hticks⟩ := Factories.setUp_storages hb h
    exact ⟨hlived.proceed hsound (hgraph ▸ hp) _ [] fun id => .rests (hticks id),
      hmanned.proceed _ _ hgroups⟩
  | advance h =>
    obtain ⟨hsound, hported, hgroups, hlives⟩ := Factories.advance_storages hb hp hmanned.groups h
    exact ⟨hlived.proceed hsound hported _ [] hlives,
      hmanned.proceed _ _ (hgroups ▸ hmanned.groups)⟩
  | @commit b f p turnTicks hp' h =>
    obtain ⟨hset, hsetup, -⟩ := commit_setTo hb h
    exact ⟨hlived.proceed hset.sound (hset.graph ▸ hp) _ [p] fun id =>
      (commit_draining hb (hmanned.serves p hp').marksOwn h id).lives,
      hmanned.proceed _ _ (hsetup.groups ▸ hmanned.groups)⟩
  | @pack σ _ rotations rng r b₀ b₁ h hcourse =>
    have hresult := (Packer.pack_ends hmanned.packer hb _ _ _).of_ok h
    have hserves : ∀ p ∈ r.packed, p.Serves := fun p hp => (hresult.fresh p hp).serves
    have hbefore := Packer.runStorages_tends hb hp hcourse.before
    have hlived₀ := hlived.tend hbefore d.factories
    obtain ⟨hsound₁, hgraph₁, -, hdrains⟩ :=
      commitAll_storages hlived₀.sound (fun p hp => (hserves p hp).marksOwn) hcourse.commits
    have hported₁ : b₁.graph.Ported := hgraph₁ ▸ hlived₀.ported
    have hlived₁ := hlived₀.proceed hsound₁ hported₁ r.factories r.packed
      fun id => (hdrains id).lives
    have hafter := Packer.runStorages_tends hsound₁ hported₁ hcourse.after
    have hlived₂ := hlived₁.tend hafter r.factories
    refine ⟨⟨hlived₂.sound, hlived₂.ported, hlived₂.lives, hlived₂.balance, hlived₂.past⟩,
      ⟨hresult.packer, fun p hp => ?_, ?_⟩⟩
    · rcases List.mem_append.1 hp with hp | hp
      · exact hmanned.serves p hp
      · exact hserves p hp
    · exact hresult.setup.groups ▸ hmanned.groups

theorem kept_of_steps {l : Layout} (hb : ofLayout l = .ok b) (unused : List Node) {turnTicks : Nat}
    {store reset : StoragePhase}
    (h : ReflTransGen Step (start (b.removeNodes unused) turnTicks store reset) d) :
    d.Lived ∧ d.Manned := by
  obtain ⟨hsound, hticks⟩ := ofLayout_spec hb
  induction h with
  | refl =>
    refine ⟨⟨hsound.removeNodes unused, ported_removeNodes hsound.graph (ported_ofLayout hb) unused,
      fun l hl => absurd hl List.not_mem_nil, fun id => ?_, fun past hpast id => ?_⟩,
      ⟨PathCache.sound_empty, TreeCache.sound_empty⟩, fun p hp => absurd hp List.not_mem_nil,
      fun n hn => absurd hn List.not_mem_nil⟩
    · -- the storages are empty at the start
      have hempty : (start (b.removeNodes unused) turnTicks store reset).board.held id = 0 := by
        show (b.removeNodes unused).held id = 0
        rw [held, ticksOf_removeNodes]
        split
        · next t ht =>
          split at ht
          · cases ht
          · rw [hticks _ t ht]
            rfl
        · rfl
      rw [hempty]
      exact Nat.le_refl 0
    · rw [List.prefix_nil.1 hpast]
      exact Nat.le_refl 0
  | tail _ hstep ih => exact hstep.kept ih

/-- Whatever is done to a board of a layout, in any order: every operation leaves a storage in its
phase or takes it to the next one; up to every point, the rotations that took the magic state of a
storage are no more than the ready magic states with its number that were spent to fill it; and filling
storages would never touch one that is not empty. -/
theorem storage_life {l : Layout} (hb : ofLayout l = .ok b) (unused : List Node) {turnTicks : Nat}
    {store reset : StoragePhase}
    (h : ReflTransGen Step (start (b.removeNodes unused) turnTicks store reset) d) :
    (∀ l ∈ d.history, ∀ id, l.before.StorageMoves l.after id) ∧
    (∀ past, past <+: d.history → ∀ id, spent id past ≤ filled id past) ∧
    ∀ b ∈ d.board :: d.history.map Leg.before, ∀ id,
      b.statusOf (storageNode id) ≠ some ⟨.patch .storage, .empty⟩ →
      b.storeMagicStates.ticksOf (storageNode id) = b.ticksOf (storageNode id) := by
  have hlived := (kept_of_steps hb unused h).1
  refine ⟨fun l hl id => ((hlived.lives l hl).2 id).moves, hlived.past, fun b hb id hnot => ?_⟩
  refine ticksOf_storeMagicStates ?_ hnot
  rcases List.mem_cons.1 hb with rfl | hb
  · exact hlived.sound
  · obtain ⟨l, hl, rfl⟩ := List.mem_map.1 hb
    exact (hlived.lives l hl).1

/-- A data patch and a zero state above a row of bus tiles, a magic state and a storage below it. -/
def resetLayout : Layout where
  bus := SortedSet.ofList [⟨0, 0⟩, ⟨1, 0⟩, ⟨2, 0⟩]
  data := SortedSet.ofList [⟨0, 1⟩]
  magic := SortedSet.ofList [⟨1, -1⟩]
  zero := SortedSet.ofList [⟨1, 1⟩, ⟨2, 1⟩]
  storage := SortedSet.ofList [⟨2, -1⟩]

/-- A rotation of the patch by π/8. -/
def resetRotation : Rotation := ⟨0, .pi8, .plus, SortedSet.ofList [0], ∅, ∅⟩

/-- The storage goes through its whole life: it is filled, its magic state is spent on a rotation, and
it is reset. -/
theorem resetLayout_storage_life : ∃ b, ofLayout resetLayout = .ok b ∧
    ∃ d, ReflTransGen Step (start (b.removeNodes []) 1 .never .never) d ∧
      d.board.statusOf (storageNode 0) = some ⟨.patch .storage, .empty⟩ ∧
      spent 0 d.history = 1 ∧ 1 ≤ filled 0 d.history ∧
      ∀ l ∈ d.history, ∀ id, l.before.StorageMoves l.after id := by
  have hrun : (ofLayout resetLayout).toOption.any (fun b =>
      ((Packer.new 1 .never .never).pack [resetRotation]
        ((b.removeNodes []).storeMagicStates.elapse 2) ⟨0, 0, [], ∅⟩
        (⟨[0], 0⟩ : CyclicWords)).toOption.any fun r =>
          decide (drawn 0 r.packed = 1) && r.board.resetStorages.toOption.any fun b' =>
            decide ((b'.elapse 1).statusOf (storageNode 0) = some ⟨.patch .storage, .empty⟩)) =
      true := by decide +kernel
  obtain ⟨b, hb, hrun⟩ := exists_of_any_toOption hrun
  obtain ⟨r, hr, hrun⟩ := exists_of_any_toOption hrun
  rw [Bool.and_eq_true, decide_eq_true_eq] at hrun
  obtain ⟨hdrawn, hrun⟩ := hrun
  obtain ⟨b', hb', hempty⟩ := exists_of_any_toOption hrun
  obtain ⟨d₁, hfilled, hboard, hfactories, hpacker, hnone⟩ :
      ∃ d, ReflTransGen Step (start (b.removeNodes []) 1 .never .never) d ∧
        d.board = (b.removeNodes []).storeMagicStates.elapse 2 ∧
        d.factories = ⟨0, 0, [], ∅⟩ ∧ d.packer = Packer.new 1 .never .never ∧
        spent 0 d.history = 0 :=
    ⟨_, (ReflTransGen.single (.store _)).tail (.elapse _ 2), rfl, rfl, rfl, rfl⟩
  rw [← hboard, ← hfactories, ← hpacker] at hr
  obtain ⟨b₀, b₁, hpack⟩ := exists_step_of_pack hr
  obtain ⟨d₂, hsteps, hboard₂, hone⟩ :
      ∃ d, ReflTransGen Step (start (b.removeNodes []) 1 .never .never) d ∧
        d.board = b'.elapse 1 ∧ spent 0 d.history = 1 := by
    refine ⟨_, ((hfilled.tail hpack).tail (.reset hb')).tail (.elapse _ 1), rfl, ?_⟩
    unfold packed proceed
    simp only [spent_concat, hnone, hdrawn]
    rfl
  obtain ⟨hmoves, hbalance, -⟩ := storage_life hb [] hsteps
  have hspent := hbalance _ List.prefix_rfl 0
  rw [hone] at hspent
  rw [decide_eq_true_eq, ← hboard₂] at hempty
  exact ⟨b, hb, d₂, hsteps, hempty, hone, hspent, hmoves⟩

end Depot

end LatticeSurgery
