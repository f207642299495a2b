import LatticeSurgery.Proofs.Packing.Commuting
import LatticeSurgery.Proofs.Packing.Soundness
import LatticeSurgery.Proofs.Packing.StorageCycle

/-!
# Resets and rotations of one tick

When storages are reset before rotations are packed, the bus tiles and zero states of the resets are
closed, and the packed rotations avoid them. When storages are reset afterwards, it is the other way
round, but of the tree of a packed rotation only the nodes that its commitment marks are closed by
then: the two nodes of a zero state that it uses, and the nodes of a turn. The resets keep off these,
and may run through the other nodes of the tree (`resets_and_rotations`).
-/

namespace LatticeSurgery

open Ordered WordSource

variable {b b' c c' : Board} {p : Packed} {ps : List Packed} {f f' : Factories} {turnTicks : Int}
  {n : Node}

namespace Board

/-- A bus tile or a node of a zero state was ready and is busy. -/
def MadeBusy (b b' : Board) (n : Node) : Prop :=
  (n.kind = .bus ∨ n.kind = .patch .zero) ∧ b.statusOf n = some ⟨n.kind, .ready⟩ ∧
    b'.statusOf n = some ⟨n.kind, .busy⟩

instance (b b' : Board) (n : Node) : Decidable (b.MadeBusy b' n) :=
  inferInstanceAs (Decidable (_ ∧ _))

theorem MadeBusy.not_storage (h : b.MadeBusy b' n) : n.kind ≠ .patch .storage := by
  rcases h.1 with hk | hk <;> simp [hk]

/-- What is made busy was open. -/
theorem MadeBusy.opened (hb : b.Sound) (h : b.MadeBusy b' n) : n ∉ b.unavailable := by
  obtain ⟨t, ht, hs⟩ := statusOf_eq_iff.1 h.2.1
  obtain ⟨-, rfl⟩ := Status.ofTicks_ready_iff.1 hs
  rw [hb.mem_unavailable_iff h.not_storage]
  rintro ⟨t, ht', hne⟩
  exact hne (Option.some.inj (ht'.symm.trans ht))

/-- What is made busy is closed. -/
theorem MadeBusy.closed (hb' : b'.Sound) (h : b.MadeBusy b' n) : n ∈ b'.unavailable := by
  obtain ⟨t, ht, hs⟩ := statusOf_eq_iff.1 h.2.2
  refine (hb'.mem_unavailable_iff h.not_storage).2 ⟨t, ht, ?_⟩
  rintro rfl
  rw [Status.ofTicks_ready_iff.2 ⟨rfl, rfl⟩] at hs
  cases hs

end Board

open Board

/-! ## What commitments close -/

/-- The rotation takes the bus tile for a turn, which takes time, or the node belongs to the zero state
that it uses. -/
def Packed.Closes (turnTicks : Int) (p : Packed) (n : Node) : Prop :=
  match p.resource with
  | some (.bus bus) => n = bus ∧ turnTicks ≠ 0
  | some (.zeroState id) => n = .zero id .X ∨ n = .zero id .Z
  | _ => False

/-- The bus tile that a turn takes belongs to its tree. -/
theorem Packed.Serves.contains_of_bus (h : p.Serves) (hr : p.resource = some (.bus n)) :
    p.tree.contains n = true := by
  obtain ⟨edge, -, -, bus, -, hr', hnodes⟩ := h.of_turn (h.turning_iff.1 ⟨n, hr⟩)
  rw [hr, Option.some_inj, Resource.bus.injEq] at hr'
  exact (hnodes n).2 (Or.inr hr')

/-- Of the bus tiles and zero states, the commitment of a rotation closes those of its resource. -/
theorem Packed.Serves.closes_iff (h : p.Serves) (hn : n.kind = .bus ∨ n.kind = .patch .zero) :
    p.Closes turnTicks n ↔ n ∈ (p.marks turnTicks).1 ∧ markTicks turnTicks n.kind ≠ 0 := by
  unfold Closes marks
  cases hresource : p.resource with
  | none => simp
  | some resource =>
    cases resource with
    | magicState m =>
      refine iff_of_false id ?_
      rintro ⟨hmem, -⟩
      rw [List.mem_singleton.1 hmem, h.kind_of_magicState hresource] at hn
      rcases hn with hn | hn <;> cases hn
    | storage m =>
      refine iff_of_false id ?_
      rintro ⟨hmem, -⟩
      rw [List.mem_singleton.1 hmem, h.kind_of_storage hresource] at hn
      rcases hn with hn | hn <;> cases hn
    | zeroState id =>
      refine ⟨fun hnode => ⟨List.mem_pair.2 hnode, ?_⟩, fun hmem => List.mem_pair.1 hmem.1⟩
      rcases hnode with rfl | rfl <;> exact one_ne_zero
    | bus bus =>
      have hbus := h.kind_of_bus hresource
      constructor
      · rintro ⟨rfl, hne⟩
        refine ⟨Tree.mem_nodes.2 (h.contains_of_bus hresource), ?_⟩
        rwa [hbus]
      · rintro ⟨hmem, hne⟩
        rcases h.node_of_turn hresource (Tree.mem_nodes.1 hmem) with ⟨q, -, basis, rfl⟩ | rfl
        · rcases hn with hn | hn <;> cases hn
        · rw [hbus] at hne
          exact ⟨rfl, hne⟩

/-- After rotations were committed, a bus tile or a node of a zero state that was ready is closed if
one of the rotations closed it. -/
theorem Marks.mem_unavailable_iff (h : Marks turnTicks ps b b') (hserves : ∀ p ∈ ps, p.Serves)
    (hn : n.kind = .bus ∨ n.kind = .patch .zero) (hready : b.ticksOf n = some 0) :
    n ∈ b'.unavailable ↔ ∃ p ∈ ps, p.Closes turnTicks n := by
  have hstorage : n.kind ≠ .patch .storage := by
    rcases hn with hk | hk <;> simp [hk]
  rw [h.sound.mem_unavailable_iff hstorage, h.ticks, hready]
  constructor
  · rintro ⟨t, ht, hne⟩
    split at ht
    · next hmarked =>
      obtain ⟨p, hp, hmem⟩ := hmarked
      refine ⟨p, hp, ((hserves p hp).closes_iff hn).2 ⟨hmem, ?_⟩⟩
      rwa [Option.some.inj ht]
    · exact absurd (Option.some.inj ht).symm hne
  · rintro ⟨p, hp, hcloses⟩
    obtain ⟨hmem, hne⟩ := ((hserves p hp).closes_iff hn).1 hcloses
    exact ⟨_, if_pos ⟨p, hp, hmem⟩, hne⟩

/-! ## Collisions -/

namespace Packer

/-- The storages are reset when they are seen to at the given moment, on the board `c`. -/
structure Resets (p : Packer) (moment : StoragePhase) (b c c' : Board) : Prop where
  /-- It is the moment for it. -/
  due : p.reset = moment
  /-- There are storages. -/
  storages : (b.idsOfKind .storage).isEmpty = false
  /-- Storages are filled first, if it is the moment for that, too. -/
  filled : c = if p.store = moment then b.storeMagicStates else b
  /-- They are reset. -/
  resets : c.resetStorages = .ok c'

theorem Resets.runStorages {p : Packer} {moment : StoragePhase} (h : p.Resets moment b c c') :
    p.runStorages moment b = .ok c' := by
  unfold Packer.runStorages
  rw [h.storages, if_neg Bool.false_ne_true]
  dsimp only
  rw [if_pos h.due, ← h.filled]
  exact h.resets

/-- The board on which storages are reset. -/
theorem Resets.occupies {p : Packer} {moment : StoragePhase} (h : p.Resets moment b c c')
    (hb : b.Sound) : b.Occupies c ∧ c.Occupies c' := by
  have hc : b.Occupies c := by
    rw [h.filled]
    split
    · exact (storeMagicStates_spec hb).1
    · exact .refl hb
  exact ⟨hc, ((resetStorages_ends hc.sound).of_ok h.resets).1⟩

/-- A tick that is packed on a board of a layout begins on a board `b₀`, when storages have been seen to
before, and its commitments lead to a board `b₁`, on which storages are seen to afterwards. What a
reset before makes busy is in no tree that is packed. The bus tiles and zero states of the trees that
are closed on `b₁` are those that a packed rotation closes, so what a reset afterwards makes busy is
closed by none of the packed rotations; it may be in their trees. -/
theorem resets_and_rotations {σ : Type} [WordSource σ] {l : Layout} {p : Packer} (hp : Used l p)
    {b : Board} (hb : Board.Stage l b) {f : Factories} {rng : σ} {rotations : List Rotation}
    {r : Result σ} (hr : p.pack rotations b f rng = .ok r) :
    ∃ b₀ b₁, p.Course r.packed b f b₀ b₁ r.board r.factories ∧
      (∀ c c', p.Resets .beforePacking b c c' → c' = b₀ ∧
        ∀ n, c.MadeBusy c' n → ∀ q ∈ r.packed, q.tree.contains n = false) ∧
      (∀ q ∈ r.packed, ∀ n, q.tree.contains n = true → n.kind = .bus ∨ n.kind = .patch .zero →
        (n ∈ b₁.unavailable ↔ ∃ q' ∈ r.packed, q'.Closes p.turnTicks n)) ∧
      ∀ c c', p.Resets .afterPacking b₁ c c' → c' = r.board ∧
        ∀ n, c.MadeBusy c' n → ∀ q ∈ r.packed, ¬ q.Closes p.turnTicks n := by
  have hresult := (pack_ends hp.sound hb.sound f rng rotations).of_ok hr
  obtain ⟨b₀, b₁, hcourse⟩ := exists_course hr
  obtain ⟨b₀', hbefore, hoccupies, hfound⟩ := hresult.found
  obtain rfl := Except.ok.inj (hbefore.symm.trans hcourse.before)
  have hserves : ∀ q ∈ r.packed, q.Serves := fun q hq => (hfound q hq).fresh.serves
  have hmarks := marks_of_commitAll hoccupies.sound hserves hcourse.commits
  refine ⟨b₀', b₁, hcourse, fun c c' hresets => ?_, fun q hq n hn hkind => ?_,
    fun c c' hresets => ?_⟩
  · obtain rfl := Except.ok.inj (hresets.runStorages.symm.trans hbefore)
    refine ⟨rfl, fun n hbusy q hq => ?_⟩
    by_contra hcontains
    rw [Bool.not_eq_false] at hcontains
    exact (hfound q hq).fresh.opened n hcontains (hbusy.closed hoccupies.sound)
  · have hready : b₀'.ticksOf n = some 0 := by
      refine hoccupies.sound.ticksOf_eq_zero ?_ ((hfound q hq).node n hn ?_)
        ((hfound q hq).fresh.opened n hn) <;> rcases hkind with hk | hk <;> simp [hk]
    exact hmarks.mem_unavailable_iff hserves hkind hready
  · obtain rfl := Except.ok.inj (hresets.runStorages.symm.trans hcourse.after)
    refine ⟨rfl, fun n hbusy q hq hcloses => ?_⟩
    have hfilled := (hresets.occupies hmarks.sound).1
    -- what the rotation closes stays closed when storages are filled
    obtain ⟨hmem, hne⟩ := ((hserves q hq).closes_iff hbusy.1).1 hcloses
    refine hbusy.opened hfilled.sound (hfilled.mem_unavailable hmarks.sound ?_)
    refine (hmarks.sound.mem_unavailable_iff hbusy.not_storage).2 ⟨_, ?_, hne⟩
    rw [hmarks.ticks, if_pos ⟨q, hq, hmem⟩]

/-- A turn of the patch. -/
def resetTurn : Rotation := ⟨0, .turn, .plus, ∅, ∅, SortedSet.ofList [0]⟩

/-- The consumed storage is reset before the patch is turned, and the turn keeps off the nodes that the
reset makes busy. -/
theorem resetLayout_turn_avoids_reset : ∃ b b' c, Board.ofLayout Depot.resetLayout = .ok b ∧
    b.setTicks [storageNode 0] Phase.consumedTicks = .ok b' ∧ b'.resetStorages = .ok c ∧
    ∃ r, (Packer.new 1 .never .beforePacking).pack [resetTurn] b' ⟨0, 0, [], ∅⟩
      (⟨[0], 0⟩ : CyclicWords) = .ok r ∧ r.packed ≠ [] ∧ (∃ n, b'.MadeBusy c n) ∧
      ∀ n, b'.MadeBusy c n → ∀ q ∈ r.packed, q.tree.contains n = false := by
  have hrun : (Board.ofLayout Depot.resetLayout).toOption.any (fun b =>
      (b.setTicks [storageNode 0] Phase.consumedTicks).toOption.any fun b' =>
        b'.resetStorages.toOption.any fun c =>
          ((Packer.new 1 .never .beforePacking).pack [resetTurn] b' ⟨0, 0, [], ∅⟩
            (⟨[0], 0⟩ : CyclicWords)).toOption.any fun r =>
              decide (r.packed ≠ []) && decide ((b'.idsOfKind .storage).isEmpty = false) &&
                b'.graph.nodes.any fun n => decide (b'.MadeBusy c n)) = true := by decide +kernel
  obtain ⟨b, hb, hrun⟩ := exists_of_any_toOption hrun
  obtain ⟨b', hb', hrun⟩ := exists_of_any_toOption hrun
  obtain ⟨c, hc, hrun⟩ := exists_of_any_toOption hrun
  obtain ⟨r, hr, hrun⟩ := exists_of_any_toOption hrun
  simp only [Bool.and_eq_true, decide_eq_true_eq, List.any_eq_true] at hrun
  obtain ⟨⟨hpacked, hstorages⟩, n, -, hbusy⟩ := hrun
  obtain ⟨b₀, b₁, -, hbefore, -⟩ := resets_and_rotations (l := Depot.resetLayout)
    (.new 1 .never .beforePacking) (.setTicks (.ofLayout hb) hb') hr
  obtain ⟨-, havoids⟩ := hbefore b' c ⟨rfl, hstorages, rfl, hc⟩
  exact ⟨b, b', c, hb, hb', hc, r, hr, hpacked, ⟨n, hbusy⟩, havoids⟩

/-- The patch is rotated by π/8 with the magic state of the storage, which is then reset in the same
tick, through bus tiles of the tree of the rotation. -/
theorem exists_reset_collision : ∃ p b f r, Used Depot.resetLayout p ∧ Board.Stage Depot.resetLayout b ∧
    p.pack [Depot.resetRotation] b f (⟨[0], 0⟩ : CyclicWords) = .ok r ∧
    ∃ b₀ b₁ c, p.Course r.packed b f b₀ b₁ r.board r.factories ∧
      p.Resets .afterPacking b₁ c r.board ∧
      ∃ n, c.MadeBusy r.board n ∧ ∃ q ∈ r.packed, q.tree.contains n = true := by
  have hrun : (Board.ofLayout Depot.resetLayout).toOption.any (fun b =>
      ((Packer.new 1 .never .afterPacking).pack [Depot.resetRotation] (b.storeMagicStates.elapse 2)
        ⟨0, 0, [], ∅⟩ (⟨[0], 0⟩ : CyclicWords)).toOption.any fun r =>
          (commitAll 1 r.packed (b.storeMagicStates.elapse 2) ⟨0, 0, [], ∅⟩).toOption.any fun s =>
            decide ((s.1.idsOfKind .storage).isEmpty = false) &&
              r.packed.any fun q => q.tree.nodes.any fun n =>
                decide (s.1.MadeBusy r.board n)) = true := by decide +kernel
  obtain ⟨b, hb, hrun⟩ := exists_of_any_toOption hrun
  obtain ⟨r, hr, hrun⟩ := exists_of_any_toOption hrun
  obtain ⟨⟨b₁, f₁⟩, hcommits, hrun⟩ := exists_of_any_toOption hrun
  simp only [Bool.and_eq_true, decide_eq_true_eq, List.any_eq_true] at hrun
  obtain ⟨hstorages, q, hq, n, hn, hbusy⟩ := hrun
  obtain ⟨b₀, b₁', hcourse⟩ := exists_course hr
  -- nothing is done to the storages before
  have hbefore := hcourse.before
  rw [show (Packer.new 1 .never .afterPacking).runStorages .beforePacking
    (b.storeMagicStates.elapse 2) = .ok (b.storeMagicStates.elapse 2) from ite_self _] at hbefore
  obtain rfl := Except.ok.inj hbefore
  obtain ⟨rfl, -⟩ := Prod.mk.inj (Except.ok.inj (hcourse.commits.symm.trans hcommits))
  have hafter := hcourse.after
  unfold runStorages at hafter
  rw [hstorages, if_neg Bool.false_ne_true] at hafter
  exact ⟨_, _, _, r, .new 1 .never .afterPacking, .elapse 2 (.storeMagicStates (.ofLayout hb)), hr,
    _, b₁', b₁', hcourse, ⟨rfl, hstorages, rfl, hafter⟩, n, hbusy, q, hq, Tree.mem_nodes.1 hn⟩

end Packer

end LatticeSurgery
