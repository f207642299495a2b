import LatticeSurgery.Proofs.Board.Clock
import LatticeSurgery.Proofs.Board.Ports
import LatticeSurgery.Proofs.Board.Storage

/-!
# The life of a storage

A storage is filled, becomes ready, is consumed, is joined to a zero state and is empty again. What is
done to a board takes every storage one step further on this way, or leaves it where it is
(`Board.Lives`). Filling spends the magic state with the number of the storage. A reset joins no other
storage to the zero state, because its tree ends in the nodes that it connects and a storage is always
an end.
-/

namespace LatticeSurgery

open Ordered LatticeSurgery.Graph

/-- The next phase in the life of a storage. -/
inductive Phase.StorageStep : Phase → Phase → Prop
  | fill : StorageStep .empty .preparing
  | finish : StorageStep .preparing .ready
  | spend : StorageStep .ready .consumed
  | connect : StorageStep .consumed .connecting
  | clear : StorageStep .connecting .empty

/-- The countdowns behind the phases of a storage. -/
theorem Phase.ticks_of_storage {t : Int} {p : Phase} (h : ofTicks (.patch .storage) t = some p) :
    (p = .ready ∧ t = 0) ∨ (p = .preparing ∧ 0 < t) ∨ (p = .consumed ∧ t = consumedTicks) ∨
      (p = .connecting ∧ t = connectingTicks) ∨ (p = .empty ∧ t = emptyTicks) := by
  unfold ofTicks at h
  split at h
  · next hzero =>
    cases h
    exact Or.inl ⟨rfl, hzero⟩
  · split at h
    · next hpos =>
      cases h
      exact Or.inr (Or.inl ⟨rfl, hpos⟩)
    · dsimp only at h
      split at h
      · next heq =>
        cases h
        exact Or.inr (Or.inr (Or.inl ⟨rfl, heq⟩))
      · split at h
        · next heq =>
          cases h
          exact Or.inr (Or.inr (Or.inr (Or.inl ⟨rfl, heq⟩)))
        · split at h
          · next heq =>
            cases h
            exact Or.inr (Or.inr (Or.inr (Or.inr ⟨rfl, heq⟩)))
          · cases h

namespace Board

variable {b b' b'' : Board} {n m : Node} {id k : Nat} {t : Int} {t' : Int}

/-- The node of a magic state. -/
def magicNode (id : Nat) : Node := .boundary .magic id .Z

theorem eq_storageNode (hp : b.graph.Ported) (hn : b.graph.hasNode n = true)
    (hkind : n.kind = .patch .storage) : n = storageNode n.id := by
  cases n with
  | bus i => cases hkind
  | boundary k i basis =>
    cases hkind
    rw [List.mem_singleton.1 (hp.exposed _ _ _ hn)]
    rfl

theorem eq_magicNode (hp : b.graph.Ported) (hn : b.graph.hasNode n = true)
    (hkind : n.kind = .patch .magic) : n = magicNode n.id := by
  cases n with
  | bus i => cases hkind
  | boundary k i basis =>
    cases hkind
    rw [List.mem_singleton.1 (hp.exposed _ _ _ hn)]
    rfl

/-- The countdown of a storage with a known phase. -/
theorem exists_ticksOf_of_statusOf {p : Phase}
    (h : b.statusOf (storageNode id) = some ⟨.patch .storage, p⟩) :
    ∃ t, b.ticksOf (storageNode id) = some t ∧ Phase.ofTicks (.patch .storage) t = some p := by
  obtain ⟨t, ht, hs⟩ := statusOf_eq_iff.1 h
  obtain ⟨q, hq, heq⟩ := Option.map_eq_some_iff.1 hs
  cases heq
  exact ⟨t, ht, hq⟩

theorem statusOf_empty_iff : b.statusOf (storageNode id) = some ⟨.patch .storage, .empty⟩ ↔
    b.ticksOf (storageNode id) = some Phase.emptyTicks := by
  constructor
  · intro h
    obtain ⟨t, ht, hp⟩ := exists_ticksOf_of_statusOf h
    have hcases := Phase.ticks_of_storage hp
    simp only [reduceCtorEq, false_and, false_or, true_and] at hcases
    rw [ht, hcases]
  · intro h
    rw [statusOf, h]
    rfl

theorem statusOf_consumed_iff : b.statusOf (storageNode id) = some ⟨.patch .storage, .consumed⟩ ↔
    b.ticksOf (storageNode id) = some Phase.consumedTicks := by
  constructor
  · intro h
    obtain ⟨t, ht, hp⟩ := exists_ticksOf_of_statusOf h
    have hcases := Phase.ticks_of_storage hp
    simp only [reduceCtorEq, false_and, false_or, true_and, or_false] at hcases
    rw [ht, hcases]
  · intro h
    rw [statusOf, h]
    rfl

theorem statusOf_of_ticksOf (h : b.ticksOf n = some t) : b.statusOf n = Status.ofTicks n t := by
  rw [statusOf, h, Option.bind_some]

theorem kind_of_statusOf {s : Status} (h : b.statusOf n = some s) : n.kind = s.kind := by
  obtain ⟨t, -, hs⟩ := statusOf_eq_iff.1 h
  exact (Status.kind_of_ofTicks hs).symm

theorem statusOf_congr (h : b'.ticksOf n = b.ticksOf n) : b'.statusOf n = b.statusOf n := by
  rw [statusOf, statusOf, h]

/-! ## Filling -/

/-- A ready magic state was moved into the empty storage with its number. -/
structure Stored (b b' : Board) (id : Nat) : Prop where
  empty : b.ticksOf (storageNode id) = some Phase.emptyTicks
  filled : b'.ticksOf (storageNode id) = some fillTicks
  ready : b.ticksOf (magicNode id) = some 0
  spent : b'.ticksOf (magicNode id) = some Phase.depletedTicks

/-- The storage was consumed and is joined to a zero state. -/
def Joined (b b' : Board) (id : Nat) : Prop :=
  b.ticksOf (storageNode id) = some Phase.consumedTicks ∧
    b'.ticksOf (storageNode id) = some Phase.connectingTicks

/-- What filling and resetting storages does to a board: nodes are occupied, and a storage stays what
it is unless it is filled or joined to a zero state. -/
structure Tends (b b' : Board) : Prop where
  occupies : b.Occupies b'
  storage : ∀ id, b'.ticksOf (storageNode id) = b.ticksOf (storageNode id) ∨ b.Stored b' id ∨
    b.Joined b' id

theorem Tends.refl (hb : b.Sound) : b.Tends b := ⟨Occupies.refl hb, fun _ => Or.inl rfl⟩

theorem Tends.trans (hb : b.Sound) (h : b.Tends b') (h' : b'.Tends b'') : b.Tends b'' := by
  refine ⟨h.occupies.trans hb h'.occupies, fun id => ?_⟩
  have hbefore := h.occupies.magic (magicNode id) rfl
  have hafter := h'.occupies.magic (magicNode id) rfl
  rcases h.storage id with hsame | hstored | hjoined
  · rcases h'.storage id with hsame' | hstored' | hjoined'
    · exact Or.inl (hsame'.trans hsame)
    · refine Or.inr (Or.inl ⟨hsame ▸ hstored'.empty, hstored'.filled, ?_, hstored'.spent⟩)
      rcases hbefore with hmagic | ⟨-, hmagic⟩
      · exact hmagic ▸ hstored'.ready
      · cases hmagic.symm.trans hstored'.ready
    · exact Or.inr (Or.inr ⟨hsame ▸ hjoined'.1, hjoined'.2⟩)
  · rcases h'.storage id with hsame' | hstored' | hjoined'
    · refine Or.inr (Or.inl ⟨hstored.empty, hsame'.trans hstored.filled, hstored.ready, ?_⟩)
      rcases hafter with hmagic | ⟨hmagic, -⟩
      · exact hmagic.trans hstored.spent
      · rw [hstored.spent] at hmagic
        cases hmagic
    · cases hstored.filled.symm.trans hstored'.empty
    · cases hstored.filled.symm.trans hjoined'.1
  · rcases h'.storage id with hsame' | hstored' | hjoined'
    · exact Or.inr (Or.inr ⟨hjoined.1, hsame'.trans hjoined.2⟩)
    · cases hjoined.2.symm.trans hstored'.empty
    · cases hjoined.2.symm.trans hjoined'.1

theorem storeOne_tends (hb : b.Sound) (hp : b.graph.Ported) (hkind : n.kind = .patch .magic)
    (hready : b.ticksOf n = some 0) : b.Tends (b.storeOne n) := by
  refine ⟨(storeOne_spec hb hkind hready).1, fun id => ?_⟩
  unfold storeOne
  dsimp only
  split
  · next hempty =>
    have ht := statusOf_empty_iff.1 hempty
    have hn := eq_magicNode hp (hb.hasNode_of_ticksOf hready) hkind
    by_cases hid : id = n.id
    · subst hid
      refine Or.inr (Or.inl ⟨ht, ?_, hn ▸ hready, ?_⟩)
      · rw [ticksOf_retime, if_pos (same_self _)]
      · rw [ticksOf_retime, if_neg (by simp [magicNode, storageNode]), ticksOf_retime, ← hn,
          if_pos (same_self _)]
    · refine Or.inl ?_
      rw [ticksOf_retime, if_neg (by simp [storageNode, hid]), ticksOf_retime, if_neg]
      rw [same_iff]
      rintro rfl
      cases hkind
  · exact Or.inl rfl

theorem foldl_storeOne_tends {l : List Node} (hb : b.Sound) (hp : b.graph.Ported) (hl : l.Nodup)
    (hready : ∀ n ∈ l, n.kind = .patch .magic ∧ b.ticksOf n = some 0) :
    b.Tends (l.foldl storeOne b) := by
  induction l generalizing b with
  | nil => exact .refl hb
  | cons n l ih =>
    obtain ⟨hn, hl⟩ := List.nodup_cons.1 hl
    obtain ⟨hkind, hzero⟩ := hready n List.mem_cons_self
    obtain ⟨-, -, hothers⟩ := storeOne_spec hb hkind hzero
    have hone := storeOne_tends hb hp hkind hzero
    refine hone.trans hb (ih hone.occupies.sound (hone.occupies.graph ▸ hp) hl fun m hm => ?_)
    obtain ⟨hkind', hzero'⟩ := hready m (List.mem_cons_of_mem _ hm)
    exact ⟨hkind', (hothers m hkind' fun h => hn (h ▸ hm)).trans hzero'⟩

theorem storeMagicStates_tends (hb : b.Sound) (hp : b.graph.Ported) : b.Tends b.storeMagicStates :=
  foldl_storeOne_tends hb hp (b.withStatus .magic .ready).nodup fun _ hn => hb.mem_ready.1 hn

theorem ticksOf_storeOne (h : b.statusOf (storageNode id) ≠ some ⟨.patch .storage, .empty⟩)
    (hkind : n.kind = .patch .magic) :
    (b.storeOne n).ticksOf (storageNode id) = b.ticksOf (storageNode id) := by
  unfold storeOne
  dsimp only
  split
  · next hempty =>
    rw [ticksOf_retime, if_neg, ticksOf_retime, if_neg]
    · rw [same_iff]
      rintro rfl
      cases hkind
    · rw [same_iff]
      intro heq
      exact h (heq ▸ hempty)
  · rfl

/-- Filling storages touches no storage that is not empty. -/
theorem ticksOf_storeMagicStates (hb : b.Sound)
    (h : b.statusOf (storageNode id) ≠ some ⟨.patch .storage, .empty⟩) :
    b.storeMagicStates.ticksOf (storageNode id) = b.ticksOf (storageNode id) := by
  unfold storeMagicStates
  refine List.foldlRecOn (motive := fun b' : Board =>
    b'.ticksOf (storageNode id) = b.ticksOf (storageNode id)) _ _ rfl fun b' hb' n hn => ?_
  have hkind := (hb.mem_ready.1 (SortedSet.mem_toList.1 hn)).1
  rw [ticksOf_storeOne (by rwa [statusOf_congr hb']) hkind, hb']

/-! ## Resetting -/

/-- The tree of a reset consists of the storage that it is for, and of bus tiles and nodes of zero
states that are ready. -/
theorem cases_of_resetTree (hb : b.Sound) (hp : b.graph.Ported) (hkind : n.kind = .patch .storage)
    {tree : Tree} (h : b.resetTree n = .ok (some tree)) (hm : tree.contains m = true) :
    m = n ∨ (m.kind = .bus ∨ m.kind = .patch .zero) ∧ b.ticksOf m = some 0 := by
  obtain ⟨-, htree⟩ := (resetTree_ends hb hkind).of_ok h tree rfl
  have hopen := hasNode_resetPart.1 (htree.within.node m hm)
  have hwithin := htree.within.trans (resetPart_within hb)
  by_cases hend : m.kind = .patch .magic ∨ m.kind = .patch .storage
  · -- a magic state or a storage is an end of the tree, and so it is a terminal
    have hdegree : tree.degree m ≤ 1 := htree.sound.wellFormed.degree_le_one fun k k' hk hk' =>
      hp.deadEnd m k k' hend (hwithin.edge _ _ hk) (hwithin.edge _ _ hk')
    have hterminal := htree.trim.ends m hm hdegree
    simp only [zeroTerminals, List.mem_cons, List.not_mem_nil, or_false] at hterminal
    rcases hterminal with rfl | rfl | rfl
    · exact Or.inl rfl
    · rcases hend with hk | hk <;> cases hk
    · rcases hend with hk | hk <;> cases hk
  · have hkinds : m.kind = .bus ∨ m.kind = .patch .zero := by
      have hqubit := hopen.2.2
      rw [not_or] at hend
      cases hk : m.kind with
      | bus => exact Or.inl rfl
      | patch k => cases k <;> simp_all
    exact Or.inr ⟨hkinds, hb.ticksOf_eq_zero (fun h => hend (Or.inr h)) hopen.1 hopen.2.1⟩

/-- A reset joins the storage that it is for, and no other one. -/
theorem ticksOf_resetOne (hb : b.Sound) (hp : b.graph.Ported)
    (h : b.resetOne (storageNode id) = .ok b') (k : Nat) :
    b'.ticksOf (storageNode k) = b.ticksOf (storageNode k) ∨
      (k = id ∧ b'.ticksOf (storageNode k) = some Phase.connectingTicks) := by
  rcases resetOne_cases h with ⟨-, rfl⟩ | ⟨tree, htree, hmark⟩
  · exact Or.inl rfl
  · rw [((markReset_ends hb (hasNode_of_resetTree hb rfl htree)).of_ok hmark).ticks]
    split
    · next hk =>
      rcases cases_of_resetTree hb hp rfl htree (Tree.mem_nodes.1 hk) with hid | ⟨hbus | hzero, -⟩
      · exact Or.inr ⟨by simpa [storageNode] using hid, rfl⟩
      · cases hbus
      · cases hzero
    · exact Or.inl rfl

theorem resetEach_tends {ns : List Node} (hb : b.Sound) (hp : b.graph.Ported) (hnodup : ns.Nodup)
    (hns : ∀ n ∈ ns, ∃ id, n = storageNode id ∧
      b.ticksOf (storageNode id) = some Phase.consumedTicks)
    (h : resetEach ns b = .ok b') : b.Tends b' := by
  induction ns generalizing b with
  | nil =>
    cases h
    exact .refl hb
  | cons n ns ih =>
    obtain ⟨hn, hrest⟩ := List.nodup_cons.1 hnodup
    obtain ⟨id, rfl, hid⟩ := hns n List.mem_cons_self
    obtain ⟨b₁, hone, h⟩ := exists_of_bind_eq_ok h
    have hticks := ticksOf_resetOne hb hp hone
    have hstep : b.Tends b₁ := by
      refine ⟨((resetOne_ends hb rfl).of_ok hone).1, fun k => ?_⟩
      rcases hticks k with hsame | ⟨rfl, hjoined⟩
      · exact Or.inl hsame
      · exact Or.inr (Or.inr ⟨hid, hjoined⟩)
    refine hstep.trans hb (ih hstep.occupies.sound (hstep.occupies.graph ▸ hp) hrest ?_ h)
    intro m hm
    obtain ⟨k, rfl, hk⟩ := hns m (List.mem_cons_of_mem _ hm)
    refine ⟨k, rfl, ?_⟩
    rcases hticks k with hsame | ⟨rfl, -⟩
    · rw [hsame, hk]
    · exact absurd hm hn

theorem resetStorages_tends (hb : b.Sound) (hp : b.graph.Ported) (h : b.resetStorages = .ok b') :
    b.Tends b' := by
  refine resetEach_tends hb hp (b.withStatus .storage .consumed).nodup (fun n hn => ?_) h
  obtain ⟨t, ht, hs⟩ := hb.mem_withStatus.1 hn
  have hn := eq_storageNode hp (hb.hasNode_of_ticksOf ht) (Status.kind_of_ofTicks hs).symm
  refine ⟨n.id, hn, statusOf_consumed_iff.1 ?_⟩
  rw [← hn, statusOf_of_ticksOf ht, hs]

/-! ## A step in the life of every storage -/

/-- What happened to a storage that was used by `k` rotations meanwhile. -/
inductive Lives (b b' : Board) (id : Nat) : (k : Nat) → Prop
  | rests (h : b'.ticksOf (storageNode id) = b.ticksOf (storageNode id)) : Lives b b' id 0
  | stored (h : b.Stored b' id) : Lives b b' id 0
  | ages {t t' : Int} (h : b.ticksOf (storageNode id) = some t) (ht : 0 < t)
      (h' : b'.ticksOf (storageNode id) = some t') (ht' : 0 ≤ t') : Lives b b' id 0
  | spent (h : b.ticksOf (storageNode id) = some 0)
      (h' : b'.ticksOf (storageNode id) = some Phase.consumedTicks) : Lives b b' id 1
  | joined (h : b.Joined b' id) : Lives b b' id 0
  | cleared (h : b.ticksOf (storageNode id) = some Phase.connectingTicks)
      (h' : b'.ticksOf (storageNode id) = some Phase.emptyTicks) : Lives b b' id 0

theorem Tends.lives (h : b.Tends b') (id : Nat) : b.Lives b' id 0 := by
  rcases h.storage id with hsame | hstored | hjoined
  · exact .rests hsame
  · exact .stored hstored
  · exact .joined hjoined

/-- What the passing of time does to a storage, whatever happens to other nodes at the same time. -/
theorem lives_of_elapse (hb : b.Sound) {ticks : Nat}
    (h : b'.ticksOf (storageNode id) = (b.elapse ticks).ticksOf (storageNode id)) :
    b.Lives b' id 0 := by
  have helapse := h.trans
    ((elapse_spec hb ticks).other (storageNode id) (by simp [storageNode, Node.kind]))
  cases ht : b.ticksOf (storageNode id) with
  | none =>
    rw [ht, Option.map_none] at helapse
    exact .rests (helapse.trans ht.symm)
  | some t =>
    rw [ht, Option.map_some] at helapse
    unfold countdownAfter at helapse
    split at helapse
    · next hconnecting => exact .cleared (hconnecting.2 ▸ ht) helapse
    · split at helapse
      · next hpos => exact .ages ht hpos helapse (ticksAfter_nonneg _ _)
      · exact .rests (helapse.trans ht.symm)

/-- The storage stays in its phase or goes on to the next one. -/
def StorageMoves (b b' : Board) (id : Nat) : Prop :=
  b'.statusOf (storageNode id) = b.statusOf (storageNode id) ∨
    ∃ p p', Phase.StorageStep p p' ∧ b.statusOf (storageNode id) = some ⟨.patch .storage, p⟩ ∧
      b'.statusOf (storageNode id) = some ⟨.patch .storage, p'⟩

theorem statusOf_preparing (h : b.ticksOf (storageNode id) = some t) (ht : 0 < t) :
    b.statusOf (storageNode id) = some ⟨.patch .storage, .preparing⟩ := by
  have hphase : Phase.ofTicks (storageNode id).kind t = some .preparing := by
    unfold Phase.ofTicks
    rw [if_neg (by omega), if_pos ht]
    rfl
  rw [statusOf_of_ticksOf h, Status.ofTicks, hphase]
  rfl

theorem Lives.moves (h : b.Lives b' id k) : b.StorageMoves b' id := by
  cases h with
  | rests h => exact Or.inl (statusOf_congr h)
  | stored h =>
    exact Or.inr ⟨_, _, .fill, statusOf_empty_iff.2 h.empty, statusOf_of_ticksOf h.filled⟩
  | ages h ht h' ht' =>
    rcases Int.le_iff_lt_or_eq.1 ht' with hpos | rfl
    · exact Or.inl ((statusOf_preparing h' hpos).trans (statusOf_preparing h ht).symm)
    · exact Or.inr ⟨_, _, .finish, statusOf_preparing h ht, statusOf_of_ticksOf h'⟩
  | spent h h' => exact Or.inr ⟨_, _, .spend, statusOf_of_ticksOf h, statusOf_of_ticksOf h'⟩
  | joined h => exact Or.inr ⟨_, _, .connect, statusOf_of_ticksOf h.1, statusOf_of_ticksOf h.2⟩
  | cleared h h' => exact Or.inr ⟨_, _, .clear, statusOf_of_ticksOf h, statusOf_of_ticksOf h'⟩

/-- A ready magic state was spent to fill the empty storage with its number. -/
def Fills (b b' : Board) (id : Nat) : Prop :=
  b.statusOf (storageNode id) = some ⟨.patch .storage, .empty⟩ ∧
    b'.statusOf (storageNode id) = some ⟨.patch .storage, .preparing⟩ ∧
    b.statusOf (magicNode id) = some ⟨.patch .magic, .ready⟩ ∧
    b'.statusOf (magicNode id) = some ⟨.patch .magic, .depleted⟩

instance (b b' : Board) (id : Nat) : Decidable (b.Fills b' id) := by
  unfold Fills
  infer_instance

theorem Stored.fills (h : b.Stored b' id) : b.Fills b' id :=
  ⟨statusOf_of_ticksOf h.empty, statusOf_of_ticksOf h.filled, statusOf_of_ticksOf h.ready,
    statusOf_of_ticksOf h.spent⟩

/-- The number of magic states in a storage, ready or on their way. -/
def held (b : Board) (id : Nat) : Nat :=
  match b.ticksOf (storageNode id) with
  | some t => if 0 ≤ t then 1 else 0
  | none => 0

theorem held_of_ticksOf (h : b.ticksOf (storageNode id) = some t) :
    b.held id = if 0 ≤ t then 1 else 0 := by
  rw [held, h]

/-- What rotations take from a storage, and what is in it then, was in it before or came in by
filling it. -/
theorem Lives.balance (h : b.Lives b' id k) :
    k + b'.held id ≤ b.held id + if b.Fills b' id then 1 else 0 := by
  cases h with
  | rests h =>
    rw [held, held, h]
    omega
  | stored h =>
    rw [if_pos h.fills, held_of_ticksOf h.filled]
    simp [fillTicks]
  | ages h ht h' ht' =>
    rw [held_of_ticksOf h, held_of_ticksOf h', if_pos ht', if_pos (by omega)]
    omega
  | spent h h' =>
    rw [held_of_ticksOf h, held_of_ticksOf h', if_pos (Int.le_refl 0), if_neg (by decide)]
    omega
  | joined h =>
    rw [held_of_ticksOf h.2, if_neg (by decide)]
    omega
  | cleared h h' =>
    rw [held_of_ticksOf h', if_neg (by decide)]
    omega

end Board

end LatticeSurgery
