import LatticeSurgery.Factory
import LatticeSurgery.Packing.Basic
import LatticeSurgery.Proofs.Board.Contract
import LatticeSurgery.Proofs.Board.OfLayout
import LatticeSurgery.Proofs.Board.Storage
import LatticeSurgery.Proofs.Factory.Clock

/-!
# Boards stay indexed

The graph, the countdowns, the statuses and the closed nodes of a board are four records of one state.
An operation that succeeds leaves them in agreement, whatever it is given: an arbitrary tree to
contract to one of its nodes, a cache with arbitrary paths, a packed rotation that was never found by
the packer, or factories that do not belong to the board (`Operates.sound`). So the records agree on
every board that comes of the board of a layout (`indexed_of_operates`).
-/

namespace LatticeSurgery

open Ordered Relation LatticeSurgery.Graph

/-! ## Changing countdowns -/

namespace Board

variable {b b' : Board} {n anchor : Node} {ns : List Node} {t : Int}

theorem Sound.of_setTicks (hb : b.Sound) (h : b.setTicks ns t = .ok b') : b'.Sound :=
  (hb.setTo_of_setTicks h).sound

theorem Sound.of_setTick (hb : b.Sound) (h : b.setTick t n = .ok b') : b'.Sound :=
  (hb.setTo_of_setTick h).sound

theorem Sound.of_resetStorages (hb : b.Sound) (h : b.resetStorages = .ok b') : b'.Sound :=
  ((resetStorages_ends hb).of_ok h).1.sound

end Board

/-- Committing a rotation only sets countdowns, also one whose resource is not its own. -/
theorem Board.Sound.of_commit {b b' : Board} {f f' : Factories} {p : Packed} {turnTicks : Int}
    (hb : b.Sound) (h : commit b f p turnTicks = .ok (b', f')) : b'.Sound := by
  unfold commit at h
  split at h
  · obtain ⟨b₁, hset, h⟩ := exists_of_bind_eq_ok h
    cases h
    exact hb.of_setTick hset
  · split at h
    · obtain ⟨b₁, hset, h⟩ := exists_of_bind_eq_ok h
      cases h
      exact hb.of_setTick hset
    · cases h
  · obtain ⟨b₁, hset, h⟩ := exists_of_bind_eq_ok h
    cases h
    exact hb.of_setTicks hset
  · obtain ⟨b₁, hset, h⟩ := exists_of_bind_eq_ok h
    cases h
    exact hb.of_setTicks hset
  · cases h
    exact hb

namespace Factories

variable {b b' : Board} {f f' : Factories}

theorem sound_of_setUp (hb : b.Sound) {replenishTicks perFactory : Nat}
    (h : setUp b replenishTicks perFactory = .ok (f', b')) : b'.Sound := by
  unfold setUp at h
  split at h
  · cases h
  · obtain ⟨t, -, h⟩ := exists_of_bind_eq_ok h
    obtain ⟨b₁, hset, h⟩ := exists_of_bind_eq_ok h
    cases h
    exact hb.of_setTicks hset

theorem sound_of_refill (hb : b.Sound) {ticks : Int} {groups : List (List Node)}
    (h : refill ticks groups f b = .ok (f', b')) : b'.Sound := by
  induction groups generalizing f b with
  | nil =>
    cases h
    exact hb
  | cons g gs ih =>
    unfold refill at h
    split at h
    · obtain ⟨b₁, hset, h⟩ := exists_of_bind_eq_ok h
      exact ih (hb.of_setTicks hset) h
    · exact ih hb h

theorem sound_of_advance {τ : Type} (hb : b.Sound) {done : List τ} {log log' : Log τ} {elapsed : Nat}
    (h : f.advance done b log elapsed = .ok (f', b', log')) : b'.Sound := by
  obtain ⟨ticks, f₁, -, hrefill, -⟩ := exists_of_advance h
  exact sound_of_refill (Board.elapse_spec hb elapsed).sound hrefill

end Factories

/-! ## Changing edges -/

namespace Board

variable {b b' : Board} {anchor : Node} {t : Tree}

/-- Taking edges away edits the graph only. -/
theorem exists_graph_trim (b : Board) (terminal next : Node) :
    ∃ g, (b.trim terminal next).2 = { b with graph := g } := by
  unfold trim
  split
  · exact ⟨b.graph, rfl⟩
  · exact ⟨_, rfl⟩

/-- Whatever the paths are, the search for them only takes edges away and notes which. -/
theorem lasting_trimmed (g : Graph Node) (b : Board) :
    Pairing.Lasting fun s => Trimmed g s.board.graph s.removed ∧
      ∃ g', s.board = { b with graph := g' } where
  route _ _ _ hs := hs
  list _ _ hs := hs
  trim s terminal next hs := by
    obtain ⟨htrimmed, g', hboard⟩ := hs
    obtain ⟨g'', htrim⟩ := exists_graph_trim s.board terminal next
    refine ⟨htrimmed.trans (trim_spec htrimmed.wellFormed terminal next), g'', htrim.trans ?_⟩
    exact congrArg (fun b : Board => { b with graph := g'' }) hboard

/-- The same nodes and countdowns with edges in another order. -/
theorem Sound.of_same (hb : b.Sound) (hwell : b'.graph.WellFormed) (hsame : b.graph.Same b'.graph)
    (hcountdowns : b'.countdowns = b.countdowns) : b'.Sound := by
  refine ⟨hwell, hcountdowns ▸ hb.countdowns, fun n => ?_⟩
  rw [← hsame.node, hb.timed, ticksOf, ticksOf, hcountdowns]

/-- Connecting terminals puts back the edges that it took away, whatever the terminals are and the
cache holds. -/
theorem same_of_connect (hb : b.graph.WellFormed) {terminals : List Node} {cache : Option PathCache}
    {c : Connection} (h : b.connect terminals cache = .ok c) :
    c.board.graph.WellFormed ∧ b.graph.Same c.board.graph ∧ ∃ g, c.board = { b with graph := g } := by
  unfold connect at h
  split at h
  · cases h
    exact ⟨hb, Same.refl _, b.graph, rfl⟩
  · obtain ⟨⟨s, connected⟩, hjoin, h⟩ := exists_of_bind_eq_ok h
    obtain ⟨htrimmed, g, hboard⟩ := (lasting_trimmed b.graph b).joinPairs
      ⟨⟨hb, fun _ => rfl, fun n m => by simp⟩, b.graph, rfl⟩ hjoin
    obtain ⟨hwell, hsame⟩ := restore_spec hb htrimmed
    cases h
    refine ⟨hwell, hsame, (s.board.restore s.removed).graph, ?_⟩
    dsimp only [restore]
    rw [hboard]

theorem Sound.of_connect (hb : b.Sound) {terminals : List Node} {cache : Option PathCache}
    {c : Connection} (h : b.connect terminals cache = .ok c) : c.board.Sound := by
  obtain ⟨hwell, hsame, g, hboard⟩ := same_of_connect hb.graph h
  exact hb.of_same hwell hsame (by rw [hboard])

/-- Contracting a tree to a node of the board keeps that node, and leaves the other nodes outside
the tree with their countdowns. -/
theorem Sound.of_contract (hb : b.Sound) (hanchor : b.graph.hasNode anchor = true)
    (h : b.contract t anchor = .ok b') : b'.Sound := by
  unfold contract at h
  split at h
  case isFalse => cases h
  cases h
  set cut := b.removeNodes (t.nodeSet.erase anchor).toList with hcut
  have hsound : cut.Sound := hb.removeNodes _
  have hkept : ∀ n, b.graph.hasNode n = true → (t.contains n = true → n = anchor) →
      cut.graph.hasNode n = true := by
    intro n hn hout
    rw [hcut, hasNode_removeNodes]
    refine ⟨hn, fun hmem => ?_⟩
    rw [SortedSet.mem_toList, SortedSet.mem_erase, Tree.mem_nodeSet] at hmem
    exact hmem.2 (hout hmem.1).symm
  have hdetached : (cut.detach anchor).2.graph.WellFormed := wellFormed_detach hsound.graph
  refine ⟨wellFormed_attach hdetached _, hsound.countdowns, fun n => ?_⟩
  refine Iff.trans ?_ (hsound.timed n)
  refine (hasNode_attach hdetached).trans ?_
  rw [hasNode_detach]
  refine ⟨?_, Or.inl⟩
  rintro (hn | ⟨e, he, rfl | rfl⟩)
  · exact hn
  · exact hkept n hanchor fun _ => rfl
  · obtain ⟨hout, m, -, hadj⟩ := mem_outsideOf he
    rw [Tree.mem_nodeSet] at hout
    exact hkept _ (hb.graph.hasNode_right hadj) fun hin => absurd hin hout

end Board

/-! ## Operations -/

namespace Board

variable {b b' : Board}

/-- An operation on a board that succeeds. -/
inductive Operates : Board → Board → Prop
  | setTicks {b b' : Board} {ns : List Node} {t : Int} (h : b.setTicks ns t = .ok b') : Operates b b'
  | elapse (b : Board) (ticks : Nat) : Operates b (b.elapse ticks)
  | turn (b : Board) (id : Nat) : Operates b (b.turn id)
  | removeNodes (b : Board) (ns : List Node) : Operates b (b.removeNodes ns)
  | storeMagicStates (b : Board) : Operates b b.storeMagicStates
  | resetStorages {b b' : Board} (h : b.resetStorages = .ok b') : Operates b b'
  | connect {b : Board} {terminals : List Node} {cache : Option PathCache} {c : Connection}
      (hterminals : terminals.Nodup) (h : b.connect terminals cache = .ok c) : Operates b c.board
  | contract {b b' : Board} {t : Tree} {anchor : Node} (hanchor : b.graph.hasNode anchor = true)
      (h : b.contract t anchor = .ok b') : Operates b b'
  | openPart (b : Board) : Operates b b.openPart
  | restrictTo (b : Board) (terminals : List Node) (kind : RotationKind) :
      Operates b (b.restrictTo terminals kind)
  | commit {b b' : Board} {f f' : Factories} {p : Packed} {turnTicks : Int}
      (h : LatticeSurgery.commit b f p turnTicks = .ok (b', f')) : Operates b b'
  | setUp {b b' : Board} {f : Factories} {replenishTicks perFactory : Nat}
      (h : Factories.setUp b replenishTicks perFactory = .ok (f, b')) : Operates b b'
  | advance {b b' : Board} {f f' : Factories} {τ : Type} {done : List τ} {log log' : Factories.Log τ}
      {elapsed : Nat} (h : f.advance done b log elapsed = .ok (f', b', log')) : Operates b b'

theorem Operates.sound (hb : b.Sound) (h : b.Operates b') : b'.Sound := by
  cases h with
  | setTicks h => exact hb.of_setTicks h
  | elapse ticks => exact (elapse_spec hb ticks).sound
  | turn id => exact hb.turn id
  | removeNodes ns => exact hb.removeNodes ns
  | storeMagicStates => exact (storeMagicStates_spec hb).1.sound
  | resetStorages h => exact hb.of_resetStorages h
  | connect _ h => exact hb.of_connect h
  | contract hanchor h => exact hb.of_contract hanchor h
  | openPart => exact hb.openPart
  | restrictTo terminals kind => exact hb.removeNodes _
  | commit h => exact hb.of_commit h
  | setUp h => exact Factories.sound_of_setUp hb h
  | advance h => exact Factories.sound_of_advance hb h

theorem sound_of_operates (hb : b.Sound) (h : ReflTransGen Operates b b') : b'.Sound := by
  induction h with
  | refl => exact hb
  | tail _ hstep ih => exact hstep.sound ih

/-- The four records of a board agree. -/
structure Indexed (b : Board) : Prop where
  /-- The nodes with a countdown are the nodes of the graph. -/
  timed : ∀ n, b.graph.hasNode n = true ↔ ∃ t, b.ticksOf n = some t
  /-- A node has a status, and is listed under that status and no other one. -/
  filed : ∀ n, b.graph.hasNode n = true →
    ∃ s, b.statusOf n = some s ∧ ∀ s', n ∈ b.countdowns.withStatus s' ↔ s' = s
  /-- Nothing else is listed under a status. -/
  only : ∀ s n, n ∈ b.countdowns.withStatus s → b.graph.hasNode n = true
  /-- A node is closed when its countdown is not zero; a storage, when it is positive. -/
  closed : ∀ n, n ∈ b.unavailable ↔
    ∃ t, b.ticksOf n = some t ∧ if n.kind = .patch .storage then 0 < t else t ≠ 0

theorem Sound.indexed (hb : b.Sound) : b.Indexed := by
  refine ⟨hb.timed, fun n hn => ?_, fun s n hn => ?_, fun n => ?_⟩
  · obtain ⟨t, ht⟩ := (hb.timed n).1 hn
    obtain ⟨s, hs⟩ := Option.isSome_iff_exists.1 (hb.means ht)
    refine ⟨s, statusOf_eq_iff.2 ⟨t, ht, hs⟩, fun s' => ?_⟩
    rw [hb.countdowns.withStatus]
    constructor
    · rintro ⟨t', ht', hs'⟩
      cases ht.symm.trans ht'
      exact Option.some.inj (hs'.symm.trans hs)
    · rintro rfl
      exact ⟨t, ht, hs⟩
  · obtain ⟨t, ht, -⟩ := (hb.countdowns.withStatus s n).1 hn
    exact hb.hasNode_of_ticksOf ht
  · rw [hb.mem_unavailable]
    refine exists_congr fun t => and_congr_right fun _ => ?_
    cases n with
    | bus i => simp [Node.isClosed, Node.kind]
    | boundary k i c => cases k <;> simp [Node.isClosed, Node.kind]

/-- Every board that operations make of the board of a layout is indexed. -/
theorem indexed_of_operates {l : Layout} (hb : ofLayout l = .ok b)
    (h : ReflTransGen Operates b b') : b'.Indexed :=
  (sound_of_operates (ofLayout_spec hb).1 h).indexed

/-- A data patch above a row of bus tiles, a magic state and a storage below it. -/
def depotLayout : Layout where
  bus := SortedSet.ofList [⟨0, 0⟩, ⟨1, 0⟩, ⟨2, 0⟩]
  data := SortedSet.ofList [⟨0, 1⟩]
  magic := SortedSet.ofList [⟨1, -1⟩]
  zero := ∅
  storage := SortedSet.ofList [⟨2, -1⟩]

/-- The board is indexed after the patch was turned, the storage was filled and reset, and the patch
was connected to the magic state. -/
theorem depotLayout_indexed : ∃ b, ofLayout depotLayout = .ok b ∧
    ∃ b', ((b.turn 0).storeMagicStates.elapse 2).resetStorages = .ok b' ∧
      ∃ c, b'.connect [.qubit 0 .Z, .boundary .magic 0 .Z] none = .ok c ∧ c.board.Indexed := by
  obtain ⟨b, hb⟩ : ∃ b, ofLayout depotLayout = .ok b := ⟨_, rfl⟩
  have hfilled : ReflTransGen Operates b ((b.turn 0).storeMagicStates.elapse 2) :=
    ((ReflTransGen.single (.turn b 0)).tail (.storeMagicStates _)).tail (.elapse _ 2)
  -- stated of any board, so that this one is not evaluated
  have hresets : ∀ b₁ : Board, b₁.Sound → ∃ b', b₁.resetStorages = .ok b' ∧ b₁.Occupies b' := by
    intro b₁ h₁
    obtain ⟨b', hreset, hoccupies, -⟩ := (resetStorages_ends h₁).exists_ok
    exact ⟨b', hreset, hoccupies⟩
  obtain ⟨b', hreset, hoccupies⟩ := hresets _ (sound_of_operates (ofLayout_spec hb).1 hfilled)
  have hterminals : [Node.qubit 0 .Z, .boundary .magic 0 .Z].Nodup := by decide
  obtain ⟨c, hc, -⟩ := (connect_ends none hoccupies.sound.graph hterminals (by simp)
    fun p hp => by cases hp).exists_ok
  exact ⟨b, hb, b', hreset, c, hc, indexed_of_operates hb
    ((hfilled.tail (.resetStorages hreset)).tail (.connect hterminals hc))⟩

end Board

end LatticeSurgery
