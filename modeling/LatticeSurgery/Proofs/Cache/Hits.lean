import LatticeSurgery.Proofs.Board.Clock
import LatticeSurgery.Proofs.Board.OfLayout
import LatticeSurgery.Proofs.Cache.Reuse

/-!
# What a cache hit is good for

A cache that was filled with packings of boards of a layout returns packings that are as good as
fresh ones on the board at hand, but for one thing: renaming moves a boundary and never adds one. So
a hit lacks a boundary when its rotation needs both boundaries of a patch of which the cached
rotation needed only one (`PackingCache.hit_serves_iff`).
-/

namespace LatticeSurgery

open Ordered

/-- The boards of a layout, at any stage of a run: patches may be left unused, countdowns are set
and run out, patches turn, and storages are filled and reset. -/
inductive Board.Stage (l : Layout) : Board → Prop
  /-- The board at the start. -/
  | ofLayout {b : Board} (h : Board.ofLayout l = .ok b) : Board.Stage l b
  /-- Nodes are left unused. -/
  | removeNodes {b : Board} (ns : List Node) (h : Board.Stage l b) : Board.Stage l (b.removeNodes ns)
  /-- Countdowns are set. -/
  | setTicks {b b' : Board} {ns : List Node} {t : Int} (h : Board.Stage l b)
    (hset : b.setTicks ns t = .ok b') : Board.Stage l b'
  /-- Time passes. -/
  | elapse {b : Board} (ticks : Nat) (h : Board.Stage l b) : Board.Stage l (b.elapse ticks)
  /-- A patch turns. -/
  | turn {b : Board} (id : Nat) (h : Board.Stage l b) : Board.Stage l (b.turn id)
  /-- Magic states move into storages. -/
  | storeMagicStates {b : Board} (h : Board.Stage l b) : Board.Stage l b.storeMagicStates
  /-- Storages are reset. -/
  | resetStorages {b b' : Board} (h : Board.Stage l b) (hreset : b.resetStorages = .ok b') :
    Board.Stage l b'

/-- Every board of a layout is sound. -/
theorem Board.Stage.sound {l : Layout} {b : Board} (h : Board.Stage l b) : b.Sound := by
  induction h with
  | ofLayout h => exact (ofLayout_spec h).1
  | removeNodes ns _ ih => exact ih.removeNodes ns
  | setTicks _ hset ih => exact ((setTicks_ends ih _ _).of_ok hset).sound
  | elapse ticks _ ih => exact (elapse_spec ih ticks).sound
  | turn id _ ih => exact ih.turn id
  | storeMagicStates _ ih => exact (storeMagicStates_spec ih).1.sound
  | resetStorages _ hreset ih => exact ((resetStorages_ends ih).of_ok hreset).1.sound

/-- A packer that has packed ticks on boards of a layout. -/
inductive Packer.Used (l : Layout) : Packer → Prop
  /-- A packer that has not packed anything. -/
  | new (turnTicks : Nat) (store reset : StoragePhase) :
    Packer.Used l (Packer.new turnTicks store reset)
  /-- One more tick is packed. -/
  | pack {σ : Type} [WordSource σ] {p : Packer} {b : Board} {rotations : List Rotation}
    {f : Factories} {rng : σ} {r : Packer.Result σ} (h : Packer.Used l p) (hb : Board.Stage l b)
    (hr : p.pack rotations b f rng = .ok r) : Packer.Used l r.packer

theorem Packer.Used.sound {l : Layout} {p : Packer} (h : Packer.Used l p) : p.Sound := by
  induction h with
  | new turnTicks store reset => exact ⟨PathCache.sound_empty, TreeCache.sound_empty⟩
  | pack _ hb hr ih => exact ((pack_ends ih hb.sound _ _ _).of_ok hr).packer

/-- A cache that was filled with packings of boards of a layout. -/
inductive PackingCache.Filled (l : Layout) : PackingCache → Prop
  /-- The cache without solutions. -/
  | empty : PackingCache.Filled l ∅
  /-- One more packing is entered. -/
  | insert {σ : Type} [WordSource σ] {c : PackingCache} {p : Packer} {b : Board}
    {rotations : List Rotation} {f : Factories} {rng : σ} {r : Packer.Result σ} (k : PackingKey)
    (h : PackingCache.Filled l c) (hp : Packer.Used l p) (hb : Board.Stage l b)
    (hr : p.pack rotations b f rng = .ok r) : PackingCache.Filled l (c.insert k r.packed)

theorem PackingCache.Filled.sound {l : Layout} {c : PackingCache} (h : PackingCache.Filled l c) :
    c.Sound := by
  induction h with
  | empty => exact sound_empty
  | insert k _ hp hb hr ih =>
    have hpack := (Packer.pack_ends hp.sound hb.sound _ _ _).of_ok hr
    exact ih.insert k fun q hq => ⟨(hpack.fresh q hq).tree, (hpack.fresh q hq).serves⟩

/-- The resource is of the kind that a fresh packing would use, ready, and part of the tree. -/
def Packed.Delivers (b : Board) (p : Packed) : Prop :=
  match p.rotation.kind with
  | .pi8 => ∃ n, (n.kind = .patch .magic ∨ n.kind = .patch .storage) ∧ b.ticksOf n = some 0 ∧
    p.resource = some (Packer.magicResource n) ∧ p.tree.contains n = true
  | .pi4 => ∃ id, id ∈ b.readyZeroStates ∧ p.resource = some (.zeroState id) ∧
    p.tree.contains (.zero id .X) = true ∧ p.tree.contains (.zero id .Z) = true
  | .measurement => p.resource = none
  | .turn => ∃ bus, bus.isBus = true ∧ b.isAvailable bus = true ∧ p.resource = some (.bus bus) ∧
    p.tree.contains bus = true

/-- A packing that could be committed on a board. -/
structure Packed.FitsOn (b : Board) (p : Packed) : Prop where
  /-- The tree is connected. -/
  connected : p.tree.shape.Connected
  /-- The nodes are there and open. -/
  available : ∀ n, p.tree.contains n = true → b.isAvailable n = true
  /-- The edges are edges of the board. -/
  edge : ∀ n m, p.tree.shape.Adj n m → b.graph.Adj n m
  /-- The resource is the right one. -/
  delivers : p.Delivers b

namespace Rotation

variable {r s : Rotation} {n : Node} {q : Nat}

/-- Renaming the boundaries in a packing of `s`, another rotation of the same kind on the same
qubits, gives a packing of `r`: every patch that `r` uses through both boundaries is used so by `s`
as well, and a turn is one of a single boundary. -/
def ServedByRenaming (r s : Rotation) : Prop :=
  match r.kind with
  | .turn => ∀ n ∈ r.activeNodes, ∀ m ∈ r.activeNodes, n = m
  | _ => ∀ n ∈ r.activeNodes, n.opposite ∈ r.activeNodes → n ∈ s.activeNodes

end Rotation

namespace PackingCache

variable {l : Layout} {c : PackingCache} {b : Board} {p q : Packed}

/-- The resource of a packing that was fitted is the right one. -/
theorem delivers_of_refits (hb : b.Sound) (hq : Kept p.rotation.key q)
    (hrefits : Packed.Refits b q p.rotation p) : p.Delivers b := by
  have hkind := (Rotation.key_eq_iff.1 hq.key).1
  have hready : p.ReadyOn b 0 := readyOn_of_refits hb hq hrefits
  have hholds := hrefits.holds hq.serves
  unfold Packed.ReadyOn at hready
  unfold Packed.Holds at hholds
  unfold Packed.Delivers
  split
  · next hk =>
    obtain ⟨n, hn, hresource, -⟩ := hq.serves.of_pi8 (hkind.trans hk)
    rw [← hrefits.resource] at hresource
    have hboth : b.ticksOf n = some 0 ∧ p.tree.contains n = true := by
      rw [hresource] at hready hholds
      by_cases hstorage : n.kind = .patch .storage
      · rw [Packer.magicResource, if_pos hstorage] at hready hholds
        exact ⟨hready.2, hholds⟩
      · rw [Packer.magicResource, if_neg hstorage] at hready hholds
        exact ⟨hready.2, hholds⟩
    exact ⟨n, hn, hboth.1, hresource, hboth.2⟩
  · next hk =>
    obtain ⟨id, hresource, -⟩ := hq.serves.of_pi4 (hkind.trans hk)
    rw [← hrefits.resource] at hresource
    rw [hresource] at hready hholds
    exact ⟨id, hb.mem_readyZeroStates.2 hready, hresource, hholds⟩
  · next hk => exact hrefits.resource.trans (hq.serves.of_measurement (hkind.trans hk))
  · next hk =>
    have hturn : q.Turning := hq.serves.turning_iff.2 (hkind.trans hk)
    obtain ⟨n, hn⟩ := hturn
    obtain ⟨-, id, -, basis, bus, hbus, hresource, hnodes, -⟩ :=
      turn_of_refits hq hrefits ⟨n, hrefits.resource.trans hn⟩
    have hmem := (hnodes bus).2 (Or.inr rfl)
    exact ⟨bus, hbus, Board.isAvailable_iff.2 (hrefits.opened bus hmem), hresource, hmem⟩

/-- The tree of a turn that was fitted contains the boundary that faces the bus, if there is only
one. -/
theorem contains_required_turn_iff (hq : Kept p.rotation.key q)
    (hrefits : Packed.Refits b q p.rotation p) (hk : p.rotation.kind = .turn) :
    (∀ n ∈ p.rotation.requiredNodes, p.tree.contains n = true) ↔
      ∀ n ∈ p.rotation.activeNodes, ∀ m ∈ p.rotation.activeNodes, n = m := by
  have hrequired : ∀ n, n ∈ p.rotation.requiredNodes ↔ n.opposite ∈ p.rotation.activeNodes := by
    intro n
    unfold Rotation.requiredNodes
    rw [if_pos hk, SortedSet.mem_map]
    exact ⟨fun ⟨m, hm, heq⟩ => by rw [← heq, Node.opposite_opposite]; exact hm,
      fun hn => ⟨n.opposite, hn, Node.opposite_opposite n⟩⟩
  obtain ⟨hkind, hqubits⟩ := Rotation.key_eq_iff.1 hq.key
  obtain ⟨n, hn⟩ := hq.serves.turning_iff.2 (hkind.trans hk)
  obtain ⟨-, id, hid, basis, bus, hbus, -, hnodes, -⟩ :=
    turn_of_refits hq hrefits ⟨n, hrefits.resource.trans hn⟩
  constructor
  · intro hall
    have hone : ∀ n ∈ p.rotation.activeNodes, n.opposite = .qubit id basis := by
      intro n hn
      have hin := hall n.opposite ((hrequired _).2 (by rwa [Node.opposite_opposite]))
      refine ((hnodes _).1 hin).resolve_right ?_
      rintro rfl
      obtain ⟨i, c, rfl, -⟩ := Rotation.exists_of_mem_activeNodes hn
      cases hbus
    intro n hn m hm
    rw [← Node.opposite_opposite n, hone n hn, ← hone m hm, Node.opposite_opposite]
  · intro hone n hn
    -- the boundary of the cached turn is one of the same patch
    obtain ⟨edge, hedge, -, bus', -, -, hcached⟩ := hq.serves.of_turn (hkind.trans hk)
    obtain ⟨i, c, rfl, hi⟩ := Rotation.exists_of_mem_activeNodes hedge
    obtain ⟨c', hc'⟩ := Rotation.exists_mem_activeNodes (hqubits ▸ hi)
    have hsame : n.opposite = .qubit i c' := hone _ ((hrequired n).1 hn) _ hc'
    rw [hrefits.contains_required_iff hn, hsame]
    by_cases hflip : c' = c.flipped
    · exact Or.inl ((hcached _).2 (Or.inl (by rw [hflip]; rfl)))
    · refine Or.inr ⟨(hcached n).2 (Or.inl ?_), fun hmem => ?_⟩
      · rw [← Node.opposite_opposite n, hsame]
        cases c <;> cases c' <;> simp_all [Basis.flipped]
      · have hloop := hone _ ((hrequired _).1 hmem) _ hc'
        cases c' <;> cases hloop

/-- The tree of any other rotation that was fitted contains the boundaries that it needs, if the
cached rotation used both boundaries wherever it does. -/
theorem contains_required_iff (hq : Kept p.rotation.key q)
    (hrefits : Packed.Refits b q p.rotation p) (hk : p.rotation.kind ≠ .turn) :
    (∀ n ∈ p.rotation.requiredNodes, p.tree.contains n = true) ↔
      ∀ n ∈ p.rotation.activeNodes, n.opposite ∈ p.rotation.activeNodes →
        n ∈ q.rotation.activeNodes := by
  have hrequired : p.rotation.requiredNodes = p.rotation.activeNodes := if_neg hk
  obtain ⟨hkind, hqubits⟩ := Rotation.key_eq_iff.1 hq.key
  have hspans := hq.serves.spans (hkind ▸ hk)
  have hiff : ∀ n ∈ p.rotation.activeNodes, p.tree.contains n = true ↔
      n.opposite ∈ q.rotation.activeNodes ∨
        (n ∈ q.rotation.activeNodes ∧ n.opposite ∉ p.rotation.activeNodes) := by
    intro n hn
    have hopposite : n.opposite.kind = .patch .qubit := by
      obtain ⟨i, c, rfl, -⟩ := Rotation.exists_of_mem_activeNodes hn
      rfl
    rw [hrefits.contains_required_iff (hrequired ▸ hn), hrequired, hspans _ hopposite,
      hspans n (Rotation.kind_of_mem_activeNodes hn)]
  rw [hrequired]
  constructor
  · intro hall n hn hopposite
    have hin := (hiff _ hopposite).1 (hall _ hopposite)
    rw [Node.opposite_opposite] at hin
    exact hin.resolve_right fun h => h.2 hn
  · intro hboth n hn
    rw [hiff n hn]
    by_cases hopposite : n.opposite ∈ p.rotation.activeNodes
    · refine Or.inl (hboth _ hopposite ?_)
      rw [Node.opposite_opposite]
      exact hn
    · -- a single boundary is renamed if need be
      obtain ⟨i, c, rfl, hi⟩ := Rotation.exists_of_mem_activeNodes hn
      obtain ⟨c', hc'⟩ := Rotation.exists_mem_activeNodes (hqubits ▸ hi)
      by_cases hsame : c' = c
      · exact Or.inr ⟨hsame ▸ hc', hopposite⟩
      · refine Or.inl ?_
        have hflip : c' = c.flipped := by cases c <;> cases c' <;> simp_all [Basis.flipped]
        rw [hflip] at hc'
        exact hc'

/-- A packing that a cache returns has a connected tree of open nodes and of edges of the board, and
the right resource, ready and in the tree. The tree contains the boundaries that the rotation needs
exactly when renaming the boundaries of the cached rotation can bring them about. -/
theorem hit_serves_iff (hc : Filled l c) (hb : Board.Stage l b) (k : PackingKey)
    (rotations : List Rotation) (hp : p ∈ c.find k rotations b) :
    p.rotation ∈ rotations ∧ p.FitsOn b ∧ ∃ solution ∈ c.solutions.candidates k,
      ∃ q, solution.get? p.rotation.key = some q ∧
        ((∀ n ∈ p.rotation.requiredNodes, p.tree.contains n = true) ↔
          p.rotation.ServedByRenaming q.rotation) := by
  obtain ⟨hfound, hsub, -⟩ := find_spec hc.sound k rotations b
  obtain ⟨solution, hsolution, q, hq, hkept, hrefits⟩ := hfound p hp
  have hfits : p.FitsOn b := ⟨hrefits.tree.connected,
    fun n hn => Board.isAvailable_iff.2 (hrefits.opened n hn), hrefits.edge,
    delivers_of_refits hb.sound hkept hrefits⟩
  refine ⟨hsub.subset (List.mem_map_of_mem hp), hfits, solution, hsolution, q, hq, ?_⟩
  unfold Rotation.ServedByRenaming
  split
  · next hk => exact contains_required_turn_iff hkept hrefits hk
  · next hk => exact contains_required_iff hkept hrefits hk

/-- A data patch in a corner of the bus, which touches both of its boundaries. -/
def cornerLayout : Layout where
  bus := SortedSet.ofList [⟨0, 0⟩, ⟨1, 0⟩, ⟨1, 1⟩]
  data := SortedSet.ofList [⟨0, 1⟩]
  magic := ∅
  zero := ∅
  storage := ∅

/-- The measurement of the data patch in a basis, by the qubits under X, Y and Z. -/
def cornerMeasurement (index : Nat) (x y z : List Nat) : Rotation :=
  ⟨index, .measurement, .plus, SortedSet.ofList x, SortedSet.ofList y, SortedSet.ofList z⟩

/-- A packing of the measurement as X was entered, and the measurements as Z and as Y are looked up on
the board at the start. -/
theorem exists_cornerCache : ∃ c b, Filled cornerLayout c ∧ Board.Stage cornerLayout b ∧
    (∃ p, p ∈ c.find (key ∅ [cornerMeasurement 1 [] [] [0]]) [cornerMeasurement 1 [] [] [0]] b) ∧
    ∃ p ∈ c.find (key ∅ [cornerMeasurement 1 [] [0] []]) [cornerMeasurement 1 [] [0] []] b,
      ∃ n ∈ p.rotation.requiredNodes.toList, p.tree.contains n = false := by
  refine ⟨_, _, .insert (key ∅ [cornerMeasurement 0 [0] [] []]) .empty (.new 3 .never .never)
    (.ofLayout rfl) (rfl : Packer.pack _ [cornerMeasurement 0 [0] [] []] _ ⟨0, 0, [], ∅⟩
      (⟨[], 0⟩ : CyclicWords) = .ok _), .ofLayout rfl, List.exists_mem_of_ne_nil _ ?_, ?_⟩
  · decide +kernel
  · decide +kernel

/-- A packing of the measurement as X serves the measurement as Z, by renaming. -/
theorem cornerLayout_hit_serves : ∃ c b, Filled cornerLayout c ∧ Board.Stage cornerLayout b ∧
    ∃ p ∈ c.find (key ∅ [cornerMeasurement 1 [] [] [0]]) [cornerMeasurement 1 [] [] [0]] b,
      p.FitsOn b ∧ ∀ n ∈ p.rotation.requiredNodes, p.tree.contains n = true := by
  obtain ⟨c, b, hc, hb, ⟨p, hp⟩, -⟩ := exists_cornerCache
  obtain ⟨hmem, hfits, -, -, q, -, hiff⟩ := hit_serves_iff hc hb _ _ hp
  refine ⟨c, b, hc, hb, p, hp, hfits, hiff.2 ?_⟩
  rw [List.mem_singleton.1 hmem]
  have hsingle : ∀ n ∈ (cornerMeasurement 1 [] [] [0]).activeNodes.toList,
      n.opposite ∉ (cornerMeasurement 1 [] [] [0]).activeNodes := by decide
  exact fun n hn hopposite => absurd hopposite (hsingle n hn)

/-- It is returned for the measurement as Y as well, which needs the other boundary too. -/
theorem cornerLayout_hit_lacks_boundary : ∃ c b, Filled cornerLayout c ∧
    Board.Stage cornerLayout b ∧
    ∃ p ∈ c.find (key ∅ [cornerMeasurement 1 [] [0] []]) [cornerMeasurement 1 [] [0] []] b,
      ∃ n ∈ p.rotation.requiredNodes, p.tree.contains n = false := by
  obtain ⟨c, b, hc, hb, -, p, hp, n, hn, hlacks⟩ := exists_cornerCache
  exact ⟨c, b, hc, hb, p, hp, n, hn, hlacks⟩

end PackingCache

end LatticeSurgery
