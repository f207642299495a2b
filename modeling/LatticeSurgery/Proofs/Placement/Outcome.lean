import LatticeSurgery.Proofs.Placement.Draws

/-!
# A circuit is placed, or nothing happens

Placing a circuit on the board of a layout has two outcomes (`Circuit.choosePlacement_settles`). Either the
circuit is refused, for a reason that holds (`Placement.Refused`), and the circuit and the board that are
left behind are those that were given. Or each qubit gets a patch of its own next to the bus, the circuit
acts on the patches, and what disappears from the board is the data patches that are left over
(`Placement.Settled`).
-/

namespace LatticeSurgery

open Ordered LatticeSurgery.Graph WordSource

namespace Placement

variable {σ : Type} [WordSource σ] {c c' : Circuit} {b : Board} {facings : SortedMap Nat Facing}
  {policy : PlacementPolicy} {given : Option (List Nat)} {m : SortedMap Nat Nat}

/-! ## Refusals -/

/-- What is wrong with patches that are given: the patches before the one that is named can be used. -/
inductive Flawed (facings : SortedMap Nat Facing) (qubits : Nat) : Option (List Nat) → ManualError → Prop
  | missing : Flawed facings qubits none .missing
  | wrongCount {ps : List Nat} (hlength : ps.length ≠ qubits) :
    Flawed facings qubits (some ps) (.wrongCount ps.length qubits)
  | unusable {ps rest : List Nat} {p : Nat} (hlength : (ps ++ p :: rest).length = qubits)
    (hnodup : ps.Nodup) (husable : ∀ p ∈ ps, p ∈ facings.keys) (hp : p ∉ facings.keys) :
    Flawed facings qubits (some (ps ++ p :: rest)) (.unusable p)
  | repeated {ps rest : List Nat} {p : Nat} (hlength : (ps ++ p :: rest).length = qubits)
    (hnodup : ps.Nodup) (husable : ∀ p ∈ ps, p ∈ facings.keys) (hp : p ∈ ps) :
    Flawed facings qubits (some (ps ++ p :: rest)) (.repeated p)

/-- Why a circuit is not placed. -/
inductive Refused (c : Circuit) (b : Board) (policy : PlacementPolicy) (given : Option (List Nat)) :
    PlacementError → Prop
  | notEnoughPatches (h : b.facings.size < c.numQubits) :
    Refused c b policy given (.notEnoughPatches c.numQubits b.facings.size)
  | invalidManual {reason : ManualError} (henough : c.numQubits ≤ b.facings.size)
    (hpolicy : policy = .manual) (h : Flawed b.facings c.numQubits given reason) :
    Refused c b policy given (.invalidManual reason)

/-- The flaw is the first one in the list. -/
theorem manualFlaw?_some {ps : List Nat} {seen : SortedSet Nat} {flaw : ManualError}
    (h : manualFlaw? facings ps seen = some flaw) :
    ∃ before p rest, ps = before ++ p :: rest ∧ before.Nodup ∧
      (∀ p' ∈ before, p' ∈ facings.keys ∧ p' ∉ seen) ∧
      (p ∉ facings.keys ∧ flaw = .unusable p ∨ (p ∈ seen ∨ p ∈ before) ∧ flaw = .repeated p) := by
  induction ps generalizing seen with
  | nil => cases h
  | cons p ps ih =>
    have hnone : ∀ p' ∈ ([] : List Nat), p' ∈ facings.keys ∧ p' ∉ seen := fun _ hp' =>
      absurd hp' List.not_mem_nil
    unfold manualFlaw? at h
    split at h
    · next hunusable =>
      cases h
      rw [Bool.not_eq_true', ← Bool.not_eq_true, SortedMap.contains_iff] at hunusable
      exact ⟨[], p, ps, rfl, List.nodup_nil, hnone, Or.inl ⟨hunusable, rfl⟩⟩
    · next husable =>
      split at h
      · next hseen =>
        cases h
        exact ⟨[], p, ps, rfl, List.nodup_nil, hnone, Or.inr ⟨Or.inl (SortedSet.contains_iff.1 hseen), rfl⟩⟩
      · next hseen =>
        rw [Bool.not_eq_true', Bool.not_eq_false, SortedMap.contains_iff] at husable
        rw [SortedSet.contains_iff] at hseen
        obtain ⟨before, p', rest, rfl, hnodup, hbefore, hflaw⟩ := ih h
        have hnew : ∀ p'' ∈ before, p'' ∈ facings.keys ∧ p'' ≠ p ∧ p'' ∉ seen := fun p'' hp'' =>
          ⟨(hbefore p'' hp'').1, not_or.1 (mt SortedSet.mem_insert.2 (hbefore p'' hp'').2)⟩
        refine ⟨p :: before, p', rest, rfl, List.nodup_cons.2 ⟨fun hp => (hnew p hp).2.1 rfl, hnodup⟩,
          List.forall_mem_cons.2 ⟨⟨husable, hseen⟩, fun p'' hp'' => ⟨(hnew p'' hp'').1, (hnew p'' hp'').2.2⟩⟩,
          hflaw.imp id (And.imp_left ?_)⟩
        rw [SortedSet.mem_insert, List.mem_cons]
        tauto

theorem flawed_of_manual {qubits : Nat} {e : PlacementError} (h : manual facings qubits given = .error e) :
    ∃ reason, e = .invalidManual reason ∧ Flawed facings qubits given reason := by
  unfold manual at h
  split at h
  · cases h
    exact ⟨_, rfl, .missing⟩
  · next ps =>
    split at h
    · next hlength =>
      cases h
      exact ⟨_, rfl, .wrongCount hlength⟩
    · next hlength =>
      rw [ne_eq, not_not] at hlength
      split at h
      · next flaw hflaw =>
        cases h
        obtain ⟨before, p, rest, rfl, hnodup, hbefore, hflaw⟩ := manualFlaw?_some hflaw
        have husable : ∀ p' ∈ before, p' ∈ facings.keys := fun p' hp' => (hbefore p' hp').1
        refine ⟨flaw, rfl, ?_⟩
        obtain ⟨hp, rfl⟩ | ⟨hp | hp, rfl⟩ := hflaw
        · exact .unusable hlength hnodup husable hp
        · exact absurd hp (SortedSet.not_mem_empty p)
        · exact .repeated hlength hnodup husable hp
      · cases h

/-! ## The board that is left -/

theorem mem_unusedNodes {used : SortedSet Nat} {n : Node} :
    n ∈ unusedNodes b used ↔ b.graph.hasNode n = true ∧ n.kind = .patch .qubit ∧ n.id ∉ used := by
  rw [unusedNodes, List.mem_filter, SortedSet.mem_toList, Board.mem_nodesOfKind, Bool.not_eq_true',
    ← Bool.not_eq_true, SortedSet.contains_iff, and_assoc]

/-- What is left of a board when only the given data patches are kept. -/
structure Keeps (b : Board) (patches : List Nat) (b' : Board) : Prop where
  /-- The data nodes that are left are those of the given patches. -/
  data : ∀ id basis, b'.graph.hasNode (.qubit id basis) = true ↔ id ∈ patches
  /-- The other nodes are left. -/
  others : ∀ n, n.kind ≠ .patch .qubit → b'.graph.hasNode n = b.graph.hasNode n
  /-- The edges that are left are those between nodes that are left. -/
  edges : ∀ n m w, b'.graph.weight? n m = some w ↔
    b.graph.weight? n m = some w ∧ b'.graph.hasNode n = true ∧ b'.graph.hasNode m = true
  /-- The given patches keep all of their edges. -/
  patchEdges : ∀ id ∈ patches, ∀ basis m,
    b'.graph.weight? (.qubit id basis) m = b.graph.weight? (.qubit id basis) m
  /-- The nodes that are left keep their countdowns. -/
  ticks : ∀ n, b'.graph.hasNode n = true → b'.ticksOf n = b.ticksOf n
  /-- The tiles behind the nodes stay known. -/
  tiles : b'.tiles = b.tiles

/-- Removing the nodes of unused patches keeps everything else. -/
theorem keeps_removeNodes {l : Layout} (hb : Board.ofLayout l = .ok b) {patches : List Nat}
    (hfacing : ∀ p ∈ patches, p ∈ b.facings.keys) :
    Keeps b patches (b.removeNodes (unusedNodes b (SortedSet.ofList patches))) := by
  have hlaid := Board.laid_ofLayout hb
  have hdata : ∀ id basis, (b.removeNodes (unusedNodes b (SortedSet.ofList patches))).graph.hasNode
      (.qubit id basis) = true ↔ id ∈ patches := by
    intro id basis
    constructor
    · intro h
      obtain ⟨hnode, hkept⟩ := Board.hasNode_removeNodes.1 h
      by_contra hid
      exact hkept (mem_unusedNodes.2 ⟨hnode, rfl, mt SortedSet.mem_ofList.1 hid⟩)
    · exact fun hid => Board.hasNode_removeNodes_unusedNodes
        (Board.hasNode_of_mem_facings hb (hfacing id hid) basis) (SortedSet.mem_ofList.2 hid)
  refine ⟨hdata, fun n hn => ?_, fun n m w => ?_, fun id hid basis m => ?_, fun n hn => ?_,
    Board.tiles_removeNodes b _⟩
  · rw [Bool.eq_iff_iff, Board.hasNode_removeNodes]
    exact and_iff_left fun h => hn (mem_unusedNodes.1 h).2.1
  · rw [Board.weight?_removeNodes hlaid.wellFormed, Board.hasNode_removeNodes, Board.hasNode_removeNodes]
    constructor
    · rintro ⟨h, hn, hm⟩
      have hadj : b.graph.Adj n m := adj_iff.2 ⟨w, h⟩
      exact ⟨h, ⟨hlaid.wellFormed.hasNode_left hadj, hn⟩, hlaid.wellFormed.hasNode_right hadj, hm⟩
    · rintro ⟨h, ⟨-, hn⟩, -, hm⟩
      exact ⟨h, hn, hm⟩
  · -- the other end of an edge of a patch is a bus tile
    refine Option.ext fun w => (Board.weight?_removeNodes hlaid.wellFormed).trans
      (and_iff_left_of_imp fun h => ?_)
    refine ⟨(Board.hasNode_removeNodes.1 ((hdata id basis).2 hid)).2, fun hm => ?_⟩
    have hbus := (hlaid.onBus _ m (adj_iff.2 ⟨w, h⟩)).resolve_left Bool.false_ne_true
    rw [Node.isBus_iff, (mem_unusedNodes.1 hm).2.1] at hbus
    cases hbus
  · rw [Board.ticksOf_removeNodes, if_neg (Board.hasNode_removeNodes.1 hn).2]

/-! ## Placements -/

/-- A circuit is placed: each qubit is on a patch of its own next to the bus, the circuit acts on these
patches, and the other data patches are gone from the board. -/
structure Settled (c : Circuit) (b : Board) (placement : Placement) (c' : Circuit) (b' : Board) :
    Prop where
  /-- The qubits that have a patch are those of the circuit. -/
  qubits : ∀ q, (∃ p, placement.patches.get? q = some p) ↔ q < c.numQubits
  /-- They have different patches. -/
  injective : ∀ q q' p, placement.patches.get? q = some p → placement.patches.get? q' = some p → q = q'
  /-- The patches are next to the bus. -/
  facing : ∀ p ∈ placement.patches.values, p ∈ b.facings.keys
  /-- The patches that can need a turn are those with one boundary at the bus. -/
  nonCorner : ∀ p, p ∈ placement.nonCorner ↔ p ∈ placement.patches.values ∧
    ∃ basis, b.graph.Touches (.qubit p basis) ∧ ¬ b.graph.Touches (.qubit p basis.flipped)
  /-- The rotations are those of the circuit, with the patch of each qubit in its place. -/
  renamed : c' = { c with
    rotations := c.rotations.map (Rotation.rename fun q => placement.patches.getD q q)
    assignments := placement.patches }
  /-- They act on the patches that are given to qubits. -/
  acting : ∀ r ∈ c'.rotations, ∀ p ∈ r.activeQubits, p ∈ placement.patches.values
  /-- The board has kept these patches and everything that is no data patch. -/
  board : Keeps b placement.patches.values b'

/-- One boundary of a patch is at the bus if both are not. -/
theorem facing_ne_both_iff (hb : b.Sound) {p : Nat} (hp : p ∈ b.facings.keys) :
    b.facings.get? p ≠ some .both ↔
      ∃ basis, b.graph.Touches (.qubit p basis) ∧ ¬ b.graph.Touches (.qubit p basis.flipped) := by
  obtain ⟨f, hf⟩ := SortedMap.mem_keys_iff.1 hp
  have hshows := Board.shows_of_facings hb hf
  rw [hf]
  simp only [← hshows]
  cases f with
  | x => exact iff_of_true (by simp) ⟨.X, rfl, Bool.false_ne_true⟩
  | z => exact iff_of_true (by simp) ⟨.Z, rfl, Bool.false_ne_true⟩
  | both => exact iff_of_false (by simp) fun ⟨_, _, h⟩ => h rfl

theorem settled_apply {l : Layout} (hb : Board.ofLayout l = .ok b)
    (hc : ∀ r ∈ c.rotations, ∀ q ∈ r.activeQubits, q < c.numQubits)
    (hm : PlacesAll b.facings.keys c.numQubits m) :
    Settled c b (apply c b m).1 (apply c b m).2.1 (apply c b m).2.2 := by
  have hfacing : ∀ p ∈ m.values, p ∈ b.facings.keys := by
    intro p hp
    obtain ⟨q, hq⟩ := SortedMap.mem_values_iff.1 hp
    exact hm.mem q p hq
  refine ⟨fun q => ⟨fun ⟨p, hp⟩ => hm.lt q p hp, hm.total q⟩, hm.injective, hfacing, fun p => ?_, rfl,
    fun r hr p hp => ?_, keeps_removeNodes hb hfacing⟩
  · show p ∈ SortedSet.filter _ _ ↔ _
    rw [SortedSet.mem_filter, SortedSet.mem_ofList, decide_eq_true_eq]
    exact and_congr_right fun hp => facing_ne_both_iff (Board.ofLayout_spec hb).1 (hfacing p hp)
  · obtain ⟨r₀, hr₀, rfl⟩ := List.mem_map.1 hr
    rw [Rotation.activeQubits_rename, SortedSet.mem_map] at hp
    obtain ⟨q, hq, rfl⟩ := hp
    obtain ⟨p, hget⟩ := hm.total q (hc r₀ hr₀ q hq)
    rw [SortedMap.getD, hget]
    exact SortedMap.mem_values_iff.2 ⟨q, hget⟩

end Placement

/-- A circuit whose rotations act on its qubits is placed on the board of a layout, or it is refused for a
reason that holds, and then the circuit and the board are left behind as they were. No policy breaks
down. -/
theorem Circuit.choosePlacement_settles {σ : Type} [WordSource σ] {P : σ → Prop} {s : σ} {c : Circuit}
    {l : Layout} {b : Board} (hP : Conclusive P) (hs : P s)
    (hc : ∀ r ∈ c.rotations, ∀ q ∈ r.activeQubits, q < c.numQubits)
    (hflips : (CircuitStats.ofCircuit c).totalFlips < Nat.pow 2 32) (hb : Board.ofLayout l = .ok b)
    (policy : PlacementPolicy) (given : Option (List Nat)) :
    Placement.Guarded c P ∧
      ((∃ r, c.choosePlacement b policy given s = .error (.refused r) ∧
          Placement.Refused c b policy given r.error ∧ r.circuit = c ∧ r.board = b) ∨
        ∃ placement c' b' s', c.choosePlacement b policy given s = .ok (placement, c', b', s') ∧
          Placement.Settled c b placement c' b') := by
  refine ⟨Placement.guarded hP c, ?_⟩
  unfold choosePlacement
  dsimp only
  by_cases hn : b.facings.size < c.numQubits
  · rw [if_pos hn]
    exact Or.inl ⟨_, rfl, .notEnoughPatches hn, rfl, rfl⟩
  · rw [if_neg hn]
    have henough := Nat.le_of_not_lt hn
    have hends := Placement.choosePatches_ends hP hs hflips b policy given
    cases hpatches : Placement.choosePatches c b policy given s with
    | error e =>
      obtain ⟨hpolicy, reason, hmanual, rfl⟩ := hends.of_error hpatches
      obtain ⟨flaw, rfl, hflaw⟩ := Placement.flawed_of_manual hmanual
      exact Or.inl ⟨_, rfl, .invalidManual henough hpolicy hflaw, rfl, rfl⟩
    | ok r =>
      obtain ⟨m, s'⟩ := r
      have hm := Placement.choosePatches_placesAll hP.toRanged hs hc henough hpatches
      exact Or.inr ⟨_, _, _, s', rfl, Placement.settled_apply hb hc hm⟩

/-- A bus with a bend. The second data patch lies in the bend, the two others have one side at the bus. -/
def bendLayout : Layout where
  bus := SortedSet.ofList [⟨0, 0⟩, ⟨1, 0⟩, ⟨2, 0⟩, ⟨2, 1⟩, ⟨2, 2⟩]
  data := SortedSet.ofList [⟨0, 1⟩, ⟨1, 1⟩, ⟨3, 1⟩]
  magic := ∅
  zero := ∅
  storage := ∅

/-- Two qubits, of which the second one changes its boundary twice. -/
def bendCircuit : Circuit := .ofRotations "bend"
  [⟨0, .pi8, .plus, .ofList [0, 1], ∅, ∅⟩, ⟨1, .pi8, .plus, ∅, ∅, .ofList [1]⟩,
    ⟨2, .measurement, .plus, .ofList [1], ∅, ∅⟩] 2

theorem bendCircuit_lt : ∀ r ∈ bendCircuit.rotations, ∀ q ∈ r.activeQubits, q < bendCircuit.numQubits := by
  have hall : ∀ r ∈ bendCircuit.rotations, ∀ q ∈ r.activeQubits.toList, q < bendCircuit.numQubits := by
    decide
  exact hall

/-- Around the crossing the second qubit gets the corner, and the first patch disappears. The same patch
for both qubits is refused, and nothing has changed. -/
theorem bendCircuit_settles : ∃ b, Board.ofLayout bendLayout = .ok b ∧
    (∃ placement c' b' s', bendCircuit.choosePlacement b .clusterCrossing none
        (⟨[9223372036854775808, 0], 0⟩ : CyclicWords) = .ok (placement, c', b', s') ∧
      placement.patches.entries = [(0, 2), (1, 1)] ∧
      Placement.Settled bendCircuit b placement c' b') ∧
    ∃ r, bendCircuit.choosePlacement b .manual (some [2, 2])
        (⟨[9223372036854775808, 0], 0⟩ : CyclicWords) = .error (.refused r) ∧
      r.error.message = "invalid manual assignment: patch 2 is used twice" ∧
      Placement.Refused bendCircuit b .manual (some [2, 2]) r.error ∧
      r.circuit = bendCircuit ∧ r.board = b := by
  have hrun : Ends (Board.ofLayout bendLayout) (fun _ => False) fun b =>
      Ends (bendCircuit.choosePlacement b .clusterCrossing none
          (⟨[9223372036854775808, 0], 0⟩ : CyclicWords)) (fun _ => False)
        (fun r => r.1.patches.entries = [(0, 2), (1, 1)]) ∧
      Ends ((bendCircuit.choosePlacement b .manual (some [2, 2])
          (⟨[9223372036854775808, 0], 0⟩ : CyclicWords)).mapError (Halt.map fun r => r.error))
        (fun e => e = .refused (.invalidManual (.repeated 2))) fun _ => False := by
    decide +kernel
  obtain ⟨b, hb, hplaced, hrefused⟩ := hrun.exists_ok
  obtain ⟨r, hr, hpatches⟩ := hplaced.exists_ok
  have hsettles := Circuit.choosePlacement_settles (CyclicWords.conclusive (by decide) (by decide))
    (s := ⟨[9223372036854775808, 0], 0⟩) rfl bendCircuit_lt (by decide +kernel) hb
  refine ⟨b, hb, ?_, ?_⟩
  · obtain ⟨-, ⟨e, he, -⟩ | ⟨placement, c', b', s', h, hsettled⟩⟩ := hsettles .clusterCrossing none
    · rw [hr] at he
      cases he
    · cases hr.symm.trans h
      exact ⟨placement, c', b', s', h, hpatches, hsettled⟩
  · obtain ⟨-, ⟨r, he, hreason, hcircuit, hboard⟩ | ⟨_, _, _, _, h, -⟩⟩ :=
      hsettles .manual (some [2, 2])
    · rw [he] at hrefused
      have herror : r.error = .invalidManual (.repeated 2) := Halt.refused.inj hrefused
      exact ⟨r, he, by rw [herror]; rfl, hreason, hcircuit, hboard⟩
    · rw [h] at hrefused
      exact hrefused.elim

end LatticeSurgery
