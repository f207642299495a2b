import LatticeSurgery.Proofs.Cache.Refit
import LatticeSurgery.Proofs.Packing.SecondRound

/-!
# Using a packing again

A cache into which only packings with served rotations were entered (`PackingCache.Sound`) returns
packings that can be committed: their trees do not meet, and their resources are ready. So using a
packing again does to a board what packing afresh does (`PackingCache.reuse_ends`).
-/

namespace LatticeSurgery

open Ordered

namespace PackingCache

variable {c : PackingCache} {k : PackingKey} {b : Board} {solution : SortedMap RotationKey Packed}
  {rotations : List Rotation} {ps : List Packed} {p : Packed} {turnTicks : Int}

/-- A packing that is kept under a key has a rotation with this key, which it serves by a sound
tree. -/
structure Kept (key : RotationKey) (q : Packed) : Prop where
  key : q.rotation.key = key
  tree : q.tree.Sound
  serves : q.Serves

/-- Every packing of every solution is kept under the key of its rotation. -/
def Sound (c : PackingCache) : Prop :=
  ∀ k, ∀ solution ∈ c.solutions.candidates k, ∀ key q, solution.get? key = some q → Kept key q

theorem sound_empty : (∅ : PackingCache).Sound := by
  rintro k solution hsolution
  cases hsolution

theorem Sound.insert (hc : c.Sound) (k : PackingKey) (hps : ∀ p ∈ ps, p.tree.Sound ∧ p.Serves) :
    (c.insert k ps).Sound := by
  unfold PackingCache.insert
  split
  · exact hc
  · intro k' solution hsolution key q hq
    dsimp only at hsolution
    rw [Cache.candidates_insert] at hsolution
    have hold : ∀ k, solution ∈ c.solutions.candidates k → Kept key q :=
      fun k h => hc k solution h key q hq
    split at hsolution
    · rcases List.mem_append.1 hsolution with h | h
      · exact hold k h
      · obtain rfl := List.mem_singleton.1 h
        obtain ⟨p, hp, heq⟩ := List.mem_map.1 (SortedMap.mem_of_get?_ofList hq)
        obtain ⟨rfl, rfl⟩ := Prod.mk.inj heq
        exact ⟨rfl, (hps _ hp).1, (hps _ hp).2⟩
    · exact hold k' hsolution

/-! ## What is found -/

/-- The packings that are taken from a solution are fitted to rotations in order, avoid the nodes
that are taken, and do not meet. -/
theorem refitAll_spec (hsolution : ∀ key q, solution.get? key = some q → Kept key q)
    (rs : List Rotation) (used : SortedSet Node) :
    (∀ p ∈ refitAll b solution rs used,
      (∃ q, solution.get? p.rotation.key = some q ∧ Packed.Refits b q p.rotation p) ∧
        ∀ n, p.tree.contains n = true → n ∉ used) ∧
    ((refitAll b solution rs used).map Packed.rotation).Sublist rs ∧
    (refitAll b solution rs used).Pairwise Packed.Apart := by
  induction rs generalizing used with
  | nil => exact ⟨by simp [refitAll], by simp [refitAll], List.Pairwise.nil⟩
  | cons r rs ih =>
    unfold refitAll
    have hskip := ih used
    split
    · exact ⟨hskip.1, hskip.2.1.cons _, hskip.2.2⟩
    · next p hp =>
      split
      · exact ⟨hskip.1, hskip.2.1.cons _, hskip.2.2⟩
      · next hmeets =>
        obtain ⟨q, hq, hrefit⟩ := Option.bind_eq_some_iff.1 hp
        have hkept := hsolution r.key q hq
        have hrefits := Packed.refits_of_refit? hkept.tree hrefit
        obtain rfl := hrefits.rotation
        obtain ⟨hall, hsub, hapart⟩ := ih (used ∪ p.tree.nodeSet)
        refine ⟨fun p' hp' => ?_, hsub.cons_cons _,
          List.pairwise_cons.2 ⟨fun p' hp' n hn => ?_, hapart⟩⟩
        · rcases List.mem_cons.1 hp' with rfl | hp'
          · refine ⟨⟨q, hq, hrefits⟩, fun n hn hmem => hmeets (List.any_eq_true.2 ?_)⟩
            exact ⟨n, Tree.mem_nodes.2 hn, by simpa using hmem⟩
          · obtain ⟨hfit, havoids⟩ := hall p' hp'
            exact ⟨hfit, fun n hn hmem => havoids n hn (SortedSet.mem_union.2 (Or.inl hmem))⟩
        · by_contra hn'
          rw [Bool.not_eq_false] at hn'
          exact (hall p' hp').2 n hn' (SortedSet.mem_union.2 (Or.inr (Tree.mem_nodeSet.2 hn)))

/-- What a look-up finds was kept and fits. -/
theorem find_spec (hc : c.Sound) (k : PackingKey) (rotations : List Rotation) (b : Board) :
    (∀ p ∈ c.find k rotations b, ∃ solution ∈ c.solutions.candidates k,
      ∃ q, solution.get? p.rotation.key = some q ∧ Kept p.rotation.key q ∧
        Packed.Refits b q p.rotation p) ∧
    ((c.find k rotations b).map Packed.rotation).Sublist rotations ∧
    (c.find k rotations b).Pairwise Packed.Apart := by
  unfold find
  cases hfind : (((c.solutions.candidates k).map fun s => refitAll b s rotations ∅).find?
      fun ps => !ps.isEmpty) with
  | none => simp
  | some ps =>
    obtain ⟨solution, hsolution, rfl⟩ := List.mem_map.1 (List.mem_of_find?_eq_some hfind)
    obtain ⟨hall, hsub, hapart⟩ := refitAll_spec (b := b) (hc k solution hsolution) rotations ∅
    refine ⟨fun p hp => ?_, hsub, hapart⟩
    obtain ⟨⟨q, hq, hrefits⟩, -⟩ := hall p hp
    exact ⟨solution, hsolution, q, hq, hc k solution hsolution _ q hq, hrefits⟩

/-! ## Committing what is found -/

/-- The tree of a turn that was fitted is a boundary of the patch and a bus tile. -/
theorem turn_of_refits {q : Packed} (hq : Kept p.rotation.key q)
    (hrefits : Packed.Refits b q p.rotation p) (hturn : p.Turning) :
    p.rotation.kind = .turn ∧ ∃ id ∈ p.rotation.activeQubits, ∃ basis bus, bus.isBus = true ∧
      p.resource = some (.bus bus) ∧
      (∀ n, p.tree.contains n = true ↔ n = .qubit id basis ∨ n = bus) ∧
      ∀ basis', .qubit id basis' ∉ b.unavailable := by
  obtain ⟨hkind, hqubits⟩ := Rotation.key_eq_iff.1 hq.key
  have hturn' : q.Turning := by
    obtain ⟨n, hn⟩ := hturn
    exact ⟨n, hrefits.resource ▸ hn⟩
  have hk := hq.serves.turning_iff.1 hturn'
  obtain ⟨edge, hedge, -, bus, hbus, hresource, hnodes⟩ := hq.serves.of_turn hk
  obtain ⟨id, basis, rfl, hid⟩ := Rotation.exists_of_mem_activeNodes hedge
  have hopposite : (Node.qubit id basis).opposite = .qubit id basis.flipped := rfl
  rw [hopposite] at hnodes
  have hbusName : Packed.swapped q.tree p.rotation.requiredNodes bus = bus := by
    rcases Packed.Refits.swapped_eq_or p.rotation q.tree bus with h | ⟨h, -⟩
    · exact h
    · cases bus with
      | bus i => cases h
      | boundary k i c => cases hbus
  obtain ⟨basis', hname⟩ : ∃ basis', Packed.swapped q.tree p.rotation.requiredNodes
      (.qubit id basis.flipped) = .qubit id basis' := by
    rcases Packed.Refits.swapped_eq_or p.rotation q.tree (.qubit id basis.flipped) with h | ⟨-, h⟩
    · exact ⟨_, h⟩
    · exact ⟨_, h⟩
  refine ⟨hkind ▸ hk, id, hqubits ▸ hid, basis', bus, hbus, hrefits.resource ▸ hresource,
    fun n => ?_, hrefits.free id basis.flipped ((hnodes _).2 (Or.inl rfl))⟩
  rw [hrefits.nodes]
  constructor
  · rintro ⟨m, hm, rfl⟩
    rcases (hnodes m).1 hm with rfl | rfl
    · exact Or.inl hname
    · exact Or.inr hbusName
  · rintro (rfl | rfl)
    · exact ⟨_, (hnodes _).2 (Or.inl rfl), hname.symm⟩
    · exact ⟨_, (hnodes _).2 (Or.inr rfl), hbusName.symm⟩

/-- The resource of a packing that was fitted is ready. -/
theorem readyOn_of_refits {q : Packed} (hb : b.Sound) (hq : Kept p.rotation.key q)
    (hrefits : Packed.Refits b q p.rotation p) : p.ReadyOn b turnTicks := by
  have hready := hrefits.ready
  unfold Packed.resourceReady at hready
  unfold Packed.ReadyOn
  have hresource := hrefits.resource
  split
  · next n hp =>
    rw [hresource] at hp
    rw [hp] at hready
    have hk := hq.serves.kind_of_magicState hp
    obtain ⟨hnode, hopen⟩ := Board.isAvailable_iff.1 hready
    exact ⟨hk, hb.ticksOf_eq_zero (by simp [hk]) hnode hopen⟩
  · next n hp =>
    rw [hresource] at hp
    rw [hp] at hready
    obtain ⟨t, ht, hs⟩ := Board.statusOf_eq_iff.1 (of_decide_eq_true hready)
    obtain ⟨hk, rfl⟩ := Status.ofTicks_ready_iff.1 hs
    exact ⟨hk, ht⟩
  · next id hp =>
    rw [hresource] at hp
    rw [hp] at hready
    exact hb.mem_readyZeroStates.1 (SortedSet.contains_iff.1 hready)
  · next n hp =>
    intro m hm
    obtain ⟨-, id, -, basis, bus, hbus, -, hnodes, -⟩ := turn_of_refits hq hrefits ⟨n, hp⟩
    obtain ⟨hnode, hopen⟩ := hrefits.opened m hm
    refine ⟨?_, hnode, Or.inl hopen⟩
    rcases (hnodes m).1 hm with rfl | rfl
    · simp [Node.kind]
    · cases m with
      | bus i => simp [Node.kind]
      | boundary k i c => cases hbus
  · trivial

/-- Using a packing again fails only when the countdown of a turn is negative, and does to the board
what packing the rotations does. -/
theorem reuse_ends (hc : c.Sound) (hb : b.Sound) (f : Factories) (k : PackingKey)
    (rotations : List Rotation) :
    Ends (commitAll turnTicks (c.find k rotations b) b f) (fun _ => turnTicks < 0) fun s =>
      Packer.Packs turnTicks rotations b (c.find k rotations b) s.1 ∧ f.SameSetup s.2 := by
  obtain ⟨hfound, hsub, hapart⟩ := find_spec hc k rotations b
  refine (Packed.commitAll_ends hb f (fun p hp => ?_) hapart).mono (fun _ h => h) ?_
  · obtain ⟨-, -, q, -, hq, hrefits⟩ := hfound p hp
    exact ⟨hrefits.holds hq.serves, readyOn_of_refits hb hq hrefits⟩
  · rintro ⟨b', f'⟩ ⟨hcommits, hsetup⟩
    refine ⟨⟨hcommits.occupies, hsub.subperm, fun p hp n hn => ?_, fun _ _ => hapart,
      hcommits.data, fun _ => hcommits.turn, fun p hp hk => ?_, fun p hp hturn => ?_⟩, hsetup⟩
    · obtain ⟨-, -, q, -, hq, hrefits⟩ := hfound p hp
      exact (hrefits.opened n hn).2
    · obtain ⟨-, -, q, -, hq, hrefits⟩ := hfound p hp
      obtain ⟨n, hn⟩ := hq.serves.turning_iff.2 ((Rotation.key_eq_iff.1 hq.key).1.trans hk)
      exact ⟨n, hrefits.resource.trans hn⟩
    · obtain ⟨-, -, q, -, hq, hrefits⟩ := hfound p hp
      obtain ⟨hk, id, hid, basis, bus, hbus, -, hnodes, hfree⟩ := turn_of_refits hq hrefits hturn
      exact ⟨hk, id, hid, basis, bus, hbus, hnodes, hfree⟩

end PackingCache

end LatticeSurgery
