import LatticeSurgery.Board.Storage
import LatticeSurgery.Proofs.Board.Occupies
import LatticeSurgery.Proofs.Board.Routing

/-!
# Filling and resetting storages

Filling storages spends ready magic states, and resetting them closes the nodes of a tree of open
nodes. Neither ever fails on a sound board, and both only occupy nodes that are not data patches.
-/

namespace LatticeSurgery

open Ordered LatticeSurgery.Graph

namespace Board

variable {b b' : Board} {n : Node}

/-! ## Filling -/

theorem storeOne_spec (hb : b.Sound) (hkind : n.kind = .patch .magic)
    (hready : b.ticksOf n = some 0) :
    b.Occupies (b.storeOne n) ∧ b.SparesData (b.storeOne n) ∧
      ∀ m, m.kind = .patch .magic → m ≠ n → (b.storeOne n).ticksOf m = b.ticksOf m := by
  unfold storeOne
  dsimp only
  split
  · next hempty =>
    obtain ⟨t, ht, hs⟩ := statusOf_eq_iff.1 hempty
    have hmagic : (b.retime n Phase.depletedTicks).Sound :=
      hb.retime (hb.hasNode_of_ticksOf hready) (Node.means_depleted hkind)
    have hticks : ∀ m, ((b.retime n Phase.depletedTicks).retime (storageNode n.id)
        fillTicks).ticksOf m = if m = storageNode n.id then some fillTicks
          else if m = n then some Phase.depletedTicks else b.ticksOf m := fun m => by
      rw [ticksOf_retime, ticksOf_retime]
      simp
    have hopen : ∀ m ∈ b.unavailable, m ≠ storageNode n.id ∧ m ≠ n := by
      intro m hm
      obtain ⟨t', ht', hclosed⟩ := hb.mem_unavailable.1 hm
      refine ⟨?_, ?_⟩
      · rintro rfl
        rw [ht, Option.some_inj] at ht'
        subst ht'
        have hpos : 0 < t := by simpa [Node.isClosed, Node.kind, storageNode] using hclosed
        have hmeans : Phase.ofTicks (storageNode n.id).kind t = some .preparing := by
          unfold Phase.ofTicks
          rw [if_neg (by omega), if_pos hpos]
          rfl
        unfold Status.ofTicks at hs
        rw [hmeans] at hs
        cases hs
      · rintro rfl
        rw [hready, Option.some_inj] at ht'
        subst ht'
        rw [Node.isClosed, hkind] at hclosed
        simp at hclosed
    refine ⟨⟨hmagic.retime (hb.hasNode_of_ticksOf ht) (Node.means_of_nonneg (by simp [fillTicks])),
      rfl, fun m hm => ?_, fun m hm => ?_⟩, fun id basis => ?_, fun m hm hne => ?_⟩
    · rw [hticks, if_neg (hopen m hm).1, if_neg (hopen m hm).2]
    · rw [hticks, if_neg]
      · split
        · next hmn => exact Or.inr ⟨hmn ▸ hready, rfl⟩
        · exact Or.inl rfl
      · rintro rfl
        cases hm
    · rw [hticks, if_neg (by simp [storageNode]), if_neg]
      rintro rfl
      cases hkind
    · rw [hticks, if_neg, if_neg hne]
      rintro rfl
      cases hm
  · exact ⟨Occupies.refl hb, fun _ _ => rfl, fun _ _ _ => rfl⟩

theorem foldl_storeOne_spec {l : List Node} (hb : b.Sound) (hl : l.Nodup)
    (hready : ∀ n ∈ l, n.kind = .patch .magic ∧ b.ticksOf n = some 0) :
    b.Occupies (l.foldl storeOne b) ∧ b.SparesData (l.foldl storeOne b) := by
  induction l generalizing b with
  | nil => exact ⟨Occupies.refl hb, fun _ _ => rfl⟩
  | cons n l ih =>
    obtain ⟨hn, hl⟩ := List.nodup_cons.1 hl
    obtain ⟨hkind, hzero⟩ := hready n List.mem_cons_self
    obtain ⟨hone, hdata, hothers⟩ := storeOne_spec hb hkind hzero
    obtain ⟨hrest, hdata'⟩ := ih hone.sound hl fun m hm => by
      obtain ⟨hkind', hzero'⟩ := hready m (List.mem_cons_of_mem _ hm)
      exact ⟨hkind', (hothers m hkind' fun h => hn (h ▸ hm)).trans hzero'⟩
    exact ⟨hone.trans hb hrest, hdata.trans hdata'⟩

theorem storeMagicStates_spec (hb : b.Sound) :
    b.Occupies b.storeMagicStates ∧ b.SparesData b.storeMagicStates :=
  foldl_storeOne_spec hb (b.withStatus .magic .ready).nodup fun _ hn => hb.mem_ready.1 hn

/-! ## Resetting -/

/-- The countdown that a reset gives to a node of its tree. -/
def resetMark (n : Node) : Option Int :=
  match n.kind with
  | .bus | .patch .zero => some 1
  | .patch .storage => some Phase.connectingTicks
  | _ => none

theorem resetMark_eq_some_iff {t : Int} : resetMark n = some t ↔
    ((n.kind = .bus ∨ n.kind = .patch .zero) ∧ t = 1) ∨
      (n.kind = .patch .storage ∧ t = Phase.connectingTicks) := by
  unfold resetMark
  cases n.kind with
  | bus => simp [eq_comm]
  | patch k => cases k <;> simp [eq_comm]

theorem resetMark_of_kind (h : n.kind = .patch .magic ∨ n.kind = .patch .qubit) :
    resetMark n = none := by
  unfold resetMark
  rcases h with hk | hk <;> rw [hk]

theorem means_resetMark {t : Int} (h : resetMark n = some t) : n.Means t := by
  rcases resetMark_eq_some_iff.1 h with ⟨-, rfl⟩ | ⟨hk, rfl⟩
  · exact Node.means_of_nonneg (by omega)
  · exact Node.means_storage hk (Or.inr (Or.inl rfl))

theorem markReset_cons (n : Node) (ns : List Node) (b : Board) : markReset (n :: ns) b =
    match resetMark n with
    | some t => b.setTick t n >>= markReset ns
    | none => markReset ns b := by
  rw [markReset, resetMark]
  cases n.kind with
  | bus => rfl
  | patch k => cases k <;> rfl

/-- What the nodes of a tree are after they were marked. -/
structure MarkedFrom (b : Board) (ns : List Node) (b' : Board) : Prop where
  sound : b'.Sound
  graph : b'.graph = b.graph
  ticks : ∀ m, b'.ticksOf m = if m ∈ ns then (resetMark m).or (b.ticksOf m) else b.ticksOf m

/-- Marking nodes of the board never fails and changes nothing but those nodes. -/
theorem markReset_ends {ns : List Node} (hb : b.Sound)
    (hns : ∀ n ∈ ns, b.graph.hasNode n = true) :
    Ends (markReset ns b) (fun _ => False) (b.MarkedFrom ns) := by
  induction ns generalizing b with
  | nil => exact ⟨hb, rfl, fun m => by simp⟩
  | cons n ns ih =>
    have hnode := hns n List.mem_cons_self
    have hrest := fun m hm => hns m (List.mem_cons_of_mem _ hm)
    rw [markReset_cons]
    split
    · next t ht =>
      rw [setTick_eq hb hnode (means_resetMark ht)]
      refine (ih (hb.retime hnode (means_resetMark ht)) hrest).mono (fun _ h => h) ?_
      rintro b' ⟨hsound, hgraph, hticks⟩
      refine ⟨hsound, hgraph, fun m => ?_⟩
      rw [hticks, ticksOf_retime]
      by_cases hmn : m = n
      · subst hmn
        simp [ht]
      · simp [hmn]
    · next hnone =>
      refine (ih hb hrest).mono (fun _ h => h) ?_
      rintro b' ⟨hsound, hgraph, hticks⟩
      refine ⟨hsound, hgraph, fun m => ?_⟩
      rw [hticks]
      by_cases hmn : m = n
      · subst hmn
        simp [hnone]
      · simp [hmn]

/-- The part of the board through which storages may be reset: what is open, without data patches. -/
def resetPart (b : Board) : Board :=
  b.openPart.removeNodes (b.openPart.nodesOfKind (.patch .qubit)).toList

theorem resetPart_within (hb : b.Sound) : b.resetPart.graph.Within b.graph :=
  (removeNodes_within hb.openPart.graph _).trans (removeNodes_within hb.graph _)

theorem hasNode_resetPart : b.resetPart.graph.hasNode n = true ↔
    b.graph.hasNode n = true ∧ n ∉ b.unavailable ∧ n.kind ≠ .patch .qubit := by
  rw [resetPart, hasNode_removeNodes, SortedSet.mem_toList, mem_nodesOfKind, hasNode_openPart]
  tauto

/-- The tree through which a storage is reset, if it is. -/
def resetTree (b : Board) (storage : Node) : Except Fault (Option Tree) :=
  if b.statusOf (.zero storage.id .X) = some ⟨.patch .zero, .ready⟩ ∧
      b.statusOf (.zero storage.id .Z) = some ⟨.patch .zero, .ready⟩ then do
    let c ← b.resetPart.connect (zeroTerminals storage storage.id) none
    return c.tree
  else return none

theorem resetOne_eq (b : Board) (storage : Node) : b.resetOne storage =
    b.resetTree storage >>= fun found =>
      match found with
      | none => .ok b
      | some t => markReset t.nodes b := by
  unfold resetOne resetTree
  dsimp only
  split
  · rw [bind_assoc]
    rfl
  · rfl

theorem resetOne_cases (h : b.resetOne n = .ok b') : (b.resetTree n = .ok none ∧ b' = b) ∨
    ∃ t, b.resetTree n = .ok (some t) ∧ markReset t.nodes b = .ok b' := by
  rw [resetOne_eq] at h
  obtain ⟨found, hfound, h⟩ := exists_of_bind_eq_ok h
  cases found with
  | none =>
    cases h
    exact Or.inl ⟨hfound, rfl⟩
  | some t => exact Or.inr ⟨t, hfound, h⟩

/-- A storage is reset through a tree of open nodes that joins it to its zero state, which is ready. -/
theorem resetTree_ends (hb : b.Sound) (hn : n.kind = .patch .storage) :
    Ends (b.resetTree n) (fun _ => False) fun found => ∀ t, found = some t →
      (∀ basis, b.statusOf (.zero n.id basis) = some ⟨.patch .zero, .ready⟩) ∧
        ZeroStateTree b.resetPart.graph n n.id t := by
  unfold resetTree
  split
  · next hready =>
    have hnodup : (zeroTerminals n n.id).Nodup := nodup_zeroTerminals (by simp [hn]) n.id
    refine Ends.bind (connect_ends none (hb.openPart.removeNodes _).graph hnodup
      (by simp [zeroTerminals]) fun c h => by cases h) ?_
    intro c hc t ht
    obtain ⟨hsound, hwithin, hcontains⟩ := hc.tree t ht
    exact ⟨fun basis => by cases basis <;> simp [hready], hsound, hwithin, hcontains, hc.trim t ht⟩
  · exact fun t ht => by cases ht

theorem hasNode_of_resetTree (hb : b.Sound) (hn : n.kind = .patch .storage) {t : Tree}
    (h : b.resetTree n = .ok (some t)) : ∀ m ∈ t.nodes, b.graph.hasNode m = true := fun m hm =>
  (hasNode_resetPart.1 (((resetTree_ends hb hn).of_ok h t rfl).2.within.node m
    (Tree.mem_nodes.1 hm))).1

theorem resetOne_ends (hb : b.Sound) (hn : n.kind = .patch .storage) :
    Ends (b.resetOne n) (fun _ => False) fun b' => b.Occupies b' ∧ b.SparesData b' := by
  rw [resetOne_eq]
  refine Ends.bind (resetTree_ends hb hn) ?_
  rintro (_ | t) hfound
  · exact ⟨Occupies.refl hb, fun _ _ => rfl⟩
  · obtain ⟨-, htree⟩ := hfound t rfl
    have hopen : ∀ m ∈ t.nodes, b.graph.hasNode m = true ∧ m ∉ b.unavailable := fun m hm =>
      (hasNode_resetPart.1 (htree.within.node m (Tree.mem_nodes.1 hm))).imp_right And.left
    refine (markReset_ends hb fun m hm => (hopen m hm).1).mono (fun _ h => h) ?_
    rintro b' ⟨hsound, hgraph, hticks⟩
    have hunmarked : ∀ m, resetMark m = none → b'.ticksOf m = b.ticksOf m := by
      intro m hm
      rw [hticks, hm, Option.none_or, ite_self]
    refine ⟨⟨hsound, hgraph, fun m hm => ?_, fun m hm => ?_⟩, fun id basis => ?_⟩
    · rw [hticks, if_neg fun hmem => (hopen m hmem).2 hm]
    · exact Or.inl (hunmarked m (resetMark_of_kind (Or.inl hm)))
    · exact hunmarked _ (resetMark_of_kind (Or.inr rfl))

section Induct

variable {motive : Board → Prop} {ns : List Node}
  (step : ∀ c c' n t, resetMark n = some t → c.setTick t n = .ok c' → motive c → motive c')

include step

/-- What each mark keeps is kept by the marks of a tree. -/
theorem markReset_induct (h : markReset ns b = .ok b') (start : motive b) : motive b' := by
  induction ns generalizing b with
  | nil =>
    cases h
    exact start
  | cons n ns ih =>
    rw [markReset_cons] at h
    split at h
    · next t ht =>
      obtain ⟨c, hset, hrest⟩ := exists_of_bind_eq_ok h
      exact ih hrest (step b c n t ht hset start)
    · exact ih h start

/-- What each mark keeps is kept by resets. -/
theorem resetEach_induct (h : resetEach ns b = .ok b') (start : motive b) : motive b' := by
  induction ns generalizing b with
  | nil =>
    cases h
    exact start
  | cons n ns ih =>
    obtain ⟨c, hone, hrest⟩ := exists_of_bind_eq_ok h
    rcases resetOne_cases hone with ⟨-, rfl⟩ | ⟨t, -, hmark⟩
    · exact ih hrest start
    · exact ih hrest (markReset_induct step hmark start)

end Induct

theorem resetEach_ends {ns : List Node} (hb : b.Sound) (hns : ∀ n ∈ ns, n.kind = .patch .storage) :
    Ends (resetEach ns b) (fun _ => False) fun b' => b.Occupies b' ∧ b.SparesData b' := by
  induction ns generalizing b with
  | nil => exact ⟨Occupies.refl hb, fun _ _ => rfl⟩
  | cons n ns ih =>
    refine Ends.bind (resetOne_ends hb (hns n List.mem_cons_self)) ?_
    rintro b' ⟨hone, hdata⟩
    refine (ih hone.sound fun m hm => hns m (List.mem_cons_of_mem _ hm)).mono (fun _ h => h) ?_
    rintro b'' ⟨hrest, hdata'⟩
    exact ⟨hone.trans hb hrest, hdata.trans hdata'⟩

/-- Resetting storages never fails. -/
theorem resetStorages_ends (hb : b.Sound) :
    Ends b.resetStorages (fun _ => False) fun b' => b.Occupies b' ∧ b.SparesData b' := by
  refine resetEach_ends hb fun n hn => ?_
  obtain ⟨t, -, hs⟩ := hb.mem_withStatus.1 hn
  exact (Status.kind_of_ofTicks hs).symm

end Board

end LatticeSurgery
