import LatticeSurgery.Proofs.Board.Spanning
import LatticeSurgery.Proofs.Board.StorageCycle

/-!
# Disjoint resets

Storages are reset one after the other, and each reset looks for a tree on the board that the ones
before left behind. On a board reached from a layout the trees share no node, and nothing but their
nodes changes (`Board.resetStorages_disjoint`). What carries this is that the nodes of a tree are ready or
consumed before the reset (`Reset.free`), and neither of them after it (`Reset.not_free`): a consumed
storage is open to later routes, but it is a dead end, so no tree contains a storage except its own.
-/

namespace LatticeSurgery

open Ordered LatticeSurgery.Graph

namespace Board

variable {b b₁ b' : Board} {l : Layout} {n s : Node} {t : Tree} {rs rs' : List (Node × Tree)}

/-! ## The trees -/

/-- The storages among the given ones that are reset, when this is tried one after the other, each
with its tree. -/
def resetRoutesFrom : List Node → Board → Except Fault (List (Node × Tree))
  | [], _ => .ok []
  | s :: ss, b => do
    let found ← b.resetTree s
    let routes ← resetRoutesFrom ss (← b.resetOne s)
    return found.toList.map (fun t => (s, t)) ++ routes

/-- The storages that are reset, each with its tree. -/
def resetRoutes (b : Board) : Except Fault (List (Node × Tree)) :=
  resetRoutesFrom (b.withStatus .storage .consumed).toList b

/-- The consumed storage was reset: the tree joins it to the zero state with its number. -/
structure Reset (b b' : Board) (s : Node) (t : Tree) : Prop where
  consumed : b.statusOf s = some ⟨.patch .storage, .consumed⟩
  connecting : b'.statusOf s = some ⟨.patch .storage, .connecting⟩
  /-- Both nodes of the zero state were ready. -/
  ready : ∀ basis, b.statusOf (.zero s.id basis) = some ⟨.patch .zero, .ready⟩
  spans : Spans b.graph (zeroTerminals s s.id) t
  /-- The rest of the tree consists of bus tiles and nodes of zero states. They were ready, and are taken
  for one tick. -/
  taken : ∀ n, t.contains n = true → n ≠ s → (n.kind = .bus ∨ n.kind = .patch .zero) ∧
    b.statusOf n = some ⟨n.kind, .ready⟩ ∧ b'.ticksOf n = some 1

/-- What the resets of some storages do to a board. -/
structure ResetsAlong (b b' : Board) (rs : List (Node × Tree)) : Prop where
  graph : b'.graph = b.graph
  reset : ∀ r ∈ rs, b.Reset b' r.1 r.2
  disjoint : rs.Pairwise fun r r' => ∀ n, r.2.contains n = true → r'.2.contains n = false
  /-- What is in no tree keeps its countdown. -/
  kept : ∀ n, (∀ r ∈ rs, r.2.contains n = false) → b'.ticksOf n = b.ticksOf n

/-! ## One reset -/

/-- The node is ready or consumed. -/
def Free (b : Board) (n : Node) : Prop :=
  ∃ s, b.statusOf n = some s ∧ (s.phase = .ready ∨ s.phase = .consumed)

/-- A reset takes nodes that are free. -/
theorem Reset.free (h : b.Reset b' s t) (hn : t.contains n = true) : b.Free n := by
  by_cases hns : n = s
  · exact ⟨_, hns ▸ h.consumed, Or.inr rfl⟩
  · exact ⟨_, (h.taken n hn hns).2.1, Or.inl rfl⟩

/-- What a reset takes is not free any more. -/
theorem Reset.not_free (h : b.Reset b' s t) (hn : t.contains n = true) : ¬ b'.Free n := by
  rintro ⟨st, hst, hphase⟩
  by_cases hns : n = s
  · subst hns
    rw [h.connecting] at hst
    cases hst
    rcases hphase with hphase | hphase <;> cases hphase
  · obtain ⟨hkind, -, hticks⟩ := h.taken n hn hns
    have hbusy : Status.ofTicks n 1 = some ⟨n.kind, .busy⟩ := by
      rcases hkind with hk | hk <;> rw [Status.ofTicks, hk] <;> rfl
    rw [statusOf_of_ticksOf hticks, hbusy] at hst
    cases hst
    rcases hphase with hphase | hphase <;> cases hphase

/-- What happens to other nodes later does not matter. -/
theorem Reset.later (h : b.Reset b₁ s t)
    (hkept : ∀ n, t.contains n = true → b'.ticksOf n = b₁.ticksOf n) : b.Reset b' s t where
  consumed := h.consumed
  connecting := by
    rw [statusOf_congr (hkept s (h.spans.contains s (by simp [zeroTerminals])))]
    exact h.connecting
  ready := h.ready
  spans := h.spans
  taken n hn hns := by
    obtain ⟨hkind, hready, hticks⟩ := h.taken n hn hns
    exact ⟨hkind, hready, (hkept n hn).trans hticks⟩

/-- What happened to other nodes before does not matter. -/
theorem Reset.earlier (h : b₁.Reset b' s t) (hgraph : b₁.graph = b.graph)
    (hkept : ∀ n, t.contains n = true → b₁.ticksOf n = b.ticksOf n) : b.Reset b' s t where
  consumed := by
    rw [← statusOf_congr (hkept s (h.spans.contains s (by simp [zeroTerminals])))]
    exact h.consumed
  connecting := h.connecting
  ready basis := by
    have hzero := h.spans.contains (.zero s.id basis) (by cases basis <;> simp [zeroTerminals])
    rw [← statusOf_congr (hkept _ hzero)]
    exact h.ready basis
  spans := hgraph ▸ h.spans
  taken n hn hns := by
    rw [← statusOf_congr (hkept n hn)]
    exact h.taken n hn hns

/-- The tree of a reset spans the storage and its zero state. -/
theorem spans_of_resetTree (hb : b.Sound) (hs : s.kind = .patch .storage)
    (h : b.resetTree s = .ok (some t)) : Spans b.graph (zeroTerminals s s.id) t := by
  unfold resetTree at h
  split at h
  · obtain ⟨c, hc, htree⟩ := exists_of_bind_eq_ok h
    have hnodup : (zeroTerminals s s.id).Nodup := nodup_zeroTerminals (by simp [hs]) s.id
    have hspans := spans_of_connect (hb.openPart.removeNodes _).graph hnodup (by simp [zeroTerminals])
      (fun p hp => by cases hp) hc (Except.ok.inj htree)
    refine { hspans with edges := fun n m w hw => ?_ }
    have hpart := hspans.edges n m w hw
    rw [graph_removeNodes, weight?_foldl_removeNode _ hb.openPart.graph, openPart, graph_removeNodes,
      weight?_foldl_removeNode _ hb.graph] at hpart
    exact hpart.1.1
  · cases h

/-- Marking the tree that was found resets the storage. -/
theorem resetsAlong_of_markReset (hb : b.Sound) (hp : b.graph.Ported)
    (hs : b.statusOf s = some ⟨.patch .storage, .consumed⟩) (h : b.resetTree s = .ok (some t))
    (hmark : markReset t.nodes b = .ok b') : b.ResetsAlong b' [(s, t)] := by
  have hkind : s.kind = .patch .storage := kind_of_statusOf hs
  have hspans := spans_of_resetTree hb hkind h
  obtain ⟨hready, -⟩ := (resetTree_ends hb hkind).of_ok h t rfl
  have hmarked := (markReset_ends hb (hasNode_of_resetTree hb hkind h)).of_ok hmark
  have hticks : ∀ n u, t.contains n = true → resetMark n = some u → b'.ticksOf n = some u := by
    intro n u hn hu
    rw [hmarked.ticks, if_pos (Tree.mem_nodes.2 hn), hu, Option.some_or]
  refine ⟨hmarked.graph, fun r hr => ?_, List.pairwise_singleton _ _, fun n hn => ?_⟩
  · obtain rfl := List.mem_singleton.1 hr
    have hconnecting : b'.ticksOf s = some Phase.connectingTicks :=
      hticks s _ (hspans.contains s (by simp [zeroTerminals]))
        (resetMark_eq_some_iff.2 (Or.inr ⟨hkind, rfl⟩))
    refine ⟨hs, ?_, hready, hspans, fun n hn hns => ?_⟩
    · rw [statusOf_of_ticksOf hconnecting, Status.ofTicks, hkind]
      rfl
    · obtain ⟨hkinds, hzero⟩ := (cases_of_resetTree hb hp hkind h hn).resolve_left hns
      exact ⟨hkinds, (statusOf_of_ticksOf hzero).trans (Status.ofTicks_ready_iff.2 ⟨rfl, rfl⟩),
        hticks n 1 hn (resetMark_eq_some_iff.2 (Or.inl ⟨hkinds, rfl⟩))⟩
  · rw [hmarked.ticks, if_neg]
    rw [Tree.mem_nodes, hn (s, t) (List.mem_singleton.2 rfl)]
    exact Bool.false_ne_true

/-! ## All resets -/

theorem ResetsAlong.refl (b : Board) : b.ResetsAlong b [] :=
  ⟨rfl, fun _ hr => absurd hr List.not_mem_nil, .nil, fun _ _ => rfl⟩

/-- Later resets only take what is free, so they keep off the trees of the resets before. -/
theorem ResetsAlong.trans (h : b.ResetsAlong b₁ rs) (h' : b₁.ResetsAlong b' rs') :
    b.ResetsAlong b' (rs ++ rs') := by
  have hapart : ∀ r ∈ rs, ∀ r' ∈ rs', ∀ n, r.2.contains n = true → r'.2.contains n = false := by
    intro r hr r' hr' n hn
    by_contra hn'
    exact (h.reset r hr).not_free hn ((h'.reset r' hr').free (by simpa using hn'))
  refine ⟨h'.graph.trans h.graph, fun r hr => ?_,
    List.pairwise_append.2 ⟨h.disjoint, h'.disjoint, hapart⟩, fun n hn => ?_⟩
  · rcases List.mem_append.1 hr with hr | hr
    · exact (h.reset r hr).later fun n hn => h'.kept n fun r' hr' => hapart r hr r' hr' n hn
    · refine (h'.reset r hr).earlier h.graph fun n hn => h.kept n fun r' hr' => ?_
      by_contra hn'
      rw [hapart r' hr' r hr n (by simpa using hn')] at hn
      cases hn
  · rw [h'.kept n fun r hr => hn r (List.mem_append_right _ hr),
      h.kept n fun r hr => hn r (List.mem_append_left _ hr)]

/-- Trying to reset one storage. -/
theorem exists_resetOne (hb : b.Sound) (hp : b.graph.Ported)
    (hs : b.statusOf s = some ⟨.patch .storage, .consumed⟩) : ∃ found b₁,
      b.resetTree s = .ok found ∧ b.resetOne s = .ok b₁ ∧ b₁.Sound ∧
        b.ResetsAlong b₁ (found.toList.map fun t => (s, t)) := by
  have hkind : s.kind = .patch .storage := kind_of_statusOf hs
  obtain ⟨b₁, hone, hoccupies, -⟩ := (resetOne_ends hb hkind).exists_ok
  rcases resetOne_cases hone with ⟨htree, rfl⟩ | ⟨t, htree, hmark⟩
  · exact ⟨none, b₁, htree, hone, hb, .refl b₁⟩
  · exact ⟨some t, b₁, htree, hone, hoccupies.sound, resetsAlong_of_markReset hb hp hs htree hmark⟩

/-- A storage that was not reset keeps its status. -/
theorem ResetsAlong.statusOf_storage (h : b.ResetsAlong b' rs) (hn : n.kind = .patch .storage)
    (hrs : ∀ r ∈ rs, n ≠ r.1) : b'.statusOf n = b.statusOf n := by
  refine statusOf_congr (h.kept n fun r hr => ?_)
  by_contra hcontains
  rcases ((h.reset r hr).taken n (by simpa using hcontains) (hrs r hr)).1 with hk | hk <;>
    cases hn.symm.trans hk

theorem exists_resetEach {ss : List Node} (hb : b.Sound) (hp : b.graph.Ported) (hnodup : ss.Nodup)
    (hss : ∀ s ∈ ss, b.statusOf s = some ⟨.patch .storage, .consumed⟩) :
    ∃ rs b', resetRoutesFrom ss b = .ok rs ∧ resetEach ss b = .ok b' ∧ b.ResetsAlong b' rs := by
  induction ss generalizing b with
  | nil => exact ⟨[], b, rfl, rfl, .refl b⟩
  | cons s ss ih =>
    obtain ⟨hs, hrest⟩ := List.nodup_cons.1 hnodup
    obtain ⟨found, b₁, htree, hone, hsound, hstep⟩ := exists_resetOne hb hp (hss s List.mem_cons_self)
    have hconsumed : ∀ s' ∈ ss, b₁.statusOf s' = some ⟨.patch .storage, .consumed⟩ := by
      intro s' hs'
      have hbefore := hss s' (List.mem_cons_of_mem _ hs')
      rw [hstep.statusOf_storage (kind_of_statusOf hbefore), hbefore]
      rintro r hr rfl
      obtain ⟨t, -, rfl⟩ := List.mem_map.1 hr
      exact hs hs'
    obtain ⟨rs, b', hroutes, heach, hlater⟩ := ih hsound (hstep.graph ▸ hp) hrest hconsumed
    refine ⟨_, b', ?_, ?_, hstep.trans hlater⟩
    · rw [resetRoutesFrom, htree, hone]
      show (resetRoutesFrom ss b₁ >>= fun routes =>
        Except.ok (found.toList.map (fun t => (s, t)) ++ routes)) = _
      rw [hroutes]
      rfl
    · rw [resetEach, hone]
      exact heach

/-- The storages that have a tree are those that were reset. -/
theorem ResetsAlong.mem_iff (h : b.ResetsAlong b' rs) : n ∈ rs.map Prod.fst ↔
    b.statusOf n = some ⟨.patch .storage, .consumed⟩ ∧
      b'.statusOf n = some ⟨.patch .storage, .connecting⟩ := by
  constructor
  · intro hn
    obtain ⟨r, hr, rfl⟩ := List.mem_map.1 hn
    exact ⟨(h.reset r hr).consumed, (h.reset r hr).connecting⟩
  · rintro ⟨hconsumed, hconnecting⟩
    by_contra hnot
    rw [h.statusOf_storage (kind_of_statusOf hconsumed), hconsumed] at hconnecting
    · cases hconnecting
    · rintro r hr rfl
      exact hnot (List.mem_map_of_mem hr)

/-- No two resets use the same zero state. -/
theorem ResetsAlong.nodup_ids (h : b.ResetsAlong b' rs) : (rs.map fun r => r.1.id).Nodup := by
  refine List.pairwise_map.2 (h.disjoint.imp_of_mem fun {r r'} hr hr' hdisjoint heq => ?_)
  have hzero : ∀ r ∈ rs, r.2.contains (.zero r.1.id .X) = true := fun r hr =>
    (h.reset r hr).spans.contains _ (by simp [zeroTerminals])
  have hfalse := hdisjoint _ (hzero r hr)
  rw [heq, hzero r' hr'] at hfalse
  cases hfalse

/-- On a board reached from a layout on which no tree was contracted, resetting storages never fails.
The storages that it resets have one tree each, the trees share no node, and no zero state is used
twice. -/
theorem resetStorages_disjoint (hb : Reached l b) (hnone : b.anchor = none) : ∃ rs b',
    b.resetRoutes = .ok rs ∧ b.resetStorages = .ok b' ∧ b.ResetsAlong b' rs ∧
      (rs.map fun r => r.1.id).Nodup ∧
      ∀ n, n ∈ rs.map Prod.fst ↔ b.statusOf n = some ⟨.patch .storage, .consumed⟩ ∧
        b'.statusOf n = some ⟨.patch .storage, .connecting⟩ := by
  have hsound := hb.sound hnone
  have hconsumed : ∀ s ∈ (b.withStatus .storage .consumed).toList,
      b.statusOf s = some ⟨.patch .storage, .consumed⟩ := fun s hs =>
    statusOf_eq_iff.2 (hsound.mem_withStatus.1 hs)
  obtain ⟨rs, b', hroutes, heach, halong⟩ := exists_resetEach hsound (hb.ported hnone)
    (b.withStatus .storage .consumed).nodup hconsumed
  exact ⟨rs, b', hroutes, heach, halong, halong.nodup_ids, fun n => halong.mem_iff⟩

/-- Two zero states above a row of bus tiles, and two storages below it. -/
def twinLayout : Layout where
  bus := SortedSet.ofList [⟨0, 0⟩, ⟨1, 0⟩, ⟨2, 0⟩, ⟨3, 0⟩]
  data := ∅
  magic := ∅
  zero := SortedSet.ofList [⟨0, 1⟩, ⟨1, 1⟩, ⟨2, 1⟩, ⟨3, 1⟩]
  storage := SortedSet.ofList [⟨1, -1⟩, ⟨2, -1⟩]

/-- Both storages are consumed and are reset at once, through trees without a common node. -/
theorem twinLayout_resets : ∃ b b₀ rs b', ofLayout twinLayout = .ok b ∧
    b.setTicks [storageNode 0, storageNode 1] Phase.consumedTicks = .ok b₀ ∧
    b₀.resetRoutes = .ok rs ∧ rs.length = 2 ∧ b₀.resetStorages = .ok b' ∧ b₀.ResetsAlong b' rs := by
  have hrun : (ofLayout twinLayout).toOption.any (fun b =>
      (b.setTicks [storageNode 0, storageNode 1] Phase.consumedTicks).toOption.any fun b₀ =>
        decide (b₀.anchor = none) && b₀.resetRoutes.toOption.any fun rs =>
          decide (rs.length = 2)) = true := by decide +kernel
  obtain ⟨b, hb, hrun⟩ := exists_of_any_toOption hrun
  obtain ⟨b₀, hb₀, hrun⟩ := exists_of_any_toOption hrun
  rw [Bool.and_eq_true, decide_eq_true_eq] at hrun
  obtain ⟨hnone, hrun⟩ := hrun
  obtain ⟨rs, hrs, hlength⟩ := exists_of_any_toOption hrun
  have hreached : Reached twinLayout b₀ := (Reached.ofLayout hb).step (.inl (.setTicks hb₀))
  obtain ⟨rs', b', hrs', hb', halong, -⟩ := resetStorages_disjoint hreached hnone
  cases hrs.symm.trans hrs'
  exact ⟨b, b₀, rs, b', hb, hb₀, hrs, of_decide_eq_true hlength, hb', halong⟩

end Board

end LatticeSurgery
