import LatticeSurgery.Proofs.Packing.InStock

/-!
# The queries of a tick

When a π/8 rotation is routed, the factories are asked which of the free magic states and storages it is
to use (`Packer.Query`). The queries of a tick follow the second round rotation by rotation
(`Packer.queries`): routing a rotation goes on with the answer to its query, if it makes one
(`Packer.packRotation_of_pi8`), and every π/8 rotation that is packed was given the answer to one of
them (`Packer.exists_query_of_pack`). At each query, the desk is what seeing to the storages and committing
the rotations packed so far leads to (`Packer.proceeds_of_mem_queries`).
-/

namespace LatticeSurgery

open Ordered WordSource

namespace Packer

variable {σ : Type} [WordSource σ] {b b₀ b₁ : Board} {f : Factories} {rng : σ} {p : Packer}
  {r : Rotation} {rs seen rotations : List Rotation} {d d' d₀ : Desk} {outcome : Outcome}
  {routed : List Packed} {w : Graph Node} {turnTicks : Int} {q : Packed}

/-- The question which magic state or storage a π/8 rotation is to use. -/
structure Query where
  /-- The desk at which the rotation is routed. -/
  desk : Desk
  /-- What the rotation may use of the board. -/
  sub : Board
  /-- The node to be joined to the state. -/
  target : Node

/-- The magic states and storages that the rotation could use. -/
def Query.candidates (q : Query) : List Node :=
  q.desk.stock.magic.toList.filter q.sub.graph.hasNode

/-- What the factories answer. -/
def Query.answer (q : Query) : Option (Node × List Node) :=
  q.desk.factories.choose q.sub q.candidates q.target

/-- The query that routing a rotation makes, if any. -/
def query? (r : Rotation) (d : Desk) : Option Query :=
  let terminals := r.activeNodes.toList
  match terminals with
  | [] => none
  | anchor :: others =>
    if r.kind ≠ .pi8 ∨ (terminals.any fun t => decide (d.working.graph.degree t = 0)) then none
    else if others.isEmpty then some ⟨d, d.working.restrictTo terminals r.kind, anchor⟩
    else
      match connectQubits r terminals d with
      | .ok (some t, d) =>
        ((d.working.restrictTo terminals r.kind).contract t anchor).toOption.map (⟨d, ·, anchor⟩)
      | _ => none

/-- The rotations that the second round routes, each with the desk at which it does. -/
def routings : List Rotation → Desk → List (Rotation × Desk)
  | [], _ => []
  | r :: rs, d =>
    if r.kind = .pi8 ∧ d.stock.magic.isEmpty then routings rs d
    else
      (r, d) ::
        match packRotation r d >>= fun (outcome, d) => settle outcome [] d with
        | .ok (_, d) => routings rs d
        | .error _ => []

/-- What the first round leaves behind, and the desk on which the second round begins. -/
def opening (p : Packer) (rotations : List Rotation) (b : Board) (f : Factories) (rng : σ) :
    Except Fault (FirstRound σ × Desk) := do
  let b ← p.runStorages .beforePacking b
  let stock := stockOf b
  let first ← firstRound p.turnTicks b.busyQubits (!stock.magic.isEmpty) rotations
    ⟨[], [], b, f, p.fails, rng⟩
  let working := first.board.openPart.removeNodes (first.packed.flatMap fun q => q.tree.nodes)
  return (first, ⟨first.board, working, first.factories, stock, { p with fails := first.fails }⟩)

/-- The queries that packing a tick makes, in the order in which it makes them. -/
def queries (p : Packer) (rotations : List Rotation) (b : Board) (f : Factories) (rng : σ) :
    List Query :=
  match p.opening rotations b f rng with
  | .ok (first, d) => (routings first.remaining d).filterMap fun x => query? x.1 x.2
  | .error _ => []

/-! ## Queries are made -/

/-- Packing goes on with the second round where the first one ended. -/
theorem pack_eq_opening : p.pack rotations b f rng = (do
    let (first, d) ← p.opening rotations b f rng
    let (packed, d) ← secondRound first.remaining first.packed d
    let b ← d.packer.runStorages .afterPacking d.board
    return ⟨packed, d.packer, b, d.factories, first.rng⟩) := by
  unfold pack opening
  cases hbefore : p.runStorages .beforePacking b with
  | error e => rfl
  | ok b₀ =>
    dsimp only [Bind.bind, Except.bind]
    cases firstRound p.turnTicks b₀.busyQubits (!(stockOf b₀).magic.isEmpty) rotations
      ⟨[], [], b₀, f, p.fails, rng⟩ <;> rfl

/-- A query is made for a π/8 rotation, at the desk where it is routed. -/
theorem desk_of_query? {q : Query} (h : query? r d = some q) :
    r.kind = .pi8 ∧ ∃ packer, q.desk = { d with packer := packer } := by
  unfold query? at h
  dsimp only at h
  split at h
  · cases h
  · split at h
    · cases h
    · next hnot =>
      rw [not_or, not_not] at hnot
      refine ⟨hnot.1, ?_⟩
      split at h
      · cases h
        exact ⟨d.packer, rfl⟩
      · split at h
        · next hconnect =>
          obtain ⟨sub, -, rfl⟩ := Option.map_eq_some_iff.1 h
          obtain ⟨packer, -, heq⟩ := frame_of_connectQubits hconnect
          exact ⟨packer, heq⟩
        · cases h

/-- Routing a π/8 rotation goes on with the answer to its query. Without a query it is not packed. -/
theorem packRotation_of_pi8 (hk : r.kind = .pi8) (d : Desk) :
    (∃ q qubits, query? r d = some q ∧
      packRotation r d = packMagicState r qubits q.target q.sub q.desk) ∨
    (query? r d = none ∧ ∀ q d', packRotation r d ≠ .ok (.packed q, d')) := by
  unfold query? packRotation
  dsimp only
  cases hnodes : r.activeNodes.toList with
  | nil => exact Or.inr ⟨rfl, fun _ _ h => nomatch h⟩
  | cons anchor others =>
    dsimp only
    by_cases hdegree :
        ((anchor :: others).any fun t => decide (d.working.graph.degree t = 0)) = true
    · rw [if_pos (Or.inr hdegree), if_pos hdegree]
      exact Or.inr ⟨rfl, fun _ _ h => nomatch h⟩
    · rw [if_neg (not_or.2 ⟨not_not.2 hk, hdegree⟩), if_neg hdegree]
      by_cases hothers : others.isEmpty = true
      · rw [if_pos hothers, if_pos hothers, if_neg (by simp [hk])]
        refine Or.inl ⟨_, none, rfl, ?_⟩
        unfold packResource
        rw [hk]
        rfl
      · rw [if_neg hothers, if_neg hothers]
        cases hconnect : connectQubits r (anchor :: others) d with
        | error e => exact Or.inr ⟨rfl, fun _ _ h => nomatch h⟩
        | ok found =>
          obtain ⟨_ | t, d₁⟩ := found
          · exact Or.inr ⟨rfl, fun _ _ h => nomatch h⟩
          · dsimp only [Bind.bind, Except.bind]
            rw [hk, if_neg (by simp), if_neg (by simp)]
            unfold packResource
            dsimp only
            rw [hk]
            cases (d₁.working.restrictTo (anchor :: others) .pi8).contract t anchor with
            | error e => exact Or.inr ⟨rfl, fun _ _ h => nomatch h⟩
            | ok sub => exact Or.inl ⟨_, some t, rfl, rfl⟩

/-- What a rotation is packed with is the answer to the query. -/
theorem answer_of_packMagicState {query : Query} {qubits : Option Tree}
    (h : packMagicState r qubits query.target query.sub query.desk = .ok (.packed q, d')) :
    ∃ chosen path, query.answer = some (chosen, path) ∧ q.resource = some (magicResource chosen) := by
  unfold packMagicState at h
  split at h
  · cases h
  · split at h
    · cases h
    · next chosen path hchoose =>
      obtain ⟨⟨b₁, f₁⟩, -, h⟩ := exists_of_bind_eq_ok h
      cases h
      exact ⟨chosen, path, hchoose, rfl⟩

/-! ## The second round -/

/-- At every desk of the second round, the rotations packed so far are committed. -/
theorem routes_of_mem_routings (hb₁ : b₁.Sound) (h : Routes b₁ w seen routed d₀)
    (hmem : (r, d) ∈ routings rs d₀) (turnTicks : Int) :
    ∃ new, Routes b₁ w (seen ++ rs) (routed ++ new) d ∧
      commitAll turnTicks new d₀.board d₀.factories = .ok (d.board, d.factories) ∧
        ∀ n ∈ d.stock.magic, n ∈ d₀.stock.magic := by
  induction rs generalizing seen routed d₀ with
  | nil => cases hmem
  | cons r₀ rs ih =>
    unfold routings at hmem
    split at hmem
    · rw [List.append_cons]
      exact ih (h.skip r₀) hmem
    · rcases List.mem_cons.1 hmem with heq | hmem
      · cases heq
        exact ⟨[], by rw [List.append_nil]; exact { h with
          order := h.order.trans (List.sublist_append_left _ _) }, rfl, fun _ hn => hn⟩
      · split at hmem
        · next ps₁ d₂ hnext =>
          obtain ⟨⟨outcome, d₁⟩, hrotation, hsettle⟩ := exists_of_bind_eq_ok hnext
          obtain ⟨fails, -, -, rfl⟩ := exists_of_settle hsettle
          have hrouted := (packRotation_ends h.desk r₀).of_ok hrotation
          have hsame := same_enter outcome fails d₁
          have hcommits := commits_of_packRotation hrotation turnTicks
          rw [← hsame.board, ← hsame.factories] at hcommits
          obtain ⟨more, hroutes', hcommits', hsub⟩ := ih (h.enter hb₁ hrouted fails) hmem
          rw [List.append_cons]
          exact ⟨outcome.packings ++ more, by rwa [← List.append_assoc],
            commitAll_append hcommits hcommits',
            fun n hn => hrouted.stock n (hsame.stock ▸ hsub n hn)⟩
        · cases hmem

/-- The rotation is given the answer to the query. -/
def Answers (query : Query) (q : Packed) : Prop :=
  ∃ chosen path, query.answer = some (chosen, path) ∧ q.resource = some (magicResource chosen)

/-- A π/8 rotation that the second round packs is given the answer to one of its queries. -/
theorem exists_query_of_secondRound (hb₁ : b₁.Sound) (h : Routes b₁ w seen routed d)
    {packed packed' : List Packed} (hsecond : secondRound rs packed d = .ok (packed', d'))
    (hq : q ∈ packed') (hk : q.rotation.kind = .pi8) :
    q ∈ packed ∨ ∃ query ∈ (routings rs d).filterMap fun x => query? x.1 x.2, Answers query q := by
  induction rs generalizing seen routed d packed with
  | nil =>
    cases hsecond
    exact Or.inl hq
  | cons r rs ih =>
    unfold routings
    rcases cases_of_secondRound hsecond with ⟨hskip, hrest⟩ | ⟨hroute, outcome, d₁, fails, hrotation,
      hcount, hrest⟩
    · rw [if_pos hskip]
      exact ih (h.skip r) hrest
    · rw [if_neg hroute]
      have hrouted := (packRotation_ends h.desk r).of_ok hrotation
      have hnext : (packRotation r d >>= fun (outcome, d) => settle outcome [] d) =
          .ok (outcome.packings, d₁.enter outcome fails) := by
        rw [hrotation]
        show settle outcome [] d₁ = _
        rw [settle_eq, hcount]
        rfl
      rw [hnext]
      rcases ih (h.enter hb₁ hrouted fails) hrest with hmem | ⟨query, hquery, hanswers⟩
      · refine (List.mem_append.1 hmem).imp_right fun hmem => ?_
        obtain rfl := Outcome.mem_packings.1 hmem
        obtain ⟨_, heq, rfl, -⟩ := hrouted.outcome.resolve_left fun hnot => hnot.1 q rfl
        cases heq
        rcases packRotation_of_pi8 hk d with ⟨query, qubits, hquery, hpack⟩ | ⟨-, hnot⟩
        · exact ⟨query, List.mem_filterMap.2 ⟨_, List.mem_cons_self, hquery⟩,
            answer_of_packMagicState (hpack ▸ hrotation)⟩
        · exact absurd hrotation (hnot _ _)
      · obtain ⟨x, hx, hquery⟩ := List.mem_filterMap.1 hquery
        exact Or.inr ⟨query, List.mem_filterMap.2 ⟨x, List.mem_cons_of_mem _ hx, hquery⟩, hanswers⟩

/-! ## A tick -/

/-- How the second round begins, when the storages were seen to and the first round is over. -/
theorem opening_spec {first : FirstRound σ} (hp : p.Sound) (hb : b.Sound)
    (h : p.opening rotations b f rng = .ok (first, d)) : ∃ b₀,
      p.runStorages .beforePacking b = .ok b₀ ∧ b.Occupies b₀ ∧
      first.Sound p.turnTicks b₀ f rng rotations ∧
      Routes first.board
        (first.board.openPart.removeNodes (first.packed.flatMap fun q => q.tree.nodes)).graph [] [] d ∧
      commitAll p.turnTicks first.packed b₀ f = .ok (d.board, d.factories) ∧
      d.stock = stockOf b₀ := by
  unfold opening at h
  obtain ⟨b₀, hbefore, h⟩ := exists_of_bind_eq_ok h
  dsimp only at h
  obtain ⟨first', hfirst, h⟩ := exists_of_bind_eq_ok h
  cases h
  obtain ⟨hoccupies, -⟩ := (runStorages_ends p .beforePacking hb).of_ok hbefore
  have hb₀ := hoccupies.sound
  have hsound := (firstRound_ends hb₀ _ rotations (FirstRound.Sound.start hb₀ f p.fails rng)).of_ok hfirst
  rw [List.nil_append] at hsound
  obtain ⟨ps, hps, hcommits⟩ := commits_of_firstRound hfirst
  rw [List.nil_append] at hps
  exact ⟨b₀, hbefore, hoccupies, hsound, Routes.start hb₀ hsound (hp.with_fails first.fails),
    hps ▸ hcommits, rfl⟩

/-- At a query of a tick, the storages were seen to and the rotations packed so far were committed. The
magic states from which one is to be chosen were ready when the tick began. -/
theorem proceeds_of_mem_queries (hp : p.Sound) (hb : b.Sound) {query : Query}
    (h : query ∈ p.queries rotations b f rng) :
    (∃ ps, Proceeds p ps b f query.desk.board query.desk.factories) ∧
      ∀ n ∈ query.candidates, n.kind = .patch .magic → b.ticksOf n = some 0 := by
  unfold queries at h
  split at h
  · next first d₀ hopening =>
    obtain ⟨b₀, hbefore, hoccupies, hfirst, hroutes, hcommits, hstock⟩ := opening_spec hp hb hopening
    obtain ⟨⟨r, d⟩, hmem, hquery⟩ := List.mem_filterMap.1 h
    obtain ⟨-, packer, hdesk⟩ := desk_of_query? hquery
    obtain ⟨new, hroutes', hcommits', hsub⟩ :=
      routes_of_mem_routings hfirst.occupies.sound hroutes hmem p.turnTicks
    rw [List.nil_append, List.nil_append] at hroutes'
    rw [hdesk]
    have hfound := found_of_rounds hfirst hroutes' hoccupies.sound
    refine ⟨⟨first.packed ++ new, ⟨b₀, d.board, p.turnTicks, .seen (by simp) hbefore,
      commitAll_append hcommits hcommits', .left rfl, fun q hq => (hfound q hq).ready⟩,
      fun q hq => (hfound q hq).fresh.serves.marksOwn⟩, fun n hn hk => ?_⟩
    have hfree : n ∈ (stockOf b₀).magic := by
      rw [← hstock]
      refine hsub n ?_
      have hin := (List.mem_filter.1 hn).1
      rwa [hdesk] at hin
    have hready : b₀.ticksOf n = some 0 := by
      rcases SortedSet.mem_union.1 hfree with hn | hn
      · exact (hoccupies.sound.mem_ready.1 hn).2
      · exact (hoccupies.sound.mem_ready.1 hn).2
    rcases hoccupies.magic n hk with hsame | ⟨hready', -⟩
    · exact hsame ▸ hready
    · exact hready'
  · cases h

/-- A π/8 rotation that is packed in a tick is given the answer to one of its queries. -/
theorem exists_query_of_pack {result : Result σ} (hp : p.Sound) (hb : b.Sound)
    (h : p.pack rotations b f rng = .ok result) (hq : q ∈ result.packed)
    (hk : q.rotation.kind = .pi8) : ∃ query ∈ p.queries rotations b f rng, Answers query q := by
  rw [pack_eq_opening] at h
  obtain ⟨⟨first, d⟩, hopening, h⟩ := exists_of_bind_eq_ok h
  obtain ⟨⟨packed, d'⟩, hsecond, h⟩ := exists_of_bind_eq_ok h
  obtain ⟨b', -, h⟩ := exists_of_bind_eq_ok h
  cases h
  obtain ⟨b₀, -, -, hfirst, hroutes, -, -⟩ := opening_spec hp hb hopening
  unfold queries
  rw [hopening]
  refine (exists_query_of_secondRound hfirst.occupies.sound hroutes hsecond hq hk).resolve_left
    fun hmem => ?_
  -- the first round packs no rotations by π/8
  have hrigid := hfirst.rigid q hmem
  unfold Rotation.isRigid at hrigid
  rw [hk] at hrigid
  cases hrigid

end Packer

end LatticeSurgery
