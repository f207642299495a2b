import LatticeSurgery.Proofs.Cache.TreeHits
import LatticeSurgery.Proofs.Packing.Leaves
import LatticeSurgery.Proofs.Packing.Rounds

/-!
# What packed trees run through

A rotation is routed on a board that is restricted to what its kind may use: a measurement runs through
bus tiles, a rotation by π/8 takes one magic state or storage besides, and a rotation by π/4 may run
through zero states (`Packed.Permitted`). The tree of the boundaries is taken from the cache if one fits
the board, whatever kind of rotation it was found for. So a tree that was found for a rotation by π/4 may
lead a measurement or a rotation by π/8 on the same boundaries through a zero state, and nothing else can
(`Packer.uses_of_pack`).
-/

namespace LatticeSurgery

open Ordered LatticeSurgery.Graph

/-! ## What stored trees run through -/

namespace TreeCache

/-- What storing the trees found for a rotation makes of a cache: nothing is lost, and a tree that is new
joins the boundaries of the rotation and runs through zero states only if the rotation is one by π/4. -/
structure Extends (r : Rotation) (c c' : TreeCache) : Prop where
  /-- The trees stay. -/
  kept : ∀ terminals t, t ∈ c.trees.candidates terminals → t ∈ c'.trees.candidates terminals
  /-- These are the new ones. -/
  added : ∀ terminals t, t ∈ c'.trees.candidates terminals → t ∈ c.trees.candidates terminals ∨
    terminals = r.activeNodes.toList ∧
      (r.kind ≠ .pi4 → ∀ n, t.contains n = true → n.kind ≠ .patch .zero)

/-- The stored trees that run through zero states join the boundaries of rotations by π/4 among the given
ones. -/
def Traced (seen : List Rotation) (c : TreeCache) : Prop :=
  ∀ terminals t, t ∈ c.trees.candidates terminals → ∀ n, t.contains n = true → n.kind = .patch .zero →
    ∃ s ∈ seen, s.kind = .pi4 ∧ s.activeNodes.toList = terminals

variable {r : Rotation} {c c' : TreeCache} {seen seen' : List Rotation} {terminals : List Node}
  {t : Tree}

theorem Extends.refl (r : Rotation) (c : TreeCache) : Extends r c c :=
  ⟨fun _ _ ht => ht, fun _ _ ht => Or.inl ht⟩

theorem extends_insert
    (ht : r.kind ≠ .pi4 → ∀ n, t.contains n = true → n.kind ≠ .patch .zero) :
    Extends r c (c.insert r.activeNodes.toList t) := by
  refine ⟨fun terminals t' ht' => mem_candidates_insert.2 (Or.inl ht'), fun terminals t' ht' => ?_⟩
  rcases mem_candidates_insert.1 ht' with ht' | ⟨rfl, rfl⟩
  · exact Or.inl ht'
  · exact Or.inr ⟨rfl, ht⟩

theorem traced_empty : (∅ : TreeCache).Traced [] := by
  rintro terminals t ht
  cases ht

theorem Traced.mono (h : c.Traced seen) (hsub : seen ⊆ seen') : c.Traced seen' := by
  intro terminals t ht n hn hk
  obtain ⟨s, hs, hpi4⟩ := h terminals t ht n hn hk
  exact ⟨s, hsub hs, hpi4⟩

theorem Traced.extends (h : c.Traced seen) (hc : Extends r c c') (hr : r ∈ seen) : c'.Traced seen := by
  intro terminals t ht n hn hk
  rcases hc.added terminals t ht with ht | ⟨rfl, hzero⟩
  · exact h terminals t ht n hn hk
  · by_cases hpi4 : r.kind = .pi4
    · exact ⟨r, hr, hpi4, rfl⟩
    · exact absurd hk (hzero hpi4 n hn)

end TreeCache

/-! ## Trees of single rotations -/

namespace Packed

variable {c c' : TreeCache} {p : Packed}

/-- Unless the rotation is one by π/4, a zero state on the tree lies on a stored tree of the same
boundaries that is part of it. -/
def TakesZeros (c : TreeCache) (p : Packed) : Prop :=
  p.rotation.kind ≠ .pi4 → ∀ n, p.tree.contains n = true → n.kind = .patch .zero →
    ∃ t ∈ c.trees.candidates p.rotation.activeNodes.toList,
      t.shape.Within p.tree.shape ∧ t.contains n = true

theorem TakesZeros.extends {r : Rotation} (h : p.TakesZeros c) (hc : TreeCache.Extends r c c') :
    p.TakesZeros c' := by
  intro hpi4 n hn hk
  obtain ⟨t, ht, hwithin⟩ := h hpi4 n hn hk
  exact ⟨t, hc.kept _ t ht, hwithin⟩

theorem takesZeros_of_not_zero (h : ∀ n, p.tree.contains n = true → n.kind ≠ .patch .zero) :
    p.TakesZeros c :=
  fun _ n hn hk => absurd hk (h n hn)

end Packed

namespace Packer

variable {b b₁ : Board} {d d' : Desk} {r : Rotation} {outcome : Outcome} {terminals : List Node}
  {anchor : Node} {qubits : Option Tree} {w : Graph Node} {seen : List Rotation} {routed : List Packed}

/-- Only a rotation by π/4 keeps the zero states when the board is restricted for it. -/
theorem not_zero_of_restrictTo {kind : RotationKind} (hturn : kind ≠ .turn) (hpi4 : kind ≠ .pi4)
    {n : Node} (hn : (b.restrictTo terminals kind).graph.hasNode n = true) : n.kind ≠ .patch .zero := by
  intro hk
  obtain ⟨hnode, hallowed⟩ := Board.hasNode_removeNodes.1 hn
  have hzero : n ∈ (b.nodesOfKind (.patch .zero)).toList := Board.mem_nodesOfKind.2 ⟨hnode, hk⟩
  refine hallowed (List.mem_append_right _ ?_)
  cases kind with
  | pi8 => exact List.mem_append_left _ (List.mem_append_left _ hzero)
  | measurement => exact List.mem_append_left _ (List.mem_append_left _ hzero)
  | pi4 => exact absurd rfl hpi4
  | turn => exact absurd rfl hturn

/-- The tree that connects the boundaries is a stored one. -/
theorem stored_of_connectQubits (hd : d.Sound b₁) (hturn : r.kind ≠ .turn)
    (hne : r.activeNodes.toList ≠ []) {found : Option Tree}
    (h : connectQubits r r.activeNodes.toList d = .ok (found, d')) :
    TreeCache.Extends r d.packer.trees d'.packer.trees ∧
      ∀ t, found = some t → t ∈ d'.packer.trees.trees.candidates r.activeNodes.toList := by
  unfold connectQubits at h
  split at h
  · next t ht =>
    cases h
    refine ⟨TreeCache.Extends.refl r _, fun t' ht' => ?_⟩
    cases ht'
    exact List.mem_of_find?_eq_some ht
  · obtain ⟨c, hconnect, h⟩ := exists_of_bind_eq_ok h
    dsimp only at h
    split at h
    · cases h
      exact ⟨TreeCache.Extends.refl r _, by simp⟩
    · next t ht =>
      cases h
      -- a new tree lies in the restricted board
      have hsub := Board.wellFormed_restrictTo hd.wellFormed r.activeNodes.toList r.kind
      have hconnects : Board.Connects _ r.activeNodes.toList c :=
        (Board.connect_ends _ hsub r.activeNodes.nodup hne fun c hc => by
          cases hc
          exact hd.packer.paths).of_ok hconnect
      obtain ⟨-, hin, -⟩ := hconnects.tree t (Option.filter_eq_some_iff.1 ht).1
      refine ⟨TreeCache.extends_insert fun hpi4 n hn =>
        not_zero_of_restrictTo hturn hpi4 (hin.node n hn), fun t' ht' => ?_⟩
      cases ht'
      exact TreeCache.mem_candidates_insert.2 (Or.inr ⟨rfl, rfl⟩)

/-- A magic state is joined by a path to the anchor. -/
theorem exists_path_of_packMagicState {sub : Board} {p : Packed} (hd : d.Sound b₁)
    (hanchor : anchor.kind = .patch .qubit)
    (h : packMagicState r qubits anchor sub d = .ok (.packed p, d')) :
    ∃ start path, sub.graph.IsPath start anchor path ∧ anchor ∉ path.dropLast ∧ start ≠ anchor ∧
      p.rotation = r ∧ p.tree = spliceMagicState d.working.graph qubits path := by
  unfold packMagicState at h
  split at h
  · cases h
  · split at h
    · cases h
    · next start path hchoose =>
      dsimp only at h
      obtain ⟨⟨b₁, f₁⟩, -, h⟩ := exists_of_bind_eq_ok h
      cases h
      obtain ⟨hmem, length, hpath⟩ := choose_spec hchoose
      obtain ⟨hisPath, hinner, -, -⟩ := shortestPath?_spec hpath
      refine ⟨start, path, hisPath, hinner, ?_, rfl, rfl⟩
      rintro rfl
      rcases (hd.magic start (List.mem_filter.1 hmem).1).1 with hk | hk <;>
        rw [hanchor] at hk <;> cases hk

/-- A rotation by π/8 is given a magic state on the restricted board, in which the tree of the boundaries
is contracted if there is one. -/
theorem exists_sub_of_packResource (hk : r.kind = .pi8)
    (h : packResource r terminals qubits anchor d = .ok (outcome, d')) :
    ∃ sub, packMagicState r qubits anchor sub d = .ok (outcome, d') ∧
      (qubits = none → sub = d.working.restrictTo terminals r.kind) ∧
      ∀ t, qubits = some t → (d.working.restrictTo terminals r.kind).contract t anchor = .ok sub := by
  unfold packResource at h
  cases qubits with
  | none =>
    obtain ⟨sub, hsub, h⟩ := exists_of_bind_eq_ok h
    rw [hk] at h
    exact ⟨sub, h, fun _ => (Except.ok.inj hsub).symm, by simp⟩
  | some t =>
    obtain ⟨sub, hsub, h⟩ := exists_of_bind_eq_ok h
    rw [hk] at h
    refine ⟨sub, h, by simp, fun t' ht' => ?_⟩
    cases ht'
    exact hsub

/-- Without a tree of the boundaries, a rotation by π/8 runs through no zero state, and otherwise through
those of that tree only. -/
theorem takesZeros_of_packResource (hd : d.Sound b₁) (hk : r.kind = .pi8)
    (hanchor : anchor.kind = .patch .qubit)
    (hsome : ∀ t, qubits = some t → t.Sound ∧ t.contains anchor = true ∧
      t ∈ d.packer.trees.trees.candidates r.activeNodes.toList) {p : Packed}
    (h : packResource r r.activeNodes.toList qubits anchor d = .ok (.packed p, d')) :
    p.TakesZeros d.packer.trees := by
  have hwell := Board.wellFormed_restrictTo hd.wellFormed r.activeNodes.toList r.kind
  have hwithin := Board.restrictTo_within hd.wellFormed r.activeNodes.toList r.kind
  have hnot : ∀ n, (d.working.restrictTo r.activeNodes.toList r.kind).graph.hasNode n = true →
      n.kind ≠ .patch .zero := fun n => not_zero_of_restrictTo (by rw [hk]; decide) (by rw [hk]; decide)
  obtain ⟨sub, h, hnone, hcontract⟩ := exists_sub_of_packResource hk h
  obtain ⟨start, path, hpath, hinner, hne, hrotation, htree⟩ :=
    exists_path_of_packMagicState hd hanchor h
  cases qubits with
  | none =>
    obtain rfl := hnone rfl
    refine Packed.takesZeros_of_not_zero fun n hn => hnot n ?_
    rw [htree] at hn
    obtain ⟨⟨m, rest, rfl⟩, -⟩ := hpath.exists_inner hne
    refine hasNode_of_mem_chain hwell hpath.chain ?_
    exact (Tree.contains_or_mem_of_addPath Tree.sound_empty.wellFormed hn).resolve_left
      (by simp [Tree.not_contains_empty])
  | some t =>
    obtain ⟨ht, hcontains, hstored⟩ := hsome t rfl
    have hcontracts : Board.Contracts _ t anchor sub.graph :=
      (Board.contract_ends hwell hcontains).of_ok (hcontract t rfl)
    obtain ⟨outside, last, m, w, -, hsplice, hm, -, -, -, houtside⟩ :=
      exists_join hd.wellFormed hwithin hcontracts hpath hinner hne
    intro _ n hn hzero
    rw [htree, hsplice] at hn
    rw [hrotation, htree, hsplice]
    -- the path lies in the restricted board
    have hin : t.contains n = true := ((contains_joinPath ht hm).1 hn).resolve_right fun hmem =>
      hnot n (houtside n hmem).1 hzero
    exact ⟨t, hstored, ⟨fun a ha => (contains_joinPath ht hm).2 (Or.inl ha),
      fun a b hab => adj_joinPath_of_adj hab⟩, hin⟩

theorem Concludes.packer (h : Concludes outcome d d') : d'.packer = d.packer := by
  cases h <;> rfl

/-- Routing a rotation stores a new tree of its boundaries at most. -/
theorem extends_of_packRotation (hd : d.Sound b₁) (hturn : r.kind ≠ .turn)
    (h : packRotation r d = .ok (outcome, d')) :
    TreeCache.Extends r d.packer.trees d'.packer.trees := by
  rcases cases_of_packRotation h with h | ⟨found, d₁, hseveral, hconnect, h⟩
  · rw [h.packer]
    exact TreeCache.Extends.refl r _
  · rw [h.packer]
    exact (stored_of_connectQubits hd hturn (by rintro hnil; simp [hnil] at hseveral) hconnect).1

/-- A measurement or a rotation by π/8 is packed on a single boundary or on the tree of its boundaries,
to which a magic state is joined for π/8. -/
theorem cases_of_packed {p : Packed} (hturn : r.kind ≠ .turn) (hpi4 : r.kind ≠ .pi4)
    (h : packRotation r d = .ok (.packed p, d')) : ∃ anchor ∈ r.activeNodes,
      p = ⟨r, Tree.single anchor, none⟩ ∨
      (r.kind = .pi8 ∧ packResource r r.activeNodes.toList none anchor d = .ok (.packed p, d')) ∨
      ∃ t d₁, connectQubits r r.activeNodes.toList d = .ok (some t, d₁) ∧
        (p = ⟨r, t, none⟩ ∧ d' = d₁ ∨ r.kind = .pi8 ∧
          packResource r r.activeNodes.toList (some t) anchor d₁ = .ok (.packed p, d')) := by
  have hpi8 : r.kind ≠ .measurement → r.kind = .pi8 := by
    cases hk : r.kind <;> simp_all
  cases routing_of_packRotation h with
  | @single anchor _ _ hnodes h =>
    have hanchor : anchor ∈ r.activeNodes := by
      rw [SortedSet.mem_def, hnodes]
      exact List.mem_cons_self
    refine ⟨anchor, hanchor, ?_⟩
    cases h with
    | measured => exact Or.inl rfl
    | beside hk => exact absurd hk hpi4
    | resource hk h => exact Or.inr (Or.inl ⟨hpi8 hk, h⟩)
  | connected _ hanchor hconnect h =>
    refine ⟨_, hanchor, Or.inr (Or.inr ⟨_, _, hconnect, ?_⟩)⟩
    cases h with
    | measured => exact Or.inl ⟨rfl, rfl⟩
    | beside hk => exact absurd hk hpi4
    | resource hk h => exact Or.inr ⟨hpi8 hk, h⟩

/-- A rotation that is packed runs through zero states only if it is one by π/4 or the stored tree of its
boundaries does. -/
theorem takesZeros_of_packRotation (hd : d.Sound b₁) (hturn : r.kind ≠ .turn) {p : Packed}
    (h : packRotation r d = .ok (.packed p, d')) : p.TakesZeros d'.packer.trees := by
  obtain ⟨q, hq, hrotation, -⟩ := ((packRotation_ends hd r).of_ok h).outcome.resolve_left
    fun hnot => hnot.1 p rfl
  cases hq
  by_cases hpi4 : r.kind = .pi4
  · exact fun hnot => absurd (hrotation ▸ hpi4) hnot
  obtain ⟨anchor, hmem, h⟩ := cases_of_packed hturn hpi4 h
  have hanchor := Rotation.kind_of_mem_activeNodes hmem
  rcases h with rfl | ⟨hpi8, h⟩ | ⟨t, d₁, hconnect, h⟩
  · refine Packed.takesZeros_of_not_zero fun n hn => ?_
    rw [Tree.contains_single.1 hn, hanchor]
    decide
  · rw [(supplies_of_packResource h).concludes.packer]
    exact takesZeros_of_packResource hd hpi8 hanchor (by simp) h
  · have hne : r.activeNodes.toList ≠ [] := List.ne_nil_of_mem (SortedSet.mem_def.1 hmem)
    have hstored := (stored_of_connectQubits hd hturn hne hconnect).2 t rfl
    obtain ⟨packer, rfl, hpacker, -, hfound⟩ :=
      (connectQubits_ends hd r.activeNodes.nodup hne).of_ok hconnect
    obtain ⟨hjoins, -⟩ := hfound t rfl
    rcases h with ⟨rfl, rfl⟩ | ⟨hpi8, h⟩
    · exact fun _ n hn _ => ⟨t, hstored, Within.refl _, hn⟩
    · rw [(supplies_of_packResource h).concludes.packer]
      refine takesZeros_of_packResource (Desk.Sound.with_packer hd hpacker) hpi8 hanchor
        (fun t' ht' => ?_) h
      cases ht'
      exact ⟨hjoins.sound, hjoins.contains anchor hmem, hstored⟩

/-! ## The second round -/

/-- What is packed in the second round runs through zero states only if it is by π/4 or a stored tree of
the same boundaries does; and such trees were found for rotations by π/4. -/
theorem takesZeros_of_secondRound (hb₁ : b₁.Sound) {rs : List Rotation} (hrs : ∀ r ∈ rs, r.kind ≠ .turn)
    (h : Routes b₁ w seen routed d) {known : List Rotation} (hknown : rs ⊆ known)
    (htraced : d.packer.trees.Traced known) {packed packed' : List Packed}
    (htakes : ∀ p ∈ packed, p.TakesZeros d.packer.trees)
    (hsecond : secondRound rs packed d = .ok (packed', d')) :
    d'.packer.trees.Traced known ∧ ∀ p ∈ packed', p.TakesZeros d'.packer.trees := by
  induction rs generalizing seen routed packed d with
  | nil =>
    cases hsecond
    exact ⟨htraced, htakes⟩
  | cons r rs ih =>
    obtain ⟨hr, hrs⟩ := List.forall_mem_cons.1 hrs
    obtain ⟨hrKnown, hknown⟩ := List.cons_subset.1 hknown
    rcases cases_of_secondRound hsecond with ⟨-, hrest⟩ | ⟨-, outcome, d₁, fails, hrotation, -, hrest⟩
    · exact ih hrs h hknown htraced htakes hrest
    · have hextends := extends_of_packRotation h.desk hr hrotation
      have hroutes := h.enter hb₁ ((packRotation_ends h.desk r).of_ok hrotation) fails
      have htrees := (same_enter outcome fails d₁).trees
      refine ih hrs hroutes hknown ?_ (fun p hp => ?_) hrest
      · rw [htrees]
        exact htraced.extends hextends hrKnown
      · rw [htrees]
        rcases List.mem_append.1 hp with hp | hp
        · exact (htakes p hp).extends hextends
        · obtain rfl := Outcome.mem_packings.1 hp
          exact takesZeros_of_packRotation h.desk hr hrotation

/-! ## A tick -/

/-- A packer to which the rotations `seen` were given, tick by tick, on boards of a layout. -/
inductive History (l : Layout) : List Rotation → Packer → Prop
  /-- A packer that has not packed anything. -/
  | new (turnTicks : Nat) (store reset : StoragePhase) :
    History l [] (Packer.new turnTicks store reset)
  /-- One more tick is packed. -/
  | pack {σ : Type} [WordSource σ] {seen : List Rotation} {p : Packer} {b : Board}
    {rotations : List Rotation} {f : Factories} {rng : σ} {r : Result σ} (h : History l seen p)
    (hb : Board.Stage l b) (hr : p.pack rotations b f rng = .ok r) :
    History l (seen ++ rotations) r.packer

variable {l : Layout} {p : Packer}

theorem History.used (h : History l seen p) : Used l p := by
  induction h with
  | new turnTicks store reset => exact .new turnTicks store reset
  | pack _ hb hr ih => exact .pack ih hb hr

section Tick

variable {σ : Type} [WordSource σ] {rotations : List Rotation} {f : Factories} {rng : σ}
  {result : Result σ}

/-- In a tick, zero states are taken from stored trees, and these were found for rotations by π/4. -/
theorem takesZeros_of_pack (hp : p.Sound) (hb : b.Sound) (htraced : p.trees.Traced seen)
    (h : p.pack rotations b f rng = .ok result) :
    result.packer.trees.Traced (seen ++ rotations) ∧
      ∀ q ∈ result.packed, q.TakesZeros result.packer.trees := by
  obtain ⟨b₀, first, d₀, d, -, -, hfirst, hsound, hstart, htrees, hsecond, hpacker⟩ :=
    exists_secondRound hp hb h
  have hremaining : first.remaining ⊆ seen ++ rotations := fun r hr =>
    List.mem_append_right _ (hsound.order.subset (List.mem_append_right _ hr))
  rw [hpacker]
  refine takesZeros_of_secondRound hsound.occupies.sound (fun r hr => ?_) hstart hremaining
    (htrees ▸ htraced.mono (List.subset_append_left _ _)) (fun q hq => ?_) hsecond
  · exact kind_of_triage_route (triage_of_mem_remaining hfirst (by simp) r hr)
  · -- the first round packs single boundaries and turns
    refine Packed.takesZeros_of_not_zero fun n hn => ?_
    rcases hsound.nodes q hq n hn with ⟨hk, -⟩ | ⟨-, hk⟩ <;> rw [hk] <;> decide

/-- The stored trees that run through zero states were found for rotations by π/4. -/
theorem History.traced (h : History l seen p) : p.trees.Traced seen := by
  induction h with
  | new turnTicks store reset => exact TreeCache.traced_empty
  | pack h hb hr ih => exact (takesZeros_of_pack h.used.sound hb.sound ih hr).1

end Tick

end Packer

/-! ## What a kind of rotation may use -/

namespace Packed

variable {b : Board} {p : Packed} {n : Node} {seen : List Rotation} {c : TreeCache}

/-- Besides bus tiles and the boundaries of its rotation, the tree contains what the kind of rotation may
use: one magic state or storage for π/8, zero states for π/4, and nothing for a measurement. -/
def Permitted (p : Packed) : Prop :=
  match p.rotation.kind with
  | .measurement => ∀ n, p.tree.contains n = true → n.kind = .bus ∨ n ∈ p.rotation.activeNodes
  | .pi8 => ∃ s, (s.kind = .patch .magic ∨ s.kind = .patch .storage) ∧ p.tree.contains s = true ∧
      ∀ n, p.tree.contains n = true → n.kind = .bus ∨ n ∈ p.rotation.activeNodes ∨ n = s
  | .pi4 => ∀ n, p.tree.contains n = true →
      n.kind = .bus ∨ n ∈ p.rotation.activeNodes ∨ n.kind = .patch .zero
  | .turn => True

/-- What the tree of a packed rotation runs through. The rotations `seen` were given to the packer, whose
stored trees are those of `c`. -/
structure Uses (seen : List Rotation) (c : TreeCache) (p : Packed) : Prop where
  /-- Of the boundaries of data patches, the tree contains those of the rotation. -/
  spans : p.Spans
  /-- For π/8, it contains one magic state or storage. -/
  magic : p.rotation.kind = .pi8 →
    ∃! n, p.tree.contains n = true ∧ (n.kind = .patch .magic ∨ n.kind = .patch .storage)
  /-- Otherwise it contains none. -/
  noMagic : p.rotation.kind ≠ .pi8 →
    ∀ n, p.tree.contains n = true → n.kind ≠ .patch .magic ∧ n.kind ≠ .patch .storage
  /-- The rotation may use what the tree contains exactly if it is one by π/4, or no stored tree of the
  same boundaries that became part of the tree runs through a zero state. -/
  permitted_iff : p.Permitted ↔ p.rotation.kind = .pi4 ∨
    ∀ t ∈ c.trees.candidates p.rotation.activeNodes.toList, t.shape.Within p.tree.shape →
      ∀ n, t.contains n = true → n.kind ≠ .patch .zero
  /-- This is so unless a rotation by π/4 with the same boundaries was given. -/
  permitted_of_history : (∀ s ∈ seen, s.kind = .pi4 → s.activeNodes ≠ p.rotation.activeNodes) →
    p.Permitted

/-- Magic states and storages are on a tree only to be joined. -/
theorem Fresh.mem_ends (hb : b.Sound) (hported : b.graph.Ported) (h : p.Fresh b) (hs : p.Shaped)
    (hn : p.tree.contains n = true) (hk : n.kind = .patch .magic ∨ n.kind = .patch .storage) :
    n ∈ p.ends :=
  hs.ends n hn (h.degree_le_one hb hported hk)

/-- The nodes of a tree are bus tiles, nodes that it joins and zero states. -/
theorem Fresh.node_cases (hb : b.Sound) (hported : b.graph.Ported) (h : p.Fresh b) (hs : p.Shaped)
    (hk : p.rotation.kind ≠ .turn) (hn : p.tree.contains n = true) :
    n.kind = .bus ∨ n ∈ p.ends ∨ n.kind = .patch .zero := by
  rcases n with i | ⟨kind, i, basis⟩
  · exact Or.inl rfl
  · refine Or.inr ?_
    cases kind with
    | qubit => exact Or.inl (List.mem_append_left _ ((h.serves.spans hk _ rfl).1 hn))
    | magic => exact Or.inl (h.mem_ends hb hported hs hn (Or.inl rfl))
    | zero => exact Or.inr rfl
    | storage => exact Or.inl (h.mem_ends hb hported hs hn (Or.inr rfl))

/-- A rotation by π/8 has one magic state or storage on its tree. -/
theorem Fresh.existsUnique_magic (hb : b.Sound) (hported : b.graph.Ported) (h : p.Fresh b)
    (hs : p.Shaped) (hk : p.rotation.kind = .pi8) :
    ∃! n, p.tree.contains n = true ∧ (n.kind = .patch .magic ∨ n.kind = .patch .storage) := by
  obtain ⟨m, hm, hresource, hcontains⟩ := h.serves.of_pi8 hk
  refine ⟨m, ⟨hcontains, hm⟩, fun n ⟨hn, hmagic⟩ => ?_⟩
  have hends := h.mem_ends hb hported hs hn hmagic
  unfold ends at hends
  rw [hresource, Option.map_some, Resource.nodes_magicResource] at hends
  rcases List.mem_append.1 hends with hactive | hmem
  · rw [Rotation.kind_of_mem_activeNodes hactive] at hmagic
    rcases hmagic with hk | hk <;> cases hk
  · exact List.mem_singleton.1 hmem

/-- Other rotations have none. -/
theorem Fresh.not_magic (hb : b.Sound) (hported : b.graph.Ported) (h : p.Fresh b) (hs : p.Shaped)
    (hturn : p.rotation.kind ≠ .turn) (hpi8 : p.rotation.kind ≠ .pi8) (hn : p.tree.contains n = true) :
    n.kind ≠ .patch .magic ∧ n.kind ≠ .patch .storage := by
  rw [← not_or]
  intro hmagic
  have hmem := h.mem_ends hb hported hs hn hmagic
  have hactive : n ∈ p.rotation.activeNodes.toList → False := fun hactive => by
    rw [Rotation.kind_of_mem_activeNodes hactive] at hmagic
    rcases hmagic with hk | hk <;> cases hk
  rcases h.serves.endsByKind hturn with ⟨-, hends⟩ | ⟨hk, -⟩ | ⟨-, id, hends⟩
  · exact hactive (hends ▸ hmem)
  · exact hpi8 hk
  · rcases List.mem_append.1 (hends ▸ hmem) with hmem | hresource
    · exact hactive hmem
    · rcases List.mem_pair.1 hresource with rfl | rfl <;> rcases hmagic with hk | hk <;> cases hk

/-- A rotation may use a tree that runs through no zero state, or through some if it is by π/4. -/
theorem Fresh.permitted (hb : b.Sound) (hported : b.graph.Ported) (h : p.Fresh b) (hs : p.Shaped)
    (hk : p.rotation.kind ≠ .turn)
    (hzero : p.rotation.kind ≠ .pi4 → ∀ n, p.tree.contains n = true → n.kind ≠ .patch .zero) :
    p.Permitted := by
  have hcases := fun n hn => h.node_cases (n := n) hb hported hs hk hn
  unfold Permitted
  rcases h.serves.endsByKind hk with ⟨hkind, hends⟩ | ⟨hkind, m, hm, hends⟩ | ⟨hkind, id, hends⟩
  all_goals
    rw [hends] at hcases
    rw [hkind] at hzero ⊢
    dsimp only
  · intro n hn
    rcases hcases n hn with hbus | hmem | hk
    · exact Or.inl hbus
    · exact Or.inr hmem
    · exact absurd hk (hzero (by decide) n hn)
  · refine ⟨m, hm, hs.contains m (by rw [hends]; simp), fun n hn => ?_⟩
    rcases hcases n hn with hbus | hmem | hk
    · exact Or.inl hbus
    · exact Or.inr ((List.mem_append.1 hmem).imp id List.mem_singleton.1)
    · exact absurd hk (hzero (by decide) n hn)
  · intro n hn
    refine (hcases n hn).imp_right (Or.rec (fun hmem => ?_) Or.inr)
    rcases List.mem_append.1 hmem with hactive | hresource
    · exact Or.inl hactive
    · rcases List.mem_pair.1 hresource with rfl | rfl <;> exact Or.inr rfl

/-- Only rotations by π/4 may use zero states. -/
theorem Permitted.not_zero (h : p.Permitted) (hk : p.rotation.kind ≠ .turn)
    (hpi4 : p.rotation.kind ≠ .pi4) (hn : p.tree.contains n = true) : n.kind ≠ .patch .zero := by
  have hactive : n ∈ p.rotation.activeNodes → n.kind ≠ .patch .zero := fun hmem => by
    rw [Rotation.kind_of_mem_activeNodes hmem]
    decide
  unfold Permitted at h
  cases hkind : p.rotation.kind with
  | measurement =>
    rw [hkind] at h
    rcases h n hn with hbus | hmem
    · rw [hbus]
      decide
    · exact hactive hmem
  | pi8 =>
    rw [hkind] at h
    obtain ⟨s, hs, -, h⟩ := h
    rcases h n hn with hbus | hmem | rfl
    · rw [hbus]
      decide
    · exact hactive hmem
    · rcases hs with hs | hs <;> rw [hs] <;> decide
  | pi4 => exact absurd hkind hpi4
  | turn => exact absurd hkind hk

end Packed

namespace Packer

/-- A rotation that is packed runs through what its kind may use, except that a measurement or a rotation
by π/8 runs through the zero states of a stored tree if one was found for a rotation by π/4 with the same
boundaries. -/
theorem uses_of_pack {σ : Type} [WordSource σ] {l : Layout} {seen : List Rotation} {p : Packer}
    (hp : History l seen p) {b : Board} (hb : Board.Stage l b) {rotations : List Rotation}
    {f : Factories} {rng : σ} {r : Result σ} (hr : p.pack rotations b f rng = .ok r) :
    ∀ q ∈ r.packed, q.rotation.kind ≠ .turn → q.Uses (seen ++ rotations) r.packer.trees := by
  intro q hq hk
  obtain ⟨hfresh, hshaped⟩ := shaped_of_pack hp.used hb hr q hq
  obtain ⟨htraced, htakes⟩ := takesZeros_of_pack hp.used.sound hb.sound hp.traced hr
  have hpermitted := hfresh.permitted hb.sound hb.ported (hshaped hk) hk
  refine ⟨hfresh.serves.spans hk, hfresh.existsUnique_magic hb.sound hb.ported (hshaped hk),
    fun hpi8 n => hfresh.not_magic hb.sound hb.ported (hshaped hk) hk hpi8,
    ⟨fun h => ?_, fun h => hpermitted fun hpi4 n hn hzero => ?_⟩,
    fun hhistory => hpermitted fun hpi4 n hn hzero => ?_⟩
  · by_cases hpi4 : q.rotation.kind = .pi4
    · exact Or.inl hpi4
    · exact Or.inr fun t ht hwithin n hn => h.not_zero hk hpi4 (hwithin.node n hn)
  · obtain ⟨t, ht, hwithin, hcontains⟩ := htakes q hq hpi4 n hn hzero
    exact h.resolve_left hpi4 t ht hwithin n hcontains hzero
  · obtain ⟨t, ht, -, hcontains⟩ := htakes q hq hpi4 n hn hzero
    obtain ⟨s, hs, hkind, hnodes⟩ := htraced _ t ht n hcontains hzero
    exact hhistory s hs hkind (SortedSet.ext_mem fun m => by rw [SortedSet.mem_def, hnodes]; rfl)

/-- The board of `ferryLayout` with a magic state beside the first bus tile. -/
def depotLayout : Layout := { ferryLayout with magic := SortedSet.ofList [⟨0, -1⟩] }

/-- A magic state for a rotation on the first data patch is beside it. -/
theorem depotLayout_uses : ∃ b r, Board.ofLayout depotLayout = .ok b ∧
    (Packer.new 3 .never .never).pack [⟨0, .pi8, .plus, SortedSet.ofList [0], ∅, ∅⟩] b benchFactories
      (⟨[], 0⟩ : CyclicWords) = .ok r ∧
    ∃ q ∈ r.packed, q.rotation.kind = .pi8 ∧ q.Permitted := by
  obtain ⟨b, r, hb, hr, q, hq, hk⟩ : ∃ b r, Board.ofLayout depotLayout = .ok b ∧
      (Packer.new 3 .never .never).pack [⟨0, .pi8, .plus, SortedSet.ofList [0], ∅, ∅⟩] b benchFactories
        (⟨[], 0⟩ : CyclicWords) = .ok r ∧ ∃ q ∈ r.packed, q.rotation.kind = .pi8 :=
    exists_pack_of_any (by decide +kernel)
  have huses : q.Uses _ r.packer.trees :=
    uses_of_pack (.new 3 .never .never) (.ofLayout hb) hr q hq (by rw [hk]; decide)
  exact ⟨b, r, hb, hr, q, hq, hk, huses.permitted_of_history (by simp)⟩

/-- A measurement and a rotation by π/8 are packed on a tree through a zero state that was found for a
rotation by π/4. -/
theorem exists_not_permitted : ∃ l seen p b f, History l seen p ∧ Board.Stage l b ∧
    ∀ kind ∈ [RotationKind.measurement, .pi8], ∃ r : Packer.Result CyclicWords,
      p.pack [ferryRotation 1 kind] b f ⟨[], 0⟩ = .ok r ∧
      ∃ q ∈ r.packed, q.rotation.kind = kind ∧ ¬ q.Permitted := by
  have hrun : (Board.ofLayout depotLayout).toOption.any (fun b =>
      ((Packer.new 3 .never .never).pack [ferryRotation 0 .pi4] b benchFactories
        (⟨[], 0⟩ : CyclicWords)).toOption.any fun first =>
      [RotationKind.measurement, .pi8].all fun kind =>
        (first.packer.pack [ferryRotation 1 kind] b benchFactories
          (⟨[], 0⟩ : CyclicWords)).toOption.any fun r =>
          r.packed.any fun q => decide (q.rotation.kind = kind) && q.tree.contains (.zero 0 .X)) =
      true := by
    decide +kernel
  obtain ⟨b, hb, hrun⟩ := exists_of_any_toOption hrun
  obtain ⟨first, hfirst, hrun⟩ := exists_of_any_toOption hrun
  refine ⟨depotLayout, _, first.packer, b, benchFactories,
    .pack (.new 3 .never .never) (.ofLayout hb) hfirst, .ofLayout hb, fun kind hkind => ?_⟩
  obtain ⟨r, hr, hrun⟩ := exists_of_any_toOption (List.all_eq_true.1 hrun kind hkind)
  obtain ⟨q, hq, hrun⟩ := List.any_eq_true.1 hrun
  obtain ⟨hk, hzero⟩ := (Bool.and_eq_true _ _).mp hrun
  have hk : q.rotation.kind = kind := of_decide_eq_true hk
  refine ⟨r, hr, q, hq, hk, fun hpermitted => ?_⟩
  refine hpermitted.not_zero ?_ ?_ hzero rfl <;> rw [hk] <;> rintro rfl <;> simp at hkind

end Packer

end LatticeSurgery
