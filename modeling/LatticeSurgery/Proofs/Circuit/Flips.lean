import LatticeSurgery.Circuit.Statistics
import LatticeSurgery.Proofs.Circuit.FewestTurns

/-!
# Flips and turns

The statistics of a circuit count for each qubit how often the boundary changes that the circuit needs,
before anything is done to the circuit. They foretell the turns: if every Y is expressed with X and all
patches show X at the start, each qubit is turned as often as its flips say (`flips_eq_countTurns`). Both
numbers are the changes along the list of boundaries that the rotations show of the qubit, in which a Y
is spelled Z, X, Z.
-/

namespace LatticeSurgery

open Ordered

namespace Basis

/-- How often the boundary changes, when those of a list are shown one after the other. -/
def changes : Basis → List Basis → Nat
  | _, [] => 0
  | a, b :: bs => (if a = b then 0 else 1) + changes b bs

variable (a : Basis) (bs bs' : List Basis)

theorem changes_append :
    a.changes (bs ++ bs') = a.changes bs + (bs.getLastD a).changes bs' := by
  induction bs generalizing a with
  | nil => exact (Nat.zero_add _).symm
  | cons b bs ih => rw [List.cons_append, changes, changes, ih, List.getLastD_cons, Nat.add_assoc]

theorem getLastD_append : (bs ++ bs').getLastD a = bs'.getLastD (bs.getLastD a) := by
  induction bs generalizing a with
  | nil => rfl
  | cons b bs ih => rw [List.cons_append, List.getLastD_cons, ih, List.getLastD_cons]

end Basis

namespace Rotation

/-- The boundaries of a patch that a rotation uses. -/
def uses (q : Nat) (r : Rotation) : List Basis :=
  (if q ∈ r.x ∪ r.y then [.X] else []) ++ if q ∈ r.z ∪ r.y then [.Z] else []

/-- The boundaries of a patch that a rotation shows, if Y is expressed with X. -/
def spelled (q : Nat) (r : Rotation) : List Basis :=
  (if q ∈ r.x then [.X] else []) ++ (if q ∈ r.z then [.Z] else []) ++
    if q ∈ r.y then [.Z, .X, .Z] else []

theorem mem_activeNodes_iff {r : Rotation} {q : Nat} {basis : Basis} :
    .qubit q basis ∈ r.activeNodes ↔ basis ∈ r.uses q := by
  unfold uses
  cases basis <;> by_cases hx : q ∈ r.x ∪ r.y <;> by_cases hz : q ∈ r.z ∪ r.y <;>
    simp_all [activeNodes]

/-- A patch that is used through one boundary at a time is used through this one or not at all. -/
theorem uses_eq {r : Rotation} {q : Nat} {basis : Basis}
    (hone : ¬ (.qubit q .X ∈ r.activeNodes ∧ .qubit q .Z ∈ r.activeNodes))
    (h : .qubit q basis ∈ r.activeNodes) : r.uses q = [basis] := by
  rw [mem_activeNodes_iff, mem_activeNodes_iff] at hone
  rw [mem_activeNodes_iff] at h
  unfold uses at hone h ⊢
  cases basis <;> split <;> split <;> simp_all

end Rotation

/-! ## Turns -/

namespace Circuit

variable {c : Circuit} {rs : List Rotation} {m : SortedMap Nat Facing} {q : Nat} {a : Basis}
  {x y z : SortedSet Nat} {split : SortedSet Nat} {r : Rotation}

/-- Before a rotation, a patch with one boundary at the bus is turned if another one is needed. -/
theorem turnsFor_changes (hone : OneWay r.activeNodes.toList m.get?)
    (hq : m.get? q = some (.only a)) :
    (turnsFor r.activeNodes.toList m).2.get? q = some (.only ((r.uses q).getLastD a)) ∧
      countTurns q (turnsFor r.activeNodes.toList m).1 = a.changes (r.uses q) := by
  have hspec := turnsFor_spec hone
  obtain ⟨b, hafter⟩ := hspec.exists_only hq
  have hapart : ∀ b, apart (some (.only a)) (some (.only b)) = if a = b then 0 else 1 := by
    intro b
    cases a <;> cases b <;> rfl
  rw [countTurns_turnsFor hone, hafter, hq, hapart]
  by_cases hnode : ∃ basis, .qubit q basis ∈ r.activeNodes
  · obtain ⟨basis, hnode⟩ := hnode
    have hboth : ¬ (.qubit q .X ∈ r.activeNodes ∧ .qubit q .Z ∈ r.activeNodes) := by
      rintro ⟨hx, hz⟩
      exact Facing.only_ne_both a (hone q .X _ hx hz hq)
    obtain rfl := Facing.shows_only_iff.1 (hspec.shown q basis _ hnode hafter)
    rw [Rotation.uses_eq hboth hnode]
    exact ⟨rfl, rfl⟩
  · have hkept : b = a := by
      rcases hspec.moved q with hkept | ⟨basis, hnode', -⟩
      · have := hafter.symm.trans (hkept.trans hq)
        cases a <;> cases b <;> cases this <;> rfl
      · exact absurd ⟨basis, hnode'⟩ hnode
    have huses : r.uses q = [] :=
      List.eq_nil_iff_forall_not_mem.2 fun basis hmem =>
        hnode ⟨basis, Rotation.mem_activeNodes_iff.2 hmem⟩
    rw [huses, hkept]
    exact ⟨rfl, if_pos rfl⟩

/-- A patch with one boundary at the bus is turned as often as the boundary changes that is used. -/
theorem countTurns_turnBefore (hkind : ∀ r ∈ rs, r.kind ≠ .turn)
    (hone : ∀ r ∈ rs, OneWay r.activeNodes.toList m.get?) (hq : m.get? q = some (.only a)) :
    countTurns q (turnBefore rs m) = a.changes (rs.flatMap (Rotation.uses q)) := by
  induction rs generalizing m a with
  | nil => rfl
  | cons r rs ih =>
    obtain ⟨hlast, hcount⟩ := turnsFor_changes (hone r List.mem_cons_self) hq
    have hspec := turnsFor_spec (hone r List.mem_cons_self)
    have hrest := ih (fun r' hr' => hkind r' (List.mem_cons_of_mem _ hr'))
      (fun r' hr' => hspec.oneWay (hone r' (List.mem_cons_of_mem _ hr'))) hlast
    show countTurns q ((turnsFor r.activeNodes.toList m).1 ++ r :: turnBefore rs _) = _
    rw [countTurns_append, countTurns_cons_of_kind_ne (hkind r List.mem_cons_self), hcount, hrest,
      List.flatMap_cons, Basis.changes_append]

/-! ## Y expressed with X -/

theorem uses_zTurn (s : Sign) (g : SortedSet Nat) (q : Nat) :
    (zTurn s g).uses q = if q ∈ g then [.Z] else [] := by
  simp [Rotation.uses, zTurn, Rotation.unnumbered]

/-- Each qubit of Y is in one group. -/
theorem flatMap_oddGroups (q : Nat) (y : SortedSet Nat) :
    (oddGroups y).flatMap (fun g => if q ∈ g then [Basis.Z] else []) =
      if q ∈ y then [.Z] else [] := by
  unfold oddGroups
  split
  · split
    · next hy =>
      have hq : q ∉ y := fun hq => List.not_mem_nil (hy ▸ SortedSet.mem_toList.2 hq)
      simp [hq]
    · next p ps hy =>
      have hp : p ∈ y := SortedSet.mem_toList.1 (hy ▸ List.mem_cons_self)
      by_cases hq : q = p
      · subst hq
        simp [hp]
      · simp [hq, Ne.symm hq]
  · simp

/-- The rotations that stand for a proper one show a patch of `split` as the rotation is spelled. -/
theorem flatMap_uses_eliminateY (hr : r.Proper) (hq : q ∈ split) :
    (eliminateY split r).flatMap (Rotation.uses q) = r.spelled q := by
  have hchange : q ∈ r.y.filter split.contains ↔ q ∈ r.y := by simp [hq]
  have hkeep : q ∉ r.y.filter fun q => !split.contains q := by simp [hq]
  have hxy := hr.xy q
  have hyz := hr.yz q
  unfold eliminateY
  dsimp only
  set change := r.y.filter split.contains
  set keep := r.y.filter fun q => !split.contains q
  split
  · next hempty =>
    have hy : q ∉ r.y := fun h => SortedSet.isEmpty_iff.1 hempty q (hchange.2 h)
    simp [Rotation.uses, Rotation.spelled, Rotation.unnumbered, hkeep, hy]
  · have hturns : ∀ s, ((oddGroups change).map (zTurn s)).flatMap (Rotation.uses q) =
        if q ∈ r.y then [.Z] else [] := by
      intro s
      rw [List.flatMap_map]
      simp only [uses_zTurn, flatMap_oddGroups, hchange]
    rw [conjugateY, List.flatMap_append, List.flatMap_append, hturns, hturns, List.flatMap_singleton]
    by_cases hy : q ∈ r.y
    · have hx : q ∉ r.x := fun hx => hxy hx hy
      simp [Rotation.uses, Rotation.spelled, Rotation.unnumbered, hchange, hkeep, hy, hx, hyz hy]
    · simp [Rotation.uses, Rotation.spelled, Rotation.unnumbered, hchange, hkeep, hy]

/-- The facings with which all patches of a set show X. -/
def facingX (qubits : SortedSet Nat) : SortedMap Nat Facing :=
  SortedMap.ofList (qubits.toList.map fun q => (q, .x))

theorem get?_facingX {qubits : SortedSet Nat} {f : Facing} :
    (facingX qubits).get? q = some f ↔ q ∈ qubits ∧ f = .x := by
  have hkeys : (qubits.toList.map fun q => (q, Facing.x)).map Prod.fst = qubits.toList := by
    rw [List.map_map]
    exact List.map_id _
  rw [facingX, SortedMap.get?_ofList_iff (by rw [hkeys]; exact qubits.nodup)]
  simp [eq_comm, SortedSet.mem_toList]

/-- The turns of a qubit, where every Y is expressed with X and all patches show X at the start. -/
theorem countTurns_facingX (hc : ∀ r ∈ c.rotations, r.Proper) {qubits : SortedSet Nat}
    (hq : q ∈ qubits) :
    countTurns q ((c.withoutY qubits).withTurns (facingX qubits)).rotations =
      Basis.X.changes (c.rotations.flatMap (Rotation.spelled q)) := by
  have hone : ∀ r ∈ (c.withoutY qubits).rotations,
      OneWay r.activeNodes.toList (facingX qubits).get? := by
    intro r hr p basis f hnode hother hf
    have hsplit := (split_withoutY hc hr).1
    have hp := (get?_facingX.1 hf).1
    have hy : p ∉ r.y := hsplit.noY ▸ SortedSet.not_mem_empty p
    have hnot := hsplit.apart p hp
    cases basis <;>
      simp [Basis.flipped, SortedSet.mem_toList, Rotation.activeNodes, hy] at hnode hother <;> tauto
  show countTurns q (renumber (turnBefore (c.withoutY qubits).rotations _)) = _
  rw [countTurns_renumber, countTurns_turnBefore (a := .X)
    (fun r hr => (split_withoutY hc hr).1.kind) hone (get?_facingX.2 ⟨hq, rfl⟩)]
  congr 1
  calc (c.withoutY qubits).rotations.flatMap (Rotation.uses q)
      = c.rotations.flatMap fun r => (eliminateY qubits r).flatMap (Rotation.uses q) := by
        rw [← List.flatMap_assoc]
        exact flatMap_renumber (fun _ => rfl) _
    _ = c.rotations.flatMap (Rotation.spelled q) :=
        List.flatMap_congr fun r hr => flatMap_uses_eliminateY (hc r hr) hq

end Circuit

/-! ## Flips -/

namespace CircuitStats

namespace Count

variable {c : Count} {r : Rotation} {p q : Nat} {bs : List Basis} {f : Count → Nat → Count}

/-- The flips of a qubit so far. -/
def flips (c : Count) (q : Nat) : Nat := ((c.qubits.get? q).getD {}).flips

/-- The boundary that a qubit showed last. -/
def face (c : Count) (q : Nat) : Basis := c.shown.getD q .X

/-- The qubit has statistics. -/
def Knows (c : Count) (q : Nat) : Prop := (c.qubits.get? q).isSome = true

theorem get?_update (c : Count) (p q : Nat) (f : QubitStats → QubitStats) :
    (c.update p f).qubits.get? q =
      if q = p then some (f ((c.qubits.get? p).getD {})) else c.qubits.get? q := by
  by_cases hq : q = p
  · subst hq
    rw [if_pos rfl]
    exact SortedMap.get?_insert_self _ _ _
  · rw [if_neg hq]
    exact SortedMap.get?_insert_ne _ hq _

/-- What becomes of a qubit when some boundaries of it are shown one after the other. -/
structure Shows (c c' : Count) (q : Nat) (bs : List Basis) : Prop where
  flips : c'.flips q = c.flips q + (c.face q).changes bs
  face : c'.face q = bs.getLastD (c.face q)
  knows : bs ≠ [] ∨ c.Knows q → c'.Knows q

theorem Shows.refl (c : Count) (q : Nat) : c.Shows c q [] :=
  ⟨rfl, rfl, fun h => h.resolve_left fun hne => hne rfl⟩

theorem Shows.trans {c' c'' : Count} {bs' : List Basis} (h : c.Shows c' q bs)
    (h' : c'.Shows c'' q bs') : c.Shows c'' q (bs ++ bs') where
  flips := by rw [h'.flips, h.flips, h.face, Basis.changes_append, Nat.add_assoc]
  face := by rw [h'.face, h.face, Basis.getLastD_append]
  knows := by
    intro hbefore
    refine h'.knows ?_
    by_cases hbs' : bs' = []
    · subst hbs'
      rw [List.append_nil] at hbefore
      exact Or.inr (h.knows hbefore)
    · exact Or.inl hbs'

/-- Counting a qubit shows some boundaries of it. -/
def Counts (f : Count → Nat → Count) (bs : List Basis) : Prop :=
  ∀ (c : Count) (p q : Nat), c.Shows (f c p) q (if q = p then bs else [])

/-- Changing the statistics and the boundary of a qubit. -/
theorem shows_update {c' : Count} {change : QubitStats → QubitStats} {b : Basis}
    (hc' : c' = { c.update p change with shown := c.shown.insert p b })
    (hflips : ∀ s, (change s).flips = s.flips + (c.face p).changes bs)
    (hface : bs.getLastD (c.face p) = b) (q : Nat) : c.Shows c' q (if q = p then bs else []) := by
  subst hc'
  by_cases hq : q = p
  · subst hq
    rw [if_pos rfl]
    refine ⟨?_, ?_, ?_⟩
    · show (((c.update q change).qubits.get? q).getD {}).flips = _
      rw [get?_update, if_pos rfl]
      exact hflips _
    · show (c.shown.insert q b).getD q .X = _
      rw [SortedMap.getD_insert, if_pos (same_self q), hface]
    · intro
      show ((c.update q change).qubits.get? q).isSome = true
      rw [get?_update, if_pos rfl]
      rfl
  · rw [if_neg hq]
    refine ⟨?_, ?_, ?_⟩
    · show (((c.update p change).qubits.get? q).getD {}).flips = _
      rw [get?_update, if_neg hq]
      rfl
    · show (c.shown.insert p b).getD q .X = _
      rw [SortedMap.getD_insert, if_neg (by rw [same_iff]; exact hq)]
      rfl
    · intro h
      show ((c.update p change).qubits.get? q).isSome = true
      rw [get?_update, if_neg hq]
      exact h.resolve_left fun hne => hne rfl

theorem counts_addX : Counts addX [.X] := fun c p =>
  shows_update rfl (fun _ => by unfold face; cases c.shown.getD p .X <;> rfl) rfl

theorem counts_addZ : Counts addZ [.Z] := fun c p =>
  shows_update rfl (fun _ => by unfold face; cases c.shown.getD p .X <;> rfl) rfl

/-- A Y flips three times if X is shown before, and twice if Z is. -/
theorem counts_addY : Counts addY [.Z, .X, .Z] := fun c p =>
  shows_update rfl (fun _ => by unfold face; cases c.shown.getD p .X <;> rfl) rfl

/-- Counting the qubits of a set. -/
theorem Counts.foldl (hf : Counts f bs) (s : SortedSet Nat) (c : Count) (q : Nat) :
    c.Shows (s.toList.foldl f c) q (if q ∈ s then bs else []) := by
  have hlist : ∀ (ps : List Nat) (c : Count), ps.Nodup →
      c.Shows (ps.foldl f c) q (if q ∈ ps then bs else []) := by
    intro ps
    induction ps with
    | nil => exact fun c _ => Shows.refl c q
    | cons p ps ih =>
      intro c hps
      obtain ⟨hp, hps⟩ := List.nodup_cons.1 hps
      have h := (hf c p q).trans (ih (f c p) hps)
      by_cases hq : q = p
      · subst hq
        rw [if_pos List.mem_cons_self]
        rwa [if_pos rfl, if_neg hp, List.append_nil] at h
      · simpa [hq] using h
  have h := hlist s.toList c s.nodup
  simp only [SortedSet.mem_toList] at h
  exact h

theorem shows_addAffinity (c : Count) (a b q : Nat) : c.Shows (c.addAffinity a b) q [] := by
  unfold addAffinity
  refine ⟨?_, rfl, fun h => ?_⟩
  · rw [flips, get?_update]
    split
    · next hq =>
      subst hq
      rfl
    · rfl
  · rw [Knows, get?_update]
    split
    · rfl
    · exact h.resolve_left fun hne => hne rfl

/-- Counting the pairs of a rotation shows nothing. -/
theorem shows_addPairs (c : Count) (qs : List Nat) (q : Nat) : c.Shows (c.addPairs qs) q [] := by
  induction qs generalizing c with
  | nil => exact Shows.refl c q
  | cons a rest ih =>
    have hfirst : c.Shows (c.addPairsWith a rest) q [] :=
      List.foldlRecOn (motive := fun c' => c.Shows c' q []) rest _ (Shows.refl c q) fun c' h b _ =>
        (h.trans (shows_addAffinity c' a b q)).trans (shows_addAffinity _ b a q)
    exact hfirst.trans (ih _)

/-- Counting a rotation shows the boundaries that it spells. -/
theorem shows_addRotation (c : Count) (r : Rotation) (q : Nat) :
    c.Shows (c.addRotation r) q (r.spelled q) := by
  have hx := counts_addX.foldl r.x c q
  have hz := hx.trans (counts_addZ.foldl r.z _ q)
  have hy := hz.trans (counts_addY.foldl r.y _ q)
  have h := hy.trans (shows_addPairs _ r.activeQubits.toList q)
  rwa [List.append_nil] at h

theorem shows_foldl_addRotation (rs : List Rotation) (c : Count) (q : Nat) :
    c.Shows (rs.foldl addRotation c) q (rs.flatMap (Rotation.spelled q)) := by
  induction rs generalizing c with
  | nil => exact Shows.refl c q
  | cons r rs ih => exact (shows_addRotation c r q).trans (ih _)

theorem get?_start {n q : Nat} {s : QubitStats} :
    (start n).qubits.get? q = some s ↔ q < n ∧ s = { id := q, assignment := q } := by
  have hkeys : ((List.range n).map fun q => (q, ({ id := q, assignment := q } : QubitStats))).map
      Prod.fst = List.range n := by
    rw [List.map_map]
    exact List.map_id _
  rw [start, SortedMap.get?_ofList_iff (by rw [hkeys]; exact List.nodup_range)]
  simp [eq_comm]

theorem flips_start (n q : Nat) : (start n).flips q = 0 := by
  unfold flips
  cases hs : (start n).qubits.get? q with
  | none => rfl
  | some s =>
    obtain ⟨-, rfl⟩ := get?_start.1 hs
    rfl

end Count

/-- The flips of a qubit are the turns of its patch, if every Y is expressed with X and all patches
show X at the start. The set `qubits` lists the patches, all of them or some that contain the qubit. -/
theorem flips_eq_countTurns {c : Circuit} (hc : ∀ r ∈ c.rotations, r.Proper)
    {qubits : SortedSet Nat} {q : Nat} (hq : q ∈ qubits)
    (hknown : q < c.numQubits ∨ ∃ r ∈ c.rotations, q ∈ r.activeQubits) :
    ∃ s, (ofCircuit c).qubits.get? q = some s ∧
      s.flips = Circuit.countTurns q
        ((c.withoutY qubits).withTurns (Circuit.facingX qubits)).rotations := by
  have hshows := Count.shows_foldl_addRotation c.rotations (Count.start c.numQubits) q
  have hknows : c.rotations.flatMap (Rotation.spelled q) ≠ [] ∨
      (Count.start c.numQubits).Knows q := by
    rcases hknown with hlt | ⟨r, hr, hactive⟩
    · exact Or.inr (Option.isSome_iff_exists.2 ⟨_, Count.get?_start.2 ⟨hlt, rfl⟩⟩)
    · refine Or.inl fun hnil => ?_
      have hspelled := List.flatMap_eq_nil_iff.1 hnil r hr
      rw [Rotation.mem_activeQubits] at hactive
      rcases hactive with h | h | h <;> simp [Rotation.spelled, h] at hspelled
  obtain ⟨s, hs⟩ := Option.isSome_iff_exists.1 (hshows.knows hknows)
  refine ⟨{ s with id := q, requests := s.x + s.y + s.z }, ?_, ?_⟩
  · exact (SortedMap.get?_mapValues _ _ q).trans (by rw [hs]; rfl)
  · have hflips := hshows.flips
    rw [Count.flips, hs, Count.flips_start, Nat.zero_add] at hflips
    exact hflips.trans (Circuit.countTurns_facingX hc hq).symm

/-- A circuit with an even and an odd number of Y. -/
def flippingCircuit : Circuit := .ofRotations "flipping"
  [.unnumbered .pi4 .plus (.ofList [0]) ∅ (.ofList [1]),
    .unnumbered .pi8 .minus (.ofList [3]) (.ofList [0, 1]) (.ofList [2]),
    .unnumbered .measurement .plus ∅ (.ofList [0, 1, 2]) ∅] 4

/-- The second qubit flips once for Z, and twice for each of two Y. -/
theorem flippingCircuit_flips : (∀ r ∈ flippingCircuit.rotations, r.Proper) ∧
    1 ∈ SortedSet.ofList (List.range 4) ∧
    (1 < flippingCircuit.numQubits ∨ ∃ r ∈ flippingCircuit.rotations, 1 ∈ r.activeQubits) ∧
    ∃ s, (ofCircuit flippingCircuit).qubits.get? 1 = some s ∧ s.flips = 5 ∧
      s.flips = Circuit.countTurns 1 ((flippingCircuit.withoutY (.ofList (List.range 4))).withTurns
        (Circuit.facingX (.ofList (List.range 4)))).rotations := by
  have hc : ∀ r ∈ flippingCircuit.rotations, r.Proper := by decide
  have hq : 1 ∈ SortedSet.ofList (List.range 4) := by decide
  have hknown : 1 < flippingCircuit.numQubits ∨
      ∃ r ∈ flippingCircuit.rotations, 1 ∈ r.activeQubits := Or.inl (by decide)
  obtain ⟨s, hs, hflips⟩ := flips_eq_countTurns hc hq hknown
  refine ⟨hc, hq, hknown, s, hs, ?_, hflips⟩
  rw [hflips]
  decide

end CircuitStats

end LatticeSurgery
