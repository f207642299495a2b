import LatticeSurgery.Proofs.Circuit.Preparation

/-!
# The fewest turns

A sequence of rotations can be carried out from given facings if each turn brings the boundary that it
names to the bus, where the other one was before, and every other rotation finds its boundaries there
(`Circuit.Replays`). Turns can be put into a circuit in many ways. Putting each one in right before the
rotation that needs it turns no patch more often than any other way does
(`Circuit.withTurns_fewest`): at every point the two ways have turned a patch equally often but for one
turn by which their facings differ.
-/

namespace LatticeSurgery

namespace Circuit

variable {c : Circuit} {rs rs' : List Rotation} {facing : Nat → Option Facing}
  {m : SortedMap Nat Facing} {ns : List Node} {q : Nat}

/-! ## Carrying out rotations -/

/-- The rotations can be carried out one after the other, from the given facings. -/
inductive Replays : (Nat → Option Facing) → List Rotation → Prop
  /-- Nothing is left. -/
  | done (facing : Nat → Option Facing) : Replays facing []
  /-- A turn acts on one patch, from the opposite boundary to the one that it names. -/
  | turn {facing : Nat → Option Facing} {r : Rotation} {rs : List Rotation} {q : Nat} {basis : Basis}
      (kind : r.kind = .turn) (node : ∀ n, n ∈ r.activeNodes ↔ n = .qubit q basis)
      (before : facing q = some (.only basis.flipped))
      (rest : Replays (Function.update facing q (some (.only basis))) rs) : Replays facing (r :: rs)
  /-- Any other rotation finds its boundaries at the bus. -/
  | use {facing : Nat → Option Facing} {r : Rotation} {rs : List Rotation} (kind : r.kind ≠ .turn)
      (shown : ∀ q basis f, .qubit q basis ∈ r.activeNodes → facing q = some f →
        f.shows basis = true)
      (rest : Replays facing rs) : Replays facing (r :: rs)

theorem get?_insert_eq_update (m : SortedMap Nat Facing) (q : Nat) (f : Facing) :
    (m.insert q f).get? = Function.update m.get? q (some f) := by
  funext p
  by_cases hp : p = q
  · subst hp
    rw [SortedMap.get?_insert_self, Function.update_self]
  · rw [SortedMap.get?_insert_ne _ hp, Function.update_of_ne hp]

/-- Turns that are needed can be carried out. -/
theorem replays_turnsFor (h : Replays (turnsFor ns m).2.get? rs) :
    Replays m.get? ((turnsFor ns m).1 ++ rs) := by
  induction ns generalizing m with
  | nil => exact h
  | cons n ns ih =>
    by_cases hn : ∃ id basis, n = .qubit id basis
    · obtain ⟨id, basis, rfl⟩ := hn
      rw [turnsFor_qubit] at h ⊢
      split at h
      · next hf =>
        rw [if_pos hf]
        refine .turn (kind_turnTo id basis) (mem_activeNodes_turnTo id basis) hf ?_
        rw [← get?_insert_eq_update]
        exact ih h
      · next hf =>
        rw [if_neg hf]
        exact ih h
    · rw [turnsFor_of_ne_qubit hn] at h ⊢
      exact ih h

theorem oneWay_iff : OneWay ns facing ↔ ∀ n ∈ ns, n.kind = .patch .qubit → n.opposite ∈ ns →
    facing n.id = none ∨ facing n.id = some .both := by
  constructor
  · intro h n hn hkind hother
    cases n with
    | bus i => cases hkind
    | boundary k q basis =>
      cases hkind
      cases hf : facing q with
      | none => exact Or.inl hf
      | some f => exact Or.inr (hf.trans (congrArg some (h q basis f hn hother hf)))
  · intro h q basis f hn hother hf
    rcases h _ hn rfl hother with hnone | hboth
    · cases hnone.symm.trans hf
    · exact Option.some.inj (hf.symm.trans hboth)

instance : Decidable (OneWay ns facing) := decidable_of_iff _ oneWay_iff.symm

theorem replays_turnBefore (hkind : ∀ r ∈ rs, r.kind ≠ .turn)
    (hone : ∀ r ∈ rs, OneWay r.activeNodes.toList m.get?) : Replays m.get? (turnBefore rs m) := by
  induction rs generalizing m with
  | nil => exact .done _
  | cons r rs ih =>
    have hspec := turnsFor_spec (hone r List.mem_cons_self)
    refine replays_turnsFor (.use (hkind r List.mem_cons_self) hspec.shown (ih ?_ ?_))
    · exact fun r' hr' => hkind r' (List.mem_cons_of_mem _ hr')
    · exact fun r' hr' => hspec.oneWay (hone r' (List.mem_cons_of_mem _ hr'))

theorem Replays.renumber (h : Replays facing rs) (n : Nat) :
    Replays facing ((rs.zipIdx n).map fun p => { p.1 with index := p.2 }) := by
  induction h generalizing n with
  | done facing => exact .done facing
  | turn kind node before _ ih => exact .turn kind node before (ih (n + 1))
  | use kind shown _ ih => exact .use kind shown (ih (n + 1))

/-! ## Counting turns -/

/-- The turns of a patch. -/
def countTurns (q : Nat) (rs : List Rotation) : Nat := rs.countP (·.turnsPatch q)

/-- The turns by which two facings of a patch differ. -/
def apart (f g : Option Facing) : Nat := if f = g then 0 else 1

@[simp] theorem apart_self (f : Option Facing) : apart f f = 0 := if_pos rfl

theorem apart_le_one (f g : Option Facing) : apart f g ≤ 1 := by
  unfold apart
  split <;> omega

theorem only_flipped_ne (basis : Basis) : Facing.only basis.flipped ≠ .only basis := by
  cases basis <;> simp [Facing.only, Basis.flipped]

theorem countTurns_cons (r : Rotation) (rs : List Rotation) (q : Nat) :
    countTurns q (r :: rs) = countTurns q rs + if r.turnsPatch q = true then 1 else 0 :=
  List.countP_cons

theorem countTurns_append (rs rs' : List Rotation) (q : Nat) :
    countTurns q (rs ++ rs') = countTurns q rs + countTurns q rs' := List.countP_append

theorem countTurns_cons_of_kind_ne {r : Rotation} (hr : r.kind ≠ .turn) (rs : List Rotation)
    (q : Nat) : countTurns q (r :: rs) = countTurns q rs := by
  rw [countTurns_cons, if_neg, Nat.add_zero]
  simp [Rotation.turnsPatch, hr]

theorem turnsPatch_iff_of_node {r : Rotation} {basis : Basis} {p : Nat} (hkind : r.kind = .turn)
    (hnode : ∀ n, n ∈ r.activeNodes ↔ n = .qubit p basis) : r.turnsPatch q = true ↔ q = p := by
  rw [Rotation.turnsPatch_iff, and_iff_right hkind]
  constructor
  · intro hq
    obtain ⟨basis', hmem⟩ := Rotation.exists_mem_activeNodes hq
    cases (hnode _).1 hmem
    rfl
  · rintro rfl
    exact Rotation.id_mem_activeQubits ((hnode _).2 rfl)

theorem countTurns_renumber (rs : List Rotation) (q : Nat) :
    countTurns q (renumber rs) = countTurns q rs := by
  have hturns : ∀ r : Rotation, r.unindexed.turnsPatch q = r.turnsPatch q := fun r => rfl
  calc countTurns q (renumber rs)
      = ((renumber rs).map Rotation.unindexed).countP (·.turnsPatch q) := by
        rw [List.countP_map]
        rfl
    _ = (rs.map Rotation.unindexed).countP (·.turnsPatch q) := by rw [map_unindexed_renumber]
    _ = countTurns q rs := by
        rw [List.countP_map]
        rfl

/-- A patch is turned once if its facing changes, and never otherwise. -/
theorem countTurns_turnsFor (hone : OneWay ns m.get?) (q : Nat) :
    countTurns q (turnsFor ns m).1 = apart (m.get? q) ((turnsFor ns m).2.get? q) := by
  induction ns generalizing m with
  | nil => exact (apart_self _).symm
  | cons n ns ih =>
    have hrest : OneWay ns m.get? := hone.tail
    by_cases hn : ∃ id basis, n = .qubit id basis
    · obtain ⟨id, basis, rfl⟩ := hn
      have hspec := turnsFor_spec hone
      rw [turnsFor_qubit] at hspec ⊢
      split at hspec
      · next hf =>
        rw [if_pos hf]
        rw [countTurns_cons, ih (hrest.insert hf _)]
        by_cases hq : q = id
        · subst hq
          -- the boundary is at the bus in the end, so it is not turned away again
          have hself := hspec.get?_of_mem hf List.mem_cons_self
          rw [hself, hf, SortedMap.get?_insert_self, apart_self, if_pos ((turnsPatch_turnTo _ _ _).2 rfl),
            apart, if_neg fun h => only_flipped_ne basis (Option.some.inj h)]
        · rw [SortedMap.get?_insert_ne _ hq, if_neg (by rw [turnsPatch_turnTo]; exact hq), Nat.add_zero]
      · next hf =>
        rw [if_neg hf]
        exact ih hrest
    · rw [turnsFor_of_ne_qubit hn]
      exact ih hrest

/-! ## Comparison with other ways -/

/-- The rotations that are no turns, without their numbers. -/
def erased (rs : List Rotation) : List Rotation :=
  (rs.filter fun r => !decide (r.kind = .turn)).map Rotation.unindexed

theorem erased_cons_of_turn {r : Rotation} (hr : r.kind = .turn) : erased (r :: rs) = erased rs := by
  simp [erased, hr]

theorem erased_cons_of_kind_ne {r : Rotation} (hr : r.kind ≠ .turn) :
    erased (r :: rs) = r.unindexed :: erased rs := by
  simp [erased, hr]

theorem erased_renumber (rs : List Rotation) : erased (renumber rs) = erased rs := by
  have hfilter : ∀ rs : List Rotation, erased rs =
      (rs.map Rotation.unindexed).filter fun r => !decide (r.kind = .turn) := by
    intro rs
    rw [List.filter_map]
    rfl
  rw [hfilter, hfilter, map_unindexed_renumber]

/-- The facings are equal, or each of them shows one boundary. -/
def Comparable (f f' : Option Facing) : Prop :=
  f = f' ∨ ∃ basis basis', f = some (.only basis) ∧ f' = some (.only basis')

theorem Comparable.symm {f f' : Option Facing} (h : Comparable f f') : Comparable f' f :=
  h.imp Eq.symm fun ⟨basis, basis', hf, hf'⟩ => ⟨basis', basis, hf', hf⟩

theorem Comparable.exists_only {f f' : Option Facing} {basis : Basis} (h : Comparable f f')
    (hf : f = some (.only basis)) : ∃ basis', f' = some (.only basis') := by
  rcases h with h | ⟨-, basis', -, h⟩
  · exact ⟨basis, h.symm.trans hf⟩
  · exact ⟨basis', h⟩

/-- Two ways to carry out the same rotations, from facings of a patch that may differ: turns that are
put in when they are needed exceed those of the other way by one at most, and by none if the facings
are equal. -/
theorem countTurns_turnBefore_le (h : Replays facing rs') (hsame : erased rs' = rs.map Rotation.unindexed)
    (hkind : ∀ r ∈ rs, r.kind ≠ .turn) (hone : ∀ r ∈ rs, OneWay r.activeNodes.toList m.get?)
    (hq : Comparable (m.get? q) (facing q)) :
    countTurns q (turnBefore rs m) ≤ countTurns q rs' + apart (m.get? q) (facing q) := by
  induction h generalizing rs m with
  | done facing =>
    obtain rfl := List.map_eq_nil_iff.1 hsame.symm
    exact Nat.zero_le _
  | @turn facing r rs' p basis kind node before rest ih =>
    rw [erased_cons_of_turn kind] at hsame
    rw [countTurns_cons]
    by_cases hp : q = p
    · -- the other way turns the patch; one turn more or less is accounted for by the difference
      subst hp
      obtain ⟨basis', hm⟩ := hq.symm.exists_only before
      have hrest := ih hsame hkind hone (Or.inr ⟨basis', basis, hm, Function.update_self ..⟩)
      have hle := apart_le_one (m.get? q) (Function.update facing q (some (.only basis)) q)
      rw [if_pos ((turnsPatch_iff_of_node kind node).2 rfl)]
      omega
    · have hrest := ih hsame hkind hone
      rw [Function.update_of_ne hp] at hrest
      exact (hrest hq).trans (by omega)
  | @use facing r' rs' kind shown rest ih =>
    rw [erased_cons_of_kind_ne kind] at hsame
    cases rs with
    | nil => cases hsame
    | cons r rs =>
      obtain ⟨hr, hsame⟩ := List.cons.inj hsame
      have hspec := turnsFor_spec (hone r List.mem_cons_self)
      have hcount := countTurns_turnsFor (hone r List.mem_cons_self) q
      have hnodes : r'.activeNodes = r.activeNodes := by
        show r'.unindexed.activeNodes = r.unindexed.activeNodes
        rw [hr]
      have hrest := ih (m := (turnsFor r.activeNodes.toList m).2) hsame
        (fun e he => hkind e (List.mem_cons_of_mem _ he))
        fun e he => hspec.oneWay (hone e (List.mem_cons_of_mem _ he))
      rw [countTurns_cons_of_kind_ne kind]
      show countTurns q ((turnsFor r.activeNodes.toList m).1 ++ r :: turnBefore rs _) ≤ _
      rw [countTurns_append, countTurns_cons_of_kind_ne (hkind r List.mem_cons_self), hcount]
      rcases hspec.moved q with hkept | ⟨basis, hnode, hbefore, hafter⟩
      · rw [hkept] at hrest ⊢
        rw [apart_self, Nat.zero_add]
        exact hrest hq
      · -- the rotation needs the boundary, so the other way has it at the bus by now
        have hfacing : facing q = some (.only basis) := by
          obtain ⟨basis', hother⟩ := hq.exists_only hbefore
          rw [hother, Facing.shows_only_iff.1 (shown q basis _ (hnodes ▸ hnode) hother)]
        rw [hfacing, hafter, apart_self] at hrest
        rw [hbefore, hfacing, hafter]
        have := hrest (Or.inl rfl)
        omega

/-- The rotations of a circuit with turns put in, to be carried out from the given facings. -/
structure FewestTurns (c : Circuit) (facing : Nat → Option Facing) (rs : List Rotation) : Prop where
  /-- The numbers of the rotations are their places. -/
  numbered : ∀ (i : Nat) (r : Rotation), rs[i]? = some r → r.index = i
  /-- Without the turns, the rotations are those of the circuit, in order. -/
  rotations : erased rs = c.rotations.map Rotation.unindexed
  /-- The rotations can be carried out. -/
  replays : Replays facing rs
  /-- Other turns by which the circuit can be carried out turn no patch less often. -/
  fewest : ∀ rs' : List Rotation, erased rs' = c.rotations.map Rotation.unindexed →
    Replays facing rs' → ∀ q, countTurns q rs ≤ countTurns q rs'

/-- Turns are put in correctly, and as few as possible for each patch, if the circuit has none and uses
each patch with one boundary at the bus through one boundary at a time. -/
theorem withTurns_fewest (hkind : ∀ r ∈ c.rotations, r.kind ≠ .turn)
    (hone : ∀ r ∈ c.rotations, OneWay r.activeNodes.toList m.get?) :
    c.FewestTurns m.get? (c.withTurns m).rotations where
  numbered := numbered_withTurns c m
  rotations := by
    show erased (renumber (turnBefore c.rotations m)) = _
    rw [erased_renumber, erased, filter_turnBefore hkind]
  replays := (replays_turnBefore hkind hone).renumber 0
  fewest := by
    intro rs' hsame hreplays q
    have hle := countTurns_turnBefore_le (q := q) hreplays hsame hkind hone (Or.inl rfl)
    rw [apart_self, Nat.add_zero] at hle
    exact (countTurns_renumber _ q).trans_le hle

/-- A circuit on a patch that shows X, one that shows both boundaries, one that shows Z, and a patch
that is not mentioned. -/
def mixedCircuit : Circuit := .ofRotations "mixed"
  [.unnumbered .pi4 .plus (.ofList [0]) (.ofList [1]) ∅,
    .unnumbered .pi8 .minus (.ofList [2]) (.ofList [7]) (.ofList [0, 1]),
    .unnumbered .pi4 .plus (.ofList [1]) ∅ (.ofList [0]),
    .unnumbered .measurement .plus (.ofList [0, 2]) ∅ ∅] 8

/-- Patch 0 is turned twice and patch 2 once. -/
theorem mixedCircuit_fewest : (∀ r ∈ mixedCircuit.rotations, r.kind ≠ .turn) ∧
    (∀ r ∈ mixedCircuit.rotations, OneWay r.activeNodes.toList
      (SortedMap.ofList [(0, Facing.x), (1, .both), (2, .z)]).get?) ∧
    (mixedCircuit.FewestTurns (SortedMap.ofList [(0, Facing.x), (1, .both), (2, .z)]).get?
      (mixedCircuit.withTurns (SortedMap.ofList [(0, .x), (1, .both), (2, .z)])).rotations) ∧
    [0, 1, 2, 7].map (fun q => countTurns q
      (mixedCircuit.withTurns (SortedMap.ofList [(0, .x), (1, .both), (2, .z)])).rotations) =
        [2, 0, 1, 0] := by
  have hkind : ∀ r ∈ mixedCircuit.rotations, r.kind ≠ .turn := by decide
  have hone : ∀ r ∈ mixedCircuit.rotations, OneWay r.activeNodes.toList
      (SortedMap.ofList [(0, Facing.x), (1, .both), (2, .z)]).get? := by decide
  exact ⟨hkind, hone, withTurns_fewest hkind hone, by decide⟩

end Circuit

end LatticeSurgery
