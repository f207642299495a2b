import LatticeSurgery.Circuit.Turns
import LatticeSurgery.Proofs.Board.Facing
import LatticeSurgery.Proofs.Dependency.Reordering
import LatticeSurgery.Proofs.Packing.Serving
import Mathlib.Logic.Function.Iterate

/-!
# Circuits with turns

The turns are put into a circuit for the boundaries that face the bus at its start. Read in order, such
a circuit suits the facings (`Circuit.Suited`): whenever a rotation comes, its boundaries face the bus,
and whenever a turn comes, the other boundary does.
-/

namespace LatticeSurgery

open Ordered

namespace Facing

/-- The facing of a patch with one boundary at the bus. -/
def only : Basis → Facing
  | .X => x
  | .Z => z

theorem shows_iterate (f : Facing) (k : Nat) (basis : Basis) :
    (flipped^[k] f).shows basis = f.shows (Basis.flipped^[k] basis) := by
  induction k generalizing basis with
  | zero => rfl
  | succ k ih =>
    rw [Function.iterate_succ_apply', shows_flipped, ih, Function.iterate_succ_apply]

theorem eq_only_or (f : Facing) (basis : Basis) :
    f = only basis.flipped ∨ f.shows basis = true := by
  cases f <;> cases basis <;> simp [only, shows, Basis.flipped]

theorem only_ne_both (basis : Basis) : only basis ≠ both := by
  cases basis <;> simp [only]

/-- One boundary at the bus is all that the patch shows. -/
theorem shows_only_iff {basis basis' : Basis} : (only basis).shows basis' = true ↔ basis = basis' := by
  cases basis <;> cases basis' <;> simp [only, shows]

end Facing

namespace Rotation

variable {r : Rotation} {facing : Nat → Option Facing} {q : Nat}

/-- The rotation turns the patch. -/
def turnsPatch (r : Rotation) (q : Nat) : Bool := decide (r.kind = .turn) && r.activeQubits.contains q

theorem turnsPatch_iff : r.turnsPatch q = true ↔ r.kind = .turn ∧ q ∈ r.activeQubits := by
  unfold turnsPatch
  rw [Bool.and_eq_true, decide_eq_true_eq, SortedSet.contains_iff]

/-- The facings after a rotation: a turn exchanges the boundaries of its patch. -/
def after (r : Rotation) (facing : Nat → Option Facing) (q : Nat) : Option Facing :=
  if r.turnsPatch q then (facing q).map Facing.flipped else facing q

/-- If the rotation is a turn, it turns one patch only. -/
def TurnsOnePatch (r : Rotation) : Prop :=
  r.kind = .turn → ∀ i ∈ r.activeQubits, ∀ j ∈ r.activeQubits, i = j

/-- The boundaries of a rotation face the bus. The boundary opposite to the target of a turn does. -/
structure Suits (r : Rotation) (facing : Nat → Option Facing) : Prop where
  shown : r.kind ≠ .turn → ∀ q basis f, .qubit q basis ∈ r.activeNodes → facing q = some f →
    f.shows basis = true
  turn : r.kind = .turn → ∃ q basis f, (∀ n, n ∈ r.activeNodes ↔ n = .qubit q basis) ∧
    facing q = some f ∧ f.shows basis.flipped = true

theorem Suits.turnsOnePatch (h : r.Suits facing) : r.TurnsOnePatch := by
  intro hkind
  obtain ⟨q, basis, f, hnodes, -⟩ := h.turn hkind
  have hq : ∀ i ∈ r.activeQubits, i = q := by
    intro i hi
    obtain ⟨c, hmem⟩ := exists_mem_activeNodes hi
    cases (hnodes _).1 hmem
    rfl
  intro i hi j hj
  rw [hq i hi, hq j hj]

end Rotation

namespace Circuit

/-- Each rotation suits the facings that the rotations before it leave. -/
def Suited : List Rotation → (Nat → Option Facing) → Prop
  | [], _ => True
  | r :: rs, facing => r.Suits facing ∧ Suited rs (r.after facing)

/-- The facings after several rotations. -/
def facingAfter (rs : List Rotation) (facing : Nat → Option Facing) : Nat → Option Facing :=
  rs.foldl (fun facing r => r.after facing) facing

variable {rs rs' : List Rotation} {facing : Nat → Option Facing} {m : SortedMap Nat Facing}
  {ns : List Node} {id : Nat} {basis : Basis}

theorem suited_append : Suited (rs ++ rs') facing ↔
    Suited rs facing ∧ Suited rs' (facingAfter rs facing) := by
  induction rs generalizing facing with
  | nil => exact (and_iff_right trivial).symm
  | cons r rs ih =>
    show r.Suits facing ∧ Suited (rs ++ rs') _ ↔ (r.Suits facing ∧ Suited rs _) ∧ _
    rw [ih, and_assoc]
    rfl

/-! ## Turns for a list of boundaries -/

theorem mem_activeNodes_turnTo (id : Nat) (basis : Basis) (n : Node) :
    n ∈ (turnTo id basis).activeNodes ↔ n = .qubit id basis := by
  cases basis <;> simp [turnTo, Rotation.unnumbered, Rotation.activeNodes, eq_comm]

theorem turnsPatch_turnTo (id : Nat) (basis : Basis) (q : Nat) :
    (turnTo id basis).turnsPatch q = true ↔ q = id := by
  cases basis <;> simp [turnTo, Rotation.unnumbered, Rotation.turnsPatch, Rotation.activeQubits]

theorem turnsFor_qubit (ns : List Node) (m : SortedMap Nat Facing) (id : Nat) (basis : Basis) :
    turnsFor (.qubit id basis :: ns) m = if m.get? id = some (Facing.only basis.flipped) then
      (turnTo id basis :: (turnsFor ns (m.insert id (Facing.only basis))).1,
        (turnsFor ns (m.insert id (Facing.only basis))).2)
    else turnsFor ns m := by
  cases basis <;> rfl

theorem turnsFor_of_ne_qubit {n : Node} (hn : ¬ ∃ id basis, n = .qubit id basis) (ns : List Node)
    (m : SortedMap Nat Facing) : turnsFor (n :: ns) m = turnsFor ns m := by
  cases n with
  | bus i => rfl
  | boundary k i c =>
    cases k with
    | qubit => exact absurd ⟨i, c, rfl⟩ hn
    | magic | zero | storage => rfl

/-- Only patches with both boundaries at the bus are used through both. -/
def OneWay (ns : List Node) (facing : Nat → Option Facing) : Prop :=
  ∀ q basis f, .qubit q basis ∈ ns → .qubit q basis.flipped ∈ ns → facing q = some f → f = .both

theorem OneWay.tail {n : Node} (h : OneWay (n :: ns) facing) : OneWay ns facing :=
  fun q basis f hb hb' => h q basis f (List.mem_cons_of_mem _ hb) (List.mem_cons_of_mem _ hb')

/-- Patches with one boundary at the bus may be turned. -/
theorem OneWay.of_moved {m' : SortedMap Nat Facing} (h : OneWay ns m.get?)
    (hmoved : ∀ q, m'.get? q = m.get? q ∨ ∃ basis, m.get? q = some (.only basis)) :
    OneWay ns m'.get? := by
  intro q basis f hb hb' hf
  rcases hmoved q with hkept | ⟨basis', hbefore⟩
  · exact h q basis f hb hb' (hkept ▸ hf)
  · exact absurd (h q basis _ hb hb' hbefore) (Facing.only_ne_both basis')

theorem OneWay.insert (h : OneWay ns m.get?) {basis' : Basis}
    (hf : m.get? id = some (.only basis')) (f : Facing) : OneWay ns (m.insert id f).get? := by
  refine h.of_moved fun q => ?_
  by_cases hq : q = id
  · exact Or.inr ⟨basis', hq ▸ hf⟩
  · exact Or.inl (SortedMap.get?_insert_ne _ hq _)

/-- The turns bring the boundaries to the bus. -/
structure Prepares (ns : List Node) (m : SortedMap Nat Facing) (turns : List Rotation)
    (m' : SortedMap Nat Facing) : Prop where
  suited : Suited turns m.get?
  after : facingAfter turns m.get? = m'.get?
  moved : ∀ q, m'.get? q = m.get? q ∨ ∃ basis, .qubit q basis ∈ ns ∧
    m.get? q = some (.only basis.flipped) ∧ m'.get? q = some (.only basis)
  shown : ∀ q basis f, .qubit q basis ∈ ns → m'.get? q = some f → f.shows basis = true

theorem Prepares.oneWay {turns : List Rotation} {m' : SortedMap Nat Facing} {ns' : List Node}
    (h : Prepares ns m turns m') (hone : OneWay ns' m.get?) : OneWay ns' m'.get? :=
  hone.of_moved fun q => (h.moved q).imp_right fun ⟨basis, _, hbefore, _⟩ => ⟨basis.flipped, hbefore⟩

/-- A patch with one boundary at the bus keeps one there. -/
theorem Prepares.exists_only {turns : List Rotation} {m' : SortedMap Nat Facing}
    (h : Prepares ns m turns m') {q : Nat} (hq : m.get? q = some (.only basis)) :
    ∃ basis', m'.get? q = some (.only basis') := by
  rcases h.moved q with hkept | ⟨basis', -, -, hafter⟩
  · exact ⟨basis, hkept.trans hq⟩
  · exact ⟨basis', hafter⟩

/-- If a boundary of such a patch is wanted, it is the one. -/
theorem Prepares.get?_of_mem {turns : List Rotation} {m' : SortedMap Nat Facing}
    (h : Prepares ns m turns m') {q : Nat} {basis' : Basis} (hq : m.get? q = some (.only basis))
    (hmem : .qubit q basis' ∈ ns) : m'.get? q = some (.only basis') := by
  obtain ⟨c, hafter⟩ := h.exists_only hq
  rw [hafter, Facing.shows_only_iff.1 (h.shown q basis' _ hmem hafter)]

/-- A boundary that does not face the bus is turned to it first. -/
theorem Prepares.turn (hone : OneWay (.qubit id basis :: ns) m.get?)
    (hf : m.get? id = some (.only basis.flipped)) {turns : List Rotation} {m' : SortedMap Nat Facing}
    (h : Prepares ns (m.insert id (.only basis)) turns m') :
    Prepares (.qubit id basis :: ns) m (turnTo id basis :: turns) m' := by
  have hother : .qubit id basis.flipped ∉ ns := by
    intro hmem
    have hboth := hone id basis _ List.mem_cons_self (List.mem_cons_of_mem _ hmem) hf
    exact Facing.only_ne_both _ hboth
  have hafter : (turnTo id basis).after m.get? = (m.insert id (.only basis)).get? := by
    funext q
    unfold Rotation.after
    by_cases hq : q = id
    · subst hq
      rw [if_pos ((turnsPatch_turnTo _ _ _).2 rfl), hf, SortedMap.get?_insert_self]
      cases basis <;> rfl
    · rw [if_neg (by rw [turnsPatch_turnTo]; exact hq), SortedMap.get?_insert_ne _ hq]
  -- the turn is the last one of its patch
  have hself : m'.get? id = some (.only basis) := by
    rcases h.moved id with hkept | ⟨c, hc, hbefore, -⟩
    · rw [hkept, SortedMap.get?_insert_self]
    · rw [SortedMap.get?_insert_self, Option.some_inj] at hbefore
      have hflip : c = basis.flipped := Basis.eq_flipped fun heq => by
        subst heq
        cases c <;> cases hbefore
      rw [hflip] at hc
      exact absurd hc hother
  refine ⟨⟨⟨fun hne => absurd ?_ hne, fun _ => ?_⟩, ?_⟩, ?_, fun q => ?_, fun q c f hmem hq => ?_⟩
  · cases basis <;> rfl
  · refine ⟨id, basis, _, mem_activeNodes_turnTo id basis, hf, ?_⟩
    cases basis <;> rfl
  · rw [hafter]
    exact h.suited
  · show facingAfter turns ((turnTo id basis).after m.get?) = _
    rw [hafter]
    exact h.after
  · by_cases hq : q = id
    · subst hq
      exact Or.inr ⟨basis, List.mem_cons_self, hf, hself⟩
    · have hmoved := h.moved q
      rw [SortedMap.get?_insert_ne _ hq] at hmoved
      refine hmoved.imp_right ?_
      rintro ⟨c, hc, hbefore⟩
      exact ⟨c, List.mem_cons_of_mem _ hc, hbefore⟩
  · rcases List.mem_cons.1 hmem with heq | hmem
    · cases heq
      rw [hself] at hq
      cases hq
      cases basis <;> rfl
    · exact h.shown q c f hmem hq

/-- A boundary that faces the bus needs no turn. -/
theorem Prepares.keep (hone : OneWay (.qubit id basis :: ns) m.get?)
    (hf : m.get? id ≠ some (.only basis.flipped)) {turns : List Rotation} {m' : SortedMap Nat Facing}
    (h : Prepares ns m turns m') : Prepares (.qubit id basis :: ns) m turns m' := by
  refine ⟨h.suited, h.after, fun q => (h.moved q).imp_right ?_, fun q c f hmem hq => ?_⟩
  · rintro ⟨c, hc, hbefore⟩
    exact ⟨c, List.mem_cons_of_mem _ hc, hbefore⟩
  · rcases List.mem_cons.1 hmem with heq | hmem
    · cases heq
      rcases h.moved id with hkept | ⟨c, hc, hbefore, -⟩
      · rw [hkept] at hq
        refine (f.eq_only_or basis).resolve_left ?_
        rintro rfl
        exact hf hq
      · -- the patch is turned later, for its other boundary
        have hflip : c = basis.flipped := Basis.eq_flipped fun heq => hf (heq ▸ hbefore)
        rw [hflip] at hc hbefore
        have hboth := hone id basis _ List.mem_cons_self (List.mem_cons_of_mem _ hc) hbefore
        exact absurd hboth (Facing.only_ne_both _)
    · exact h.shown q c f hmem hq

theorem turnsFor_spec (hone : OneWay ns m.get?) :
    Prepares ns m (turnsFor ns m).1 (turnsFor ns m).2 := by
  induction ns generalizing m with
  | nil => exact ⟨trivial, rfl, fun _ => Or.inl rfl, fun _ _ _ hmem => by cases hmem⟩
  | cons n ns ih =>
    have hrest : OneWay ns m.get? := hone.tail
    by_cases hn : ∃ id basis, n = .qubit id basis
    · obtain ⟨id, basis, rfl⟩ := hn
      rw [turnsFor_qubit]
      split
      · next hf => exact Prepares.turn hone hf (ih (hrest.insert hf _))
      · next hf => exact Prepares.keep hone hf (ih hrest)
    · obtain ⟨hsuited, hafter, hmoved, hshown⟩ := ih hrest
      rw [turnsFor_of_ne_qubit hn]
      refine ⟨hsuited, hafter, fun q => (hmoved q).imp_right ?_, fun q c f hmem hq => ?_⟩
      · rintro ⟨c, hc, hbefore⟩
        exact ⟨c, List.mem_cons_of_mem _ hc, hbefore⟩
      · rcases List.mem_cons.1 hmem with rfl | hmem
        · exact absurd ⟨q, c, rfl⟩ hn
        · exact hshown q c f hmem hq

/-! ## The whole circuit -/

/-- A circuit that is to be extended by turns: none of its rotations is a turn or has a Y, and a patch
with one boundary at the bus is used through one operator at a time. -/
structure Unturned (c : Circuit) (facing : Nat → Option Facing) : Prop where
  kind : ∀ r ∈ c.rotations, r.kind ≠ .turn
  noY : ∀ r ∈ c.rotations, ∀ q, q ∉ r.y
  oneWay : ∀ r ∈ c.rotations, ∀ q ∈ r.x, q ∈ r.z → facing q = some .both

theorem suited_turnBefore (hkind : ∀ r ∈ rs, r.kind ≠ .turn)
    (hone : ∀ r ∈ rs, OneWay r.activeNodes.toList m.get?) :
    Suited (turnBefore rs m) m.get? := by
  induction rs generalizing m with
  | nil => trivial
  | cons r rs ih =>
    have hspec := turnsFor_spec (hone r List.mem_cons_self)
    set turns := (turnsFor r.activeNodes.toList m).1
    set m' := (turnsFor r.activeNodes.toList m).2
    have hr : r.kind ≠ .turn := hkind r List.mem_cons_self
    have hsame : r.after m'.get? = m'.get? := by
      funext q
      unfold Rotation.after
      rw [if_neg]
      simp [Rotation.turnsPatch, hr]
    show Suited (turns ++ r :: turnBefore rs m') m.get?
    rw [suited_append, hspec.after]
    refine ⟨hspec.suited, ⟨fun _ q c f hmem hq => hspec.shown q c f hmem hq, fun h => absurd h hr⟩, ?_⟩
    rw [hsame]
    exact ih (fun r' hr' => hkind r' (List.mem_cons_of_mem _ hr'))
      fun r' hr' => hspec.oneWay (hone r' (List.mem_cons_of_mem _ hr'))

theorem Unturned.oneWay_activeNodes {c : Circuit} (h : c.Unturned facing) {r : Rotation}
    (hr : r ∈ c.rotations) : OneWay r.activeNodes.toList facing := by
  have hmem : ∀ q, (Node.qubit q .X ∈ r.activeNodes → q ∈ r.x) ∧
      (Node.qubit q .Z ∈ r.activeNodes → q ∈ r.z) := by
    intro q
    simp [Rotation.activeNodes, h.noY r hr]
  intro q basis f hb hb' hf
  have hboth : facing q = some .both := by
    cases basis
    · exact h.oneWay r hr q ((hmem q).1 hb) ((hmem q).2 hb')
    · exact h.oneWay r hr q ((hmem q).1 hb') ((hmem q).2 hb)
  rw [hf] at hboth
  exact Option.some.inj hboth

theorem suited_renumber (n : Nat) (h : Suited rs facing) :
    Suited ((rs.zipIdx n).map fun p => { p.1 with index := p.2 }) facing := by
  induction rs generalizing n facing with
  | nil => trivial
  | cons r rs ih => exact ⟨⟨h.1.shown, h.1.turn⟩, ih (n + 1) h.2⟩

/-- A circuit to which turns are added suits the facings for which they are added. -/
theorem suited_withTurns {c : Circuit} (h : c.Unturned m.get?) :
    Suited (c.withTurns m).rotations m.get? :=
  suited_renumber 0 (suited_turnBefore h.kind fun _ hr => h.oneWay_activeNodes hr)

theorem getElem?_renumber (rs : List Rotation) (i : Nat) :
    (renumber rs)[i]? = rs[i]?.map fun r => { r with index := i } := by
  rw [renumber, List.getElem?_map, List.getElem?_zipIdx, Option.map_map]
  simp only [Function.comp_def, Nat.zero_add]

theorem numbered_withTurns (c : Circuit) (m : SortedMap Nat Facing) : (c.withTurns m).Numbered := by
  intro i r hr
  obtain ⟨r', -, rfl⟩ := Option.map_eq_some_iff.1 ((getElem?_renumber _ i).symm.trans hr)
  rfl

/-! ## The facings at each rotation -/

/-- The turns of a patch among the rotations with the given numbers. -/
def turnsOf (c : Circuit) (q : Nat) (s : Finset Nat) : Finset Nat :=
  s.filter fun i => (c.rotations[i]?).any (·.turnsPatch q) = true

theorem facingAfter_take (c : Circuit) (facing : Nat → Option Facing) (i q : Nat) :
    facingAfter (c.rotations.take i) facing q =
      (facing q).map (Facing.flipped^[(c.turnsOf q (Finset.range i)).card]) := by
  induction i with
  | zero =>
    show facing q = (facing q).map id
    exact Option.map_id_apply.symm
  | succ i ih =>
    unfold turnsOf at ih ⊢
    rw [List.take_add_one, facingAfter, List.foldl_append, Finset.range_add_one, Finset.filter_insert]
    show List.foldl _ (facingAfter (c.rotations.take i) facing) _ q = _
    cases hr : c.rotations[i]? with
    | none => simpa using ih
    | some r =>
      show r.after (facingAfter (c.rotations.take i) facing) q = _
      unfold Rotation.after
      rw [ih, Option.any_some]
      split
      · rw [Finset.card_insert_of_notMem (by simp), Function.iterate_succ', Option.map_map]
      · rfl

theorem Suited.suits (h : Suited rs facing) {i : Nat} {r : Rotation} (hr : rs[i]? = some r) :
    r.Suits (facingAfter (rs.take i) facing) := by
  obtain ⟨hi, rfl⟩ := List.getElem?_eq_some_iff.1 hr
  rw [← List.take_append_drop i rs, suited_append, List.drop_eq_getElem_cons hi] at h
  exact h.2.1

/-- Each rotation of a circuit with turns suits the facings that the turns before it leave. -/
theorem suits_withTurns {c : Circuit} (h : c.Unturned m.get?) {i : Nat} {r : Rotation}
    (hr : (c.withTurns m).rotations[i]? = some r) : r.Suits fun q =>
      (m.get? q).map (Facing.flipped^[((c.withTurns m).turnsOf q (Finset.range i)).card]) := by
  have hsuits := (suited_withTurns h).suits hr
  rwa [show facingAfter ((c.withTurns m).rotations.take i) m.get? = _ from
    funext fun q => facingAfter_take _ _ i q] at hsuits

theorem turnsOnePatch_withTurns {c : Circuit} (h : c.Unturned m.get?) {r : Rotation}
    (hr : r ∈ (c.withTurns m).rotations) : r.TurnsOnePatch := by
  obtain ⟨i, hr⟩ := List.mem_iff_getElem?.1 hr
  exact (suits_withTurns h hr).turnsOnePatch

end Circuit

end LatticeSurgery
