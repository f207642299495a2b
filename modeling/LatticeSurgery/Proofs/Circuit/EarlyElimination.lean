import LatticeSurgery.Proofs.Circuit.Preparation

/-!
# Eliminating Y while a text is read

Y can be expressed with X for each instruction as it is read, or afterwards in the circuit that was read.
The two ways agree on every text (`ofText_splitY`): each instruction gives rise to the same block of
rotations, and only the blocks together are numbered. Whatever patches are chosen, no Y is left, so that
nothing happens to a circuit when its Y are eliminated a second time.
-/

namespace LatticeSurgery

namespace Circuit

variable {r e : Rotation} {rs : List Rotation} {split : SortedSet Nat}

/-! ## One rotation -/

/-- A rotation without Y only loses its number. -/
theorem eliminateY_of_noY (split : SortedSet Nat) (hy : r.y = ∅) :
    eliminateY split r = [r.unindexed] := by
  obtain ⟨i, kind, sign, x, y, z⟩ := r
  subst hy
  rfl

/-- Where every Y is on a patch of `split`, all of them are expressed with X together. -/
theorem eliminateY_of_subset (hsplit : ∀ q ∈ r.y, q ∈ split) (hy : r.y.isEmpty = false) :
    eliminateY split r = conjugateY r.kind r.sign r.x r.z r.y := by
  have hchange : r.y.filter split.contains = r.y := SortedSet.ext_mem fun q => by
    simpa using hsplit q
  have hkeep : (r.y.filter fun q => !split.contains q) = ∅ := SortedSet.ext_mem fun q => by
    simpa using hsplit q
  unfold eliminateY
  rw [hchange, hkeep]
  exact if_neg (by rw [hy]; exact Bool.false_ne_true)

/-- No Y is left, on whichever patches it is expressed with X. -/
theorem y_of_mem_eliminateY (h : e ∈ eliminateY split r) : e.y = ∅ := by
  unfold eliminateY at h
  dsimp only at h
  split at h
  · rw [List.mem_singleton] at h
    exact h ▸ rfl
  · exact (conjugateY_spec h).2.1

/-! ## Circuits -/

theorem flatMap_eliminateY_of_noY (split : SortedSet Nat) (hrs : ∀ r ∈ rs, r.y = ∅) :
    rs.flatMap (eliminateY split) = rs.map Rotation.unindexed := by
  rw [List.map_eq_flatMap]
  exact List.flatMap_congr fun r hr => eliminateY_of_noY split (hrs r hr)

theorem y_of_mem_withoutY {c : Circuit} (h : e ∈ (c.withoutY split).rotations) : e.y = ∅ := by
  obtain ⟨e', he', i, rfl⟩ := exists_of_mem_renumber h
  obtain ⟨r, -, he'⟩ := List.mem_flatMap.1 he'
  have hy : e'.y = ∅ := y_of_mem_eliminateY he'
  exact hy

/-- Eliminating Y a second time changes nothing. -/
theorem withoutY_withoutY (c : Circuit) (split split' : SortedSet Nat) :
    (c.withoutY split).withoutY split' = c.withoutY split := by
  have hrotations : ((c.withoutY split).withoutY split').rotations = (c.withoutY split).rotations := by
    calc renumber ((c.withoutY split).rotations.flatMap (eliminateY split'))
        = renumber ((c.withoutY split).rotations.map Rotation.unindexed) := by
          rw [flatMap_eliminateY_of_noY split' fun e => y_of_mem_withoutY]
      _ = renumber (c.rotations.flatMap (eliminateY split)) := by
          refine renumber_congr ?_
          rw [List.map_map]
          exact map_unindexed_renumber _
  exact congrArg (fun rs => { c with rotations := rs }) hrotations

/-! ## Texts -/

/-- All qubits of a circuit. -/
def qubits (c : Circuit) : SortedSet Nat := SortedSet.ofList (List.range c.numQubits)

/-- An instruction whose Y are expressed with X as it is read stands for what becomes of its rotation
afterwards. -/
theorem rotations_true_eq_eliminateY {i : Instruction} (hsplit : ∀ q < i.paulis.length, q ∈ split) :
    i.rotations true = eliminateY split i.rotation := by
  unfold Instruction.rotations
  dsimp only
  cases hy : i.rotation.y.isEmpty with
  | true =>
    have hnoY : i.rotation.y = ∅ := SortedSet.ext_mem fun q =>
      iff_of_false (SortedSet.isEmpty_iff.1 hy q) (SortedSet.not_mem_empty q)
    rw [eliminateY_of_noY split hnoY]
    rfl
  | false =>
    rw [eliminateY_of_subset (fun q hq => hsplit q ?_) hy]
    · rfl
    · exact Instruction.lt_of_mem_activeQubits (Rotation.mem_activeQubits.2 (Or.inr (Or.inl hq)))

/-- Expressing Y with X while a text is read has the outcome of reading the text and then expressing Y
with X on all qubits: the same error, or the same circuit. On whichever patches Y is expressed with X, no
Y is left, and nothing changes when that is done again. -/
theorem ofText_splitY (name text : String) :
    ofText name text true = (ofText name text false).map (fun c => c.withoutY c.qubits) ∧
    ∀ (c : Circuit) (split split' : SortedSet Nat),
      (∀ r ∈ (c.withoutY split).rotations, r.y = ∅) ∧
      (c.withoutY split).withoutY split' = c.withoutY split := by
  refine ⟨?_, fun c split split' => ⟨fun r => y_of_mem_withoutY, withoutY_withoutY c split split'⟩⟩
  unfold ofText
  cases his : instructions text with
  | error e => rfl
  | ok is =>
    obtain ⟨w, -, hwidth⟩ := exists_width_of_readLines his
    cases is with
    | nil => rfl
    | cons i is =>
      have hall : ∀ q < w, q ∈ SortedSet.ofList (List.range i.paulis.length) := fun q hq => by
        rw [SortedSet.mem_ofList, List.mem_range, hwidth i List.mem_cons_self]
        exact hq
      have hblocks : (i :: is).flatMap (Instruction.rotations true) =
          (renumber ((i :: is).flatMap (Instruction.rotations false))).flatMap
            (eliminateY (SortedSet.ofList (List.range i.paulis.length))) := by
        rw [flatMap_renumber fun r => rfl, List.flatMap_assoc]
        refine List.flatMap_congr fun j hj => ?_
        rw [rotations_true_eq_eliminateY fun q hq => hall q (hwidth j hj ▸ hq)]
        exact (List.flatMap_singleton _ j.rotation).symm
      show Except.ok (ofRotations name (renumber ((i :: is).flatMap (Instruction.rotations true))) _) = _
      rw [hblocks]
      rfl

/-- An even and an odd number of Y, a line without Y and a blank line between them. -/
def mixedText : String := "Rotate -1: YXY\n\n Measure +: IZX\r\nRotate 3: IYZ"

/-- The first instruction becomes five rotations and the last one three, whether that is done while
reading or afterwards. -/
theorem mixedText_splitY : ∃ c c', ofText "mixed" mixedText false = .ok c ∧ c.rotations.length = 3 ∧
    ofText "mixed" mixedText true = .ok c' ∧ c' = c.withoutY c.qubits ∧ c'.rotations.length = 9 ∧
    (∀ r ∈ c'.rotations, r.y = ∅) ∧ c'.withoutY ∅ = c' := by
  have hrun : (ofText "mixed" mixedText false).toOption.any (fun c =>
      c.rotations.length == 3 && (c.withoutY c.qubits).rotations.length == 9) = true := by
    decide +kernel
  obtain ⟨c, hc, hrun⟩ := exists_of_any_toOption hrun
  rw [Bool.and_eq_true, beq_iff_eq, beq_iff_eq] at hrun
  obtain ⟨hsplit, hnormal⟩ := ofText_splitY "mixed" mixedText
  refine ⟨c, c.withoutY c.qubits, hc, hrun.1, ?_, rfl, hrun.2, (hnormal c c.qubits ∅).1,
    (hnormal c c.qubits ∅).2⟩
  rw [hsplit, hc]
  rfl

end Circuit

end LatticeSurgery
