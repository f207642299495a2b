import LatticeSurgery.Proofs.Circuit.Grammar
import LatticeSurgery.Proofs.Circuit.Preparation

/-!
# Circuit texts

The lines of a circuit text that are not blank carry one instruction each, and all Pauli strings have
the same length (`Circuit.Reads`). Reading a text succeeds exactly on such texts, and the circuit has one
rotation for each instruction (`Circuit.ofText_of_reads`); otherwise the first line that spoils the text
is reported (`Circuit.ofText_of_refused`).
-/

namespace LatticeSurgery

open Text

/-! ## What an instruction stands for -/

namespace Instruction

variable {i : Instruction} {r r' : Rotation}

/-- The rotation is the one that the instruction stands for, whatever its number is. -/
structure Means (i : Instruction) (r : Rotation) : Prop where
  pi8 : r.kind = .pi8 ↔ ∃ n ps, i = .rotate n ps ∧ (n = 1 ∨ n = -1)
  pi4 : r.kind = .pi4 ↔ ∃ n ps, i = .rotate n ps ∧ n ≠ 1 ∧ n ≠ -1
  measurement : r.kind = .measurement ↔ ∃ s ps, i = .measure s ps
  minus : r.sign = .minus ↔ (∃ n ps, i = .rotate n ps ∧ n < 0) ∨ ∃ ps, i = .measure .minus ps
  x : ∀ q, q ∈ r.x ↔ i.paulis[q]? = some .X
  y : ∀ q, q ∈ r.y ↔ i.paulis[q]? = some .Y
  z : ∀ q, q ∈ r.z ↔ i.paulis[q]? = some .Z

theorem means_rotation (i : Instruction) (k : Nat) : i.Means { i.rotation with index := k } := by
  refine ⟨?_, ?_, ?_, ?_, fun q => mem_qubitsWith, fun q => mem_qubitsWith, fun q => mem_qubitsWith⟩
  all_goals
    cases i with
    | rotate n ps =>
      by_cases hn : n = 1 ∨ n = -1 <;> simp [rotation, Rotation.unnumbered, kind, sign, hn] <;> omega
    | measure s ps => simp [rotation, Rotation.unnumbered, kind, sign]

/-- An instruction determines the rotation but for its number. -/
theorem Means.unique (h : i.Means r) (h' : i.Means r') (hindex : r.index = r'.index) : r = r' := by
  have hkind : r.kind = r'.kind := by
    have h₁ := h.pi8.trans h'.pi8.symm
    have h₂ := h.pi4.trans h'.pi4.symm
    have h₃ := h.measurement.trans h'.measurement.symm
    generalize r.kind = a at h₁ h₂ h₃ ⊢
    generalize r'.kind = b at h₁ h₂ h₃ ⊢
    cases a <;> cases b <;> simp at h₁ h₂ h₃ ⊢
  have hsign : r.sign = r'.sign := by
    have hminus := h.minus.trans h'.minus.symm
    generalize r.sign = a at hminus ⊢
    generalize r'.sign = b at hminus ⊢
    cases a <;> cases b <;> simp at hminus ⊢
  have hx : r.x = r'.x := SortedSet.ext_mem fun q => (h.x q).trans (h'.x q).symm
  have hy : r.y = r'.y := SortedSet.ext_mem fun q => (h.y q).trans (h'.y q).symm
  have hz : r.z = r'.z := SortedSet.ext_mem fun q => (h.z q).trans (h'.z q).symm
  cases r
  cases r'
  subst hindex hkind hsign hx hy hz
  rfl

end Instruction

namespace Circuit

variable {ls pre post : List (List Char × Nat)} {is : List Instruction} {n k : Nat}
  {width : Option Nat} {line : List Char}

/-! ## Reading lines -/

/-- Lines with an instruction each, all of the same width. -/
structure Reads (n : Nat) (ls : List (List Char × Nat)) (is : List Instruction) : Prop where
  written : List.Forall₂ (fun l i => Instruction.Written i l.1) ls is
  width : ∀ i ∈ is, i.paulis.length = n

/-- The lines that are not blank. -/
def filled (ls : List (List Char × Nat)) : List (List Char × Nat) :=
  ls.filter fun l => !l.1.all isBlank

theorem readLines_filled (width : Option Nat) (ls : List (List Char × Nat)) :
    readLines width (filled ls) = readLines width ls := by
  induction ls generalizing width with
  | nil => rfl
  | cons l ls ih =>
    obtain ⟨line, k⟩ := l
    by_cases hblank : line.all isBlank = true
    · have hfilled : filled ((line, k) :: ls) = filled ls := by simp [filled, hblank]
      rw [hfilled, ih]
      show _ = readLines width ((line, k) :: ls)
      rw [readLines, if_pos hblank]
    · have hfilled : filled ((line, k) :: ls) = (line, k) :: filled ls := by simp [filled, hblank]
      rw [hfilled, readLines, readLines, if_neg hblank, if_neg hblank]
      simp only [ih]

theorem reads_nil (n : Nat) : Reads n [] [] := ⟨.nil, fun _ h => by cases h⟩

/-- A line with an instruction is read, if the width is right. -/
theorem readLines_cons {i : Instruction} (hi : i.Written line) (k : Nat)
    (ls : List (List Char × Nat)) : readLines width ((line, k) :: ls) =
      if width.getD i.paulis.length ≠ i.paulis.length then
        .error (.qubitCountMismatch k (width.getD i.paulis.length) i.paulis.length)
      else (readLines (some i.paulis.length) ls).map (i :: ·) := by
  have hblank : ¬ line.all isBlank = true := by
    rw [List.all_eq_true]
    exact hi.not_blank
  rw [readLines, if_neg hblank, Instruction.ofLine?_eq_some_iff.2 hi]
  dsimp only
  split
  · rfl
  · next hwidth =>
    rw [ne_eq, not_not] at hwidth
    rw [hwidth]
    cases readLines (some i.paulis.length) ls <;> rfl

/-- A line that is not blank and has no instruction on it stops the reading. -/
theorem readLines_cons_of_malformed (hblank : ¬ line.all isBlank = true)
    (hline : ∀ i : Instruction, ¬ i.Written line) (k : Nat) (ls : List (List Char × Nat)) :
    readLines width ((line, k) :: ls) = .error (.malformed k (String.ofList line)) := by
  rw [readLines, if_neg hblank, Instruction.ofLine?_eq_none_iff.2 hline]

/-- Lines that can be read are read before the others. -/
theorem readLines_append (h : Reads n pre is) (hwidth : width.getD n = n)
    (post : List (List Char × Nat)) : readLines width (pre ++ post) =
      (readLines (if pre = [] then width else some n) post).map (is ++ ·) := by
  obtain ⟨hwritten, hn⟩ := h
  induction hwritten generalizing width with
  | nil =>
    rw [if_pos rfl]
    show readLines width post = _
    cases readLines width post <;> rfl
  | @cons l i ls is hi _ ih =>
    obtain ⟨line, k⟩ := l
    have hi' := hn i List.mem_cons_self
    rw [List.cons_append, readLines_cons hi, hi', hwidth, if_neg (fun h => h rfl),
      ih rfl fun j hj => hn j (List.mem_cons_of_mem _ hj), if_neg (List.cons_ne_nil _ _)]
    have hrest : (if ls = [] then some n else some n) = some n := ite_self _
    rw [hrest]
    cases readLines (some n) post <;> rfl

/-- Why lines that are not blank are not accepted: the first line that spoils them. -/
inductive Refused (ls : List (List Char × Nat)) : CircuitError → Prop
  /-- There are no lines. -/
  | empty (lines : ls = []) : Refused ls .empty
  /-- A line has no instruction, and those before it are as they should be. -/
  | malformed {n : Nat} {pre post : List (List Char × Nat)} {is : List Instruction}
      {line : List Char} {k : Nat} (lines : ls = pre ++ (line, k) :: post) (before : Reads n pre is)
      (unwritten : ∀ i : Instruction, ¬ i.Written line) :
      Refused ls (.malformed k (String.ofList line))
  /-- The Pauli string of a line has another length than those before it. -/
  | qubitCountMismatch {n : Nat} {pre post : List (List Char × Nat)} {is : List Instruction}
      {line : List Char} {k : Nat} {i : Instruction} (lines : ls = pre ++ (line, k) :: post)
      (before : Reads n pre is) (ne : pre ≠ []) (written : i.Written line)
      (length : i.paulis.length ≠ n) : Refused ls (.qubitCountMismatch k n i.paulis.length)

theorem Reads.append_singleton {i : Instruction} (h : Reads n ls is) (hi : i.Written line)
    (hn : i.paulis.length = n) (k : Nat) : Reads n (ls ++ [(line, k)]) (is ++ [i]) :=
  ⟨List.rel_append h.written (.cons hi .nil), fun j hj => by
    rcases List.mem_append.1 hj with hj | hj
    · exact h.width j hj
    · rw [List.mem_singleton.1 hj, hn]⟩

theorem Reads.eq_nil_iff (h : Reads n ls is) : is = [] ↔ ls = [] := by
  rw [← List.length_eq_zero_iff, ← List.length_eq_zero_iff, h.written.length_eq]

/-- Lines are as they should be, or the first one that is not spoils them. -/
theorem reads_or_refused (ls : List (List Char × Nat)) :
    (∃ n is, is ≠ [] ∧ Reads n ls is) ∨ ∃ e, Refused ls e := by
  induction ls using List.reverseRecOn with
  | nil => exact Or.inr ⟨_, .empty rfl⟩
  | append_singleton ls l ih =>
    obtain ⟨line, k⟩ := l
    have hread : ∀ n is, Reads n ls is → (ls = [] ∨ is ≠ []) →
        (∃ n is, is ≠ [] ∧ Reads n (ls ++ [(line, k)]) is) ∨ ∃ e, Refused (ls ++ [(line, k)]) e := by
      intro n is h hne
      by_cases hline : ∃ i : Instruction, i.Written line
      · obtain ⟨i, hi⟩ := hline
        by_cases hn : i.paulis.length = n
        · exact Or.inl ⟨n, is ++ [i], by simp, h.append_singleton hi hn k⟩
        · rcases hne with rfl | hne
          · obtain rfl := h.eq_nil_iff.2 rfl
            exact Or.inl ⟨i.paulis.length, [i], by simp, (reads_nil _).append_singleton hi rfl k⟩
          · exact Or.inr ⟨_, .qubitCountMismatch rfl h (fun h' => hne (h.eq_nil_iff.2 h')) hi hn⟩
      · exact Or.inr ⟨_, .malformed rfl h fun i hi => hline ⟨i, hi⟩⟩
    rcases ih with ⟨n, is, hne, h⟩ | ⟨e, h⟩
    · exact hread n is h (Or.inr hne)
    · -- what spoils the lines before also spoils all of them
      cases h with
      | empty lines =>
        subst lines
        exact hread 0 [] (reads_nil 0) (Or.inl rfl)
      | malformed lines before unwritten =>
        exact Or.inr ⟨_, .malformed (by rw [lines, List.append_assoc]; rfl) before unwritten⟩
      | qubitCountMismatch lines before ne written length =>
        exact Or.inr ⟨_, .qubitCountMismatch (by rw [lines, List.append_assoc]; rfl) before ne
          written length⟩

theorem readLines_of_reads (h : Reads n ls is) : readLines none ls = .ok is := by
  have hread : readLines none (ls ++ []) = _ := readLines_append h rfl []
  rw [List.append_nil] at hread
  rw [hread, readLines]
  show Except.ok (is ++ []) = _
  rw [List.append_nil]

/-! ## Texts -/

/-- The lines of a text that are not blank, with their numbers. -/
def filledLines (text : String) : List (List Char × Nat) :=
  filled ((lines text.toList).zipIdx 1)

theorem instructions_eq (text : String) : instructions text = readLines none (filledLines text) :=
  (readLines_filled none _).symm

variable {name text : String}

theorem ofText_of_reads (h : Reads n (filledLines text) is) (hne : is ≠ []) :
    ofText name text false =
      .ok (ofRotations name (renumber (is.map Instruction.rotation)) n) := by
  have hinstructions : instructions text = .ok is :=
    (instructions_eq text).trans (readLines_of_reads h)
  cases is with
  | nil => exact absurd rfl hne
  | cons i is =>
    unfold ofText
    rw [hinstructions]
    show Except.ok (ofRotations name (renumber ((i :: is).flatMap fun i => [i.rotation])) _) = _
    rw [h.width i List.mem_cons_self, ← List.map_eq_flatMap]

theorem ofText_of_refused {e : CircuitError} (h : Refused (filledLines text) e) :
    ofText name text false = .error e := by
  have herror : ∀ e, readLines none (filledLines text) = .error e →
      ofText name text false = .error e := by
    intro e he
    rw [← instructions_eq] at he
    unfold ofText
    rw [he]
    rfl
  cases h with
  | empty lines =>
    have hinstructions : instructions text = .ok [] := by
      rw [instructions_eq, lines]
      rfl
    unfold ofText
    rw [hinstructions]
    rfl
  | @malformed n pre post is line k lines before unwritten =>
    have hfilled : (line, k) ∈ filledLines text := by simp [lines]
    have hblank : ¬ line.all isBlank = true := by simpa using (List.mem_filter.1 hfilled).2
    refine herror _ ?_
    rw [lines, readLines_append before rfl, readLines_cons_of_malformed hblank unwritten]
    rfl
  | @qubitCountMismatch n pre post is line k i lines before ne written length =>
    refine herror _ ?_
    rw [lines, readLines_append before rfl, if_neg ne, readLines_cons written]
    show Except.map _ (if n ≠ i.paulis.length then _ else _) = _
    rw [if_pos (Ne.symm length)]
    rfl

/-- Rotations that are numbered are those for which the instructions stand. -/
theorem eq_renumber_of_means {rs : List Rotation} (h : List.Forall₂ Instruction.Means is rs)
    (hindex : ∀ (k : Nat) (r : Rotation), rs[k]? = some r → r.index = k) :
    rs = renumber (is.map Instruction.rotation) := by
  refine List.ext_getElem? fun k => ?_
  rw [getElem?_renumber, List.getElem?_map, Option.map_map]
  cases hr : rs[k]? with
  | none =>
    have hlength : is[k]? = none := by
      rw [List.getElem?_eq_none_iff, h.length_eq]
      exact List.getElem?_eq_none_iff.1 hr
    rw [hlength]
    rfl
  | some r =>
    obtain ⟨hk, hget⟩ := List.getElem?_eq_some_iff.1 hr
    have hk' : k < is.length := h.length_eq ▸ hk
    have hmeans : is[k].Means r := hget ▸ h.get hk' hk
    rw [List.getElem?_eq_getElem hk']
    exact congrArg some (hmeans.unique (Instruction.means_rotation _ k) (hindex k r hr))

theorem means_renumber (is : List Instruction) :
    List.Forall₂ Instruction.Means is (renumber (is.map Instruction.rotation)) := by
  refine List.forall₂_iff_get.2 ⟨by simp [renumber], fun k hk hk' => ?_⟩
  have hget := getElem?_renumber (is.map Instruction.rotation) k
  rw [List.getElem?_eq_getElem hk', List.getElem?_map, List.getElem?_eq_getElem hk] at hget
  rw [List.get_eq_getElem, List.get_eq_getElem, Option.some.inj hget]
  exact Instruction.means_rotation _ k

/-- What is read from a text: as many qubits as the Pauli strings are long, each on the patch with its
number, and the rotation of each instruction, in order. -/
structure Transcribes (name : String) (n : Nat) (is : List Instruction) (c : Circuit) : Prop where
  name : c.name = name
  numQubits : c.numQubits = n
  assignments : c.assignments = identityPlacement n
  numbered : c.Numbered
  rotations : List.Forall₂ Instruction.Means is c.rotations

theorem transcribes_iff {c : Circuit} : Transcribes name n is c ↔
    c = ofRotations name (renumber (is.map Instruction.rotation)) n := by
  constructor
  · rintro ⟨hname, hn, hassignments, hnumbered, hrotations⟩
    cases c
    dsimp only at hname hn hassignments hrotations
    subst hname hn hassignments
    rw [eq_renumber_of_means hrotations hnumbered]
    rfl
  · rintro rfl
    refine ⟨rfl, rfl, rfl, fun k r hr => ?_, means_renumber is⟩
    obtain ⟨r', -, rfl⟩ := Option.map_eq_some_iff.1 ((getElem?_renumber _ k).symm.trans hr)
    rfl

end Circuit

end LatticeSurgery
