import LatticeSurgery.Proofs.Circuit.Texts

/-!
# Rotations written as a text

Every proper rotation can be written as an instruction, and a list of rotations as a text with a line for
each. Reading such a text gives the rotations back. With this, all is said about the texts that are read:
which ones are, to what circuit, and why the others are not (`Circuit.ofText_spec`).
-/

namespace LatticeSurgery

open Text

/-! ## Instructions -/

theorem Numeral.writes_toString (n : Int) : Numeral.Writes (toString n).toList n := by
  have hdigits : ∀ m : Nat, Numeral.Digits (Nat.toDigits 10 m) ∧
      Numeral.value (Nat.toDigits 10 m) = m := fun m =>
    ⟨⟨Nat.toDigits_ne_nil, fun c hc => Nat.isDigit_of_mem_toDigits (by decide) (by decide) hc⟩,
      Nat.ofDigitChars_eq_foldl.symm.trans Nat.ofDigitChars_ten_toDigits⟩
  have htext : (toString n).toList =
      if 0 ≤ n then Nat.toDigits 10 n.toNat else '-' :: Nat.toDigits 10 (-n).toNat := by
    show n.repr.toList = _
    rw [Int.repr_eq_if]
    split <;> simp [Nat.repr_eq_ofList_toDigits]
  rw [htext]
  split
  · next hn =>
    obtain ⟨hd, hvalue⟩ := hdigits n.toNat
    have hwrites := Numeral.Writes.unsigned hd
    rwa [hvalue, Int.toNat_of_nonneg hn] at hwrites
  · next hn =>
    obtain ⟨hd, hvalue⟩ := hdigits (-n).toNat
    have hwrites := Numeral.Writes.minus hd
    rwa [hvalue, Int.toNat_of_nonneg (by omega), neg_neg] at hwrites

/-- Numbers are written with digits and signs. -/
theorem Numeral.Writes.mem {numeral : List Char} {n : Int} (h : Numeral.Writes numeral n) {c : Char}
    (hc : c ∈ numeral) : c.isDigit = true ∨ c = '+' ∨ c = '-' := by
  cases h with
  | unsigned h => exact Or.inl (h.2 c hc)
  | plus h => exact (List.mem_cons.1 hc).elim (fun hc => Or.inr (Or.inl hc)) fun hc => Or.inl (h.2 c hc)
  | minus h => exact (List.mem_cons.1 hc).elim (fun hc => Or.inr (Or.inr hc)) fun hc => Or.inl (h.2 c hc)

namespace Text

/-- A line feed ends the line that was read so far. -/
theorem linesFrom_append {l : List Char} (hl : '\n' ∉ l) (line rest : List Char) :
    linesFrom line (l ++ '\n' :: rest) = dropReturn (line ++ l) :: linesFrom [] rest := by
  induction l generalizing line with
  | nil => rw [List.nil_append, linesFrom, List.append_nil]
  | cons c l ih =>
    rw [List.mem_cons, not_or] at hl
    rw [List.cons_append, linesFrom, ih hl.2, List.append_assoc]
    · rfl
    · exact fun h => hl.1 h.symm

/-- The text has no character that ends a line. -/
def OneLine (l : List Char) : Prop := ∀ c ∈ l, c ≠ '\n' ∧ c ≠ '\r'

instance (l : List Char) : Decidable (OneLine l) := List.decidableBAll _ l

theorem OneLine.append {l l' : List Char} (h : OneLine l) (h' : OneLine l') : OneLine (l ++ l') :=
  fun c hc => (List.mem_append.1 hc).elim (h c) (h' c)

/-- Lines that are each ended by a line feed. -/
theorem lines_flatMap {ls : List (List Char)} (hls : ∀ l ∈ ls, OneLine l) :
    lines (ls.flatMap (· ++ ['\n'])) = ls := by
  induction ls with
  | nil => rfl
  | cons l ls ih =>
    have hline := hls l List.mem_cons_self
    have hdrop : dropReturn l = l := if_neg fun h => (hline _ (List.mem_of_getLast? h)).2 rfl
    rw [List.flatMap_cons, List.append_assoc, lines]
    show linesFrom [] (l ++ '\n' :: ls.flatMap (· ++ ['\n'])) = _
    rw [linesFrom_append fun h => (hline _ h).1 rfl, List.nil_append, hdrop]
    exact congrArg _ (ih fun l hl => hls l (List.mem_cons_of_mem _ hl))

end Text

namespace Instruction

/-- The instruction as a line. -/
def text : Instruction → String
  | rotate n ps => "Rotate " ++ (toString n ++ (": " ++ String.ofList (ps.map Pauli.toChar)))
  | measure s ps => "Measure " ++ (s.text ++ (": " ++ String.ofList (ps.map Pauli.toChar)))

theorem toList_text_rotate (n : Int) (ps : List Pauli) : (text (.rotate n ps)).toList =
    "Rotate".toList ++ ([' '] ++ ((toString n).toList ++ (": ".toList ++ ps.map Pauli.toChar))) := by
  simp only [text, String.toList_append, String.toList_ofList]
  rfl

theorem toList_text_measure (s : Sign) (ps : List Pauli) : (text (.measure s ps)).toList =
    "Measure".toList ++ ([' '] ++ (s.text.toList ++ (": ".toList ++ ps.map Pauli.toChar))) := by
  simp only [text, String.toList_append, String.toList_ofList]
  rfl

theorem blank_nil : Blank [] := fun _ hc => absurd hc List.not_mem_nil

theorem blank_space : Blank [' '] := fun c hc => by
  rw [List.mem_singleton.1 hc]
  decide

theorem argument_text {ps : List Pauli} (hps : ps ≠ []) :
    Argument ps (": ".toList ++ ps.map Pauli.toChar) := by
  have h : Argument ps ([] ++ ([':'] ++ ([' '] ++ (ps.map Pauli.toChar ++ [])))) :=
    .mk blank_nil blank_space blank_nil hps
  rwa [List.append_nil] at h

theorem written_text {i : Instruction} (hps : i.paulis ≠ [])
    (hfits : ∀ n ps, i = .rotate n ps → -2 ^ 63 ≤ n ∧ n < 2 ^ 63) : i.Written i.text.toList := by
  cases i with
  | rotate n ps =>
    rw [toList_text_rotate]
    exact .rotate blank_nil blank_space (Numeral.writes_toString n) (hfits n ps rfl)
      (argument_text hps)
  | measure s ps =>
    rw [toList_text_measure]
    exact .measure blank_nil blank_space (argument_text hps)

/-- An instruction takes one line. -/
theorem oneLine_text (i : Instruction) : OneLine i.text.toList := by
  have hpaulis : ∀ ps : List Pauli, OneLine (ps.map Pauli.toChar) := by
    intro ps c hc
    obtain ⟨p, -, rfl⟩ := List.mem_map.1 hc
    cases p <;> decide
  have hnumber : ∀ n : Int, OneLine (toString n).toList := by
    intro n c hc
    rcases (Numeral.writes_toString n).mem hc with hdigit | rfl | rfl
    · constructor <;> rintro rfl <;> exact absurd hdigit (by decide)
    · decide
    · decide
  have hsign : ∀ s : Sign, OneLine s.text.toList := by
    intro s
    cases s <;> decide
  have hspace : OneLine [' '] := by decide
  have hcolon : OneLine ": ".toList := by decide
  cases i with
  | rotate n ps =>
    have hword : OneLine "Rotate".toList := by decide
    rw [toList_text_rotate]
    exact hword.append (hspace.append ((hnumber n).append (hcolon.append (hpaulis ps))))
  | measure s ps =>
    have hword : OneLine "Measure".toList := by decide
    rw [toList_text_measure]
    exact hword.append (hspace.append ((hsign s).append (hcolon.append (hpaulis ps))))

end Instruction

namespace Rotation

/-- The letter of a qubit in the Pauli string of a rotation. -/
def letter (r : Rotation) (q : Nat) : Pauli :=
  if q ∈ r.x then .X else if q ∈ r.y then .Y else if q ∈ r.z then .Z else .I

/-- The integer by which a rotation that is not a measurement is written. -/
def multiple (r : Rotation) : Int :=
  match r.kind, r.sign with
  | .pi8, .plus => 1
  | .pi8, .minus => -1
  | _, .plus => 2
  | _, .minus => -2

/-- An instruction for a rotation on some of the first `n` qubits. -/
def instruction (n : Nat) (r : Rotation) : Instruction :=
  match r.kind with
  | .measurement => .measure r.sign ((List.range n).map r.letter)
  | _ => .rotate r.multiple ((List.range n).map r.letter)

variable {r : Rotation} {n q : Nat}

theorem paulis_instruction (n : Nat) (r : Rotation) :
    (r.instruction n).paulis = (List.range n).map r.letter := by
  unfold instruction
  split <;> rfl

theorem Proper.letter_eq_iff (h : r.Proper) (q : Nat) :
    (r.letter q = .X ↔ q ∈ r.x) ∧ (r.letter q = .Y ↔ q ∈ r.y) ∧ (r.letter q = .Z ↔ q ∈ r.z) := by
  have hxy := h.xy q
  have hxz := h.xz q
  have hyz := h.yz q
  unfold letter
  by_cases hx : q ∈ r.x <;> by_cases hy : q ∈ r.y <;> by_cases hz : q ∈ r.z <;> simp_all

/-- The instruction for a proper rotation stands for it. -/
theorem Proper.means_instruction (h : r.Proper) (hn : ∀ q ∈ r.activeQubits, q < n) :
    (r.instruction n).Means r := by
  have hletter : ∀ (s : SortedSet Nat) (p : Pauli), (∀ q ∈ s, q ∈ r.activeQubits) →
      (∀ q, r.letter q = p ↔ q ∈ s) → ∀ q, q ∈ s ↔ (r.instruction n).paulis[q]? = some p := by
    intro s p hs hp q
    rw [paulis_instruction, List.getElem?_map, Option.map_eq_some_iff]
    constructor
    · exact fun hq => ⟨q, List.getElem?_range (hn q (hs q hq)), (hp q).2 hq⟩
    · rintro ⟨q', hq', hletter⟩
      obtain ⟨hlt, rfl⟩ := List.getElem?_eq_some_iff.1 hq'
      rw [List.getElem_range] at hletter
      exact (hp q).1 hletter
  refine ⟨?_, ?_, ?_, ?_,
    hletter r.x .X (fun q hq => mem_activeQubits.2 (Or.inl hq)) fun q => (h.letter_eq_iff q).1,
    hletter r.y .Y (fun q hq => mem_activeQubits.2 (Or.inr (Or.inl hq))) fun q =>
      (h.letter_eq_iff q).2.1,
    hletter r.z .Z (fun q hq => mem_activeQubits.2 (Or.inr (Or.inr hq))) fun q =>
      (h.letter_eq_iff q).2.2⟩
  all_goals
    have hkind := h.kind
    unfold instruction multiple
    cases hk : r.kind <;> cases hs : r.sign <;> simp_all

end Rotation

/-! ## Texts -/

namespace Circuit

/-- Rotations on the first `n` qubits as a text, with a line for each. -/
def textOf (n : Nat) (rs : List Rotation) : String :=
  String.ofList ((rs.map fun r => (r.instruction n).text.toList).flatMap (· ++ ['\n']))

variable {n : Nat} {rs : List Rotation} {r : Rotation}

/-- The line of a rotation carries its instruction. -/
theorem written_instruction (hn : 0 < n) (r : Rotation) :
    (r.instruction n).Written (r.instruction n).text.toList := by
  refine Instruction.written_text ?_ fun k ps hk => ?_
  · rw [Rotation.paulis_instruction, ne_eq, List.map_eq_nil_iff, List.range_eq_nil]
    omega
  · have hmultiple : -2 ≤ r.multiple ∧ r.multiple ≤ 2 := by
      unfold Rotation.multiple
      split <;> decide
    unfold Rotation.instruction at hk
    split at hk <;> cases hk
    omega

theorem filledLines_textOf (hn : 0 < n) (rs : List Rotation) : filledLines (textOf n rs) =
    (rs.map fun r => (r.instruction n).text.toList).zipIdx 1 := by
  have hlines : lines (textOf n rs).toList = rs.map fun r => (r.instruction n).text.toList := by
    rw [textOf, String.toList_ofList]
    refine lines_flatMap fun l hl => ?_
    obtain ⟨r, -, rfl⟩ := List.mem_map.1 hl
    exact (r.instruction n).oneLine_text
  rw [filledLines, hlines, filled, List.filter_eq_self]
  rintro ⟨line, k⟩ hline
  obtain ⟨r, -, rfl⟩ := List.mem_map.1 (List.fst_mem_of_mem_zipIdx hline)
  have hblank := (written_instruction hn r).not_blank
  rw [Blank, ← List.all_eq_true] at hblank
  simpa using hblank

theorem reads_textOf (hn : 0 < n) (rs : List Rotation) :
    Reads n (filledLines (textOf n rs)) (rs.map (Rotation.instruction n)) := by
  refine ⟨?_, fun i hi => ?_⟩
  · rw [filledLines_textOf hn]
    generalize 1 = k
    induction rs generalizing k with
    | nil => exact .nil
    | cons r rs ih => exact .cons (written_instruction hn r) (ih (k + 1))
  · obtain ⟨r, -, rfl⟩ := List.mem_map.1 hi
    rw [Rotation.paulis_instruction, List.length_map, List.length_range]

/-- Rotations are read from the text as which they are written. -/
theorem ofText_textOf (name : String) (hn : 0 < n) (hne : rs ≠ [])
    (hrs : ∀ r ∈ rs, r.Proper ∧ ∀ q ∈ r.activeQubits, q < n) :
    ofText name (textOf n rs) false = .ok (ofRotations name (renumber rs) n) := by
  have hunindexed : ((rs.map (Rotation.instruction n)).map Instruction.rotation).map
      Rotation.unindexed = rs.map Rotation.unindexed := by
    rw [List.map_map, List.map_map]
    refine List.map_congr_left fun r hr => ?_
    have hmeans := (hrs r hr).1.means_instruction (hrs r hr).2
    have hmeans' : (r.instruction n).Means r.unindexed :=
      ⟨hmeans.pi8, hmeans.pi4, hmeans.measurement, hmeans.minus, hmeans.x, hmeans.y, hmeans.z⟩
    exact (Instruction.means_rotation _ 0).unique hmeans' rfl
  rw [ofText_of_reads (reads_textOf hn rs) (by simpa using hne), renumber_congr hunindexed]

/-- Which texts are read, to what circuit, and why the others are not. Rotations on the same qubits can
be written as a text from which they are read. -/
theorem ofText_spec (name text : String) :
    (∀ c, ofText name text false = .ok c ↔
      ∃ n is, is ≠ [] ∧ Reads n (filledLines text) is ∧ Transcribes name n is c) ∧
    (∀ e, ofText name text false = .error e ↔ Refused (filledLines text) e) ∧
    ∀ (n : Nat) (rs : List Rotation), 0 < n → rs ≠ [] →
      (∀ r ∈ rs, r.Proper ∧ ∀ q ∈ r.activeQubits, q < n) →
      ofText name (textOf n rs) false = .ok (ofRotations name (renumber rs) n) := by
  refine ⟨fun c => ⟨fun h => ?_, ?_⟩, fun e => ⟨fun h => ?_, ofText_of_refused⟩,
    fun n rs => ofText_textOf name⟩
  · rcases reads_or_refused (filledLines text) with ⟨n, is, hne, hreads⟩ | ⟨e, hrefused⟩
    · refine ⟨n, is, hne, hreads, transcribes_iff.2 ?_⟩
      exact Except.ok.inj (h.symm.trans (ofText_of_reads hreads hne))
    · cases h.symm.trans (ofText_of_refused hrefused)
  · rintro ⟨n, is, hne, hreads, hc⟩
    rw [transcribes_iff.1 hc]
    exact ofText_of_reads hreads hne
  · rcases reads_or_refused (filledLines text) with ⟨n, is, hne, hreads⟩ | ⟨e', hrefused⟩
    · cases h.symm.trans (ofText_of_reads hreads hne)
    · rwa [Except.error.inj (h.symm.trans (ofText_of_refused hrefused))]

/-- A rotation by π/8, one by π/4 and a measurement. -/
def writtenRotations : List Rotation :=
  [.unnumbered .pi8 .minus (.ofList [0]) (.ofList [3]) (.ofList [1]),
    .unnumbered .pi4 .plus ∅ (.ofList [0, 2]) ∅,
    .unnumbered .measurement .minus (.ofList [2]) ∅ (.ofList [0, 3])]

/-- They are read from their text. -/
theorem writtenRotations_read : 0 < 4 ∧ writtenRotations ≠ [] ∧
    (∀ r ∈ writtenRotations, r.Proper ∧ ∀ q ∈ r.activeQubits, q < 4) ∧
    textOf 4 writtenRotations = "Rotate -1: XZIY\nRotate 2: YIYI\nMeasure -: ZIXZ\n" ∧
    ofText "written" "Rotate -1: XZIY\nRotate 2: YIYI\nMeasure -: ZIXZ\n" false =
      .ok (ofRotations "written" (renumber writtenRotations) 4) := by
  have hne : writtenRotations ≠ [] := List.cons_ne_nil _ _
  have hlt : ∀ r ∈ writtenRotations, ∀ q ∈ r.activeQubits.toList, q < 4 := by decide
  have hproper : ∀ r ∈ writtenRotations, r.Proper := by decide
  have hrs : ∀ r ∈ writtenRotations, r.Proper ∧ ∀ q ∈ r.activeQubits, q < 4 :=
    fun r hr => ⟨hproper r hr, hlt r hr⟩
  have htext : textOf 4 writtenRotations =
      "Rotate -1: XZIY\nRotate 2: YIYI\nMeasure -: ZIXZ\n" := by decide +kernel
  refine ⟨by decide, hne, hrs, htext, ?_⟩
  rw [← htext]
  exact (ofText_spec "written" (textOf 4 writtenRotations)).2.2 4 writtenRotations (by decide) hne hrs

end Circuit

end LatticeSurgery
