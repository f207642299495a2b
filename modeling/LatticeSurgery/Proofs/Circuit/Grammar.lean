import LatticeSurgery.Proofs.Circuit.Reading
import Mathlib.Data.List.TakeWhile

/-!
# The grammar of a line

An instruction is written as a word, a number or a sign, a colon and a Pauli string, with blank characters
around all of them (`Instruction.Written`). Reading a line finds exactly the instruction that is written
on it (`Instruction.ofLine?_eq_some_iff`). Each part of a line is read as far as it goes, so the lemmas on
the parts say with which characters the rest cannot begin (`Text.Stops`).
-/

namespace LatticeSurgery

namespace Text

/-- All characters are blank. -/
def Blank (cs : List Char) : Prop := ∀ c ∈ cs, isBlank c = true

/-- The text does not begin with a character of a class. -/
def Stops (p : Char → Bool) (cs : List Char) : Prop := ∀ c ∈ cs.head?, p c = false

variable {b b' cs cs' w rest : List Char} {p : Char → Bool} {c : Char}

@[simp] theorem stops_nil : Stops p [] := fun _ h => by cases h

@[simp] theorem stops_cons : Stops p (c :: cs) ↔ p c = false := by simp [Stops]

theorem stops_append (hw : w ≠ []) : Stops p (w ++ rest) ↔ Stops p w := by
  cases w with
  | nil => exact absurd rfl hw
  | cons c w => simp

theorem stops_dropWhile (p : Char → Bool) (cs : List Char) : Stops p (cs.dropWhile p) := by
  intro c hc
  have h := List.head?_dropWhile_not p cs
  rw [Option.mem_def.1 hc] at h
  simpa using h

theorem dropWhile_eq_self (h : Stops p cs) : cs.dropWhile p = cs := by
  cases cs with
  | nil => rfl
  | cons c cs => rw [List.dropWhile_cons_of_neg (by simpa using h)]

theorem takeWhile_eq_nil (h : Stops p cs) : cs.takeWhile p = [] := by
  cases cs with
  | nil => rfl
  | cons c cs => rw [List.takeWhile_cons_of_neg (by simpa using h)]

/-- The blank characters at the start of a text. -/
theorem exists_blank (cs : List Char) : ∃ b, Blank b ∧ cs = b ++ skipBlank cs :=
  ⟨cs.takeWhile isBlank, fun _ hc => List.mem_takeWhile_imp hc, List.takeWhile_append_dropWhile.symm⟩

theorem skipBlank_append (hb : Blank b) (hcs : Stops isBlank cs) : skipBlank (b ++ cs) = cs := by
  rw [skipBlank, List.dropWhile_append_of_pos hb, dropWhile_eq_self hcs]

theorem skipBlank_eq_nil_iff : skipBlank cs = [] ↔ Blank cs := List.dropWhile_eq_nil_iff

/-- Digits are not blank. -/
theorem isBlank_of_isDigit (h : c.isDigit = true) : isBlank c = false := by
  simp only [Char.isDigit, Bool.and_eq_true, decide_eq_true_eq] at h
  have hrange : 48 ≤ c.toNat ∧ c.toNat ≤ 57 := h
  simp [isBlank, inRanges, blankRanges]
  omega

end Text

open Text

/-! ## Numbers -/

namespace Numeral

variable {cs digits numeral rest : List Char} {n : Int}

/-- Decimal digits, at least one. -/
def Digits (digits : List Char) : Prop := digits ≠ [] ∧ ∀ c ∈ digits, c.isDigit = true

/-- How an integer is written: digits after an optional sign. -/
inductive Writes : List Char → Int → Prop
  | unsigned {digits : List Char} (h : Digits digits) : Writes digits (value digits)
  | plus {digits : List Char} (h : Digits digits) : Writes ('+' :: digits) (value digits)
  | minus {digits : List Char} (h : Digits digits) : Writes ('-' :: digits) (-(value digits))

theorem digits?_eq_some_iff : digits? cs = some (digits, rest) ↔
    cs = digits ++ rest ∧ Digits digits ∧ Stops Char.isDigit rest := by
  constructor
  · intro h
    refine ⟨(digits?_append h).symm, ?_⟩
    unfold digits? at h
    split at h
    · cases h
    · next _ hne =>
      cases h
      exact ⟨⟨hne, fun c hc => List.mem_takeWhile_imp hc⟩, stops_dropWhile _ _⟩
  · rintro ⟨rfl, ⟨hne, hdigit⟩, hstop⟩
    have htake : (digits ++ rest).takeWhile Char.isDigit = digits := by
      rw [List.takeWhile_append_of_pos hdigit, takeWhile_eq_nil hstop, List.append_nil]
    have hdrop : (digits ++ rest).dropWhile Char.isDigit = rest := by
      rw [List.dropWhile_append_of_pos hdigit, dropWhile_eq_self hstop]
    unfold digits?
    rw [htake, hdrop]
    split
    · exact absurd rfl hne
    · rfl

theorem Digits.stops_isBlank (h : Digits digits) : Stops isBlank digits :=
  fun c hc => isBlank_of_isDigit (h.2 c (List.mem_of_mem_head? hc))

theorem Writes.ne_nil (h : Writes numeral n) : numeral ≠ [] := by
  cases h with
  | unsigned h => exact h.1
  | plus h => exact List.cons_ne_nil _ _
  | minus h => exact List.cons_ne_nil _ _

theorem Writes.stops_isBlank (h : Writes numeral n) : Stops isBlank numeral := by
  cases h with
  | unsigned h => exact h.stops_isBlank
  | plus h => exact stops_cons.2 (by decide)
  | minus h => exact stops_cons.2 (by decide)

end Numeral

namespace Pauli

/-- The character stands for a letter of a Pauli string. -/
def isLetter (c : Char) : Bool := (ofChar? c).isSome

theorem toChar_of_ofChar? {c : Char} {p : Pauli} (h : ofChar? c = some p) : p.toChar = c := by
  unfold ofChar? at h
  split at h <;> cases h <;> rfl

theorem isBlank_of_isLetter {c : Char} (h : isLetter c = true) : isBlank c = false := by
  obtain ⟨p, hp⟩ := Option.isSome_iff_exists.1 h
  rw [← toChar_of_ofChar? hp]
  cases p <;> decide

theorem stops_isLetter_of_blank {cs : List Char} (h : Blank cs) : Stops isLetter cs := by
  intro c hc
  by_contra hletter
  rw [Bool.not_eq_false] at hletter
  exact absurd (h c (List.mem_of_mem_head? hc)) (by rw [isBlank_of_isLetter hletter]; decide)

end Pauli

namespace Instruction

variable {cs w rest line : List Char} {n : Int} {s : Sign} {ps : List Pauli} {i : Instruction}

/-! ## The parts of a line -/

theorem word?_eq_some_iff : word? w cs = some rest ↔ cs = w ++ rest := by
  induction w generalizing cs with
  | nil => simp [word?]
  | cons c w ih =>
    cases cs with
    | nil => simp [word?]
    | cons c' cs =>
      unfold word?
      split
      · next h => simp [ih, h]
      · next h => simp [Ne.symm h]

theorem blankWord?_eq_some_iff (hw : w ≠ []) (hstop : Stops isBlank w) :
    blankWord? w cs = some rest ↔ ∃ b, Blank b ∧ cs = b ++ (w ++ rest) := by
  rw [blankWord?, word?_eq_some_iff]
  constructor
  · intro h
    obtain ⟨b, hb, hcs⟩ := exists_blank cs
    exact ⟨b, hb, h ▸ hcs⟩
  · rintro ⟨b, hb, rfl⟩
    exact skipBlank_append hb ((stops_append hw).2 hstop)

theorem integer?_eq_some_iff : integer? cs = some (n, rest) ↔
    ∃ numeral, cs = numeral ++ rest ∧ Numeral.Writes numeral n ∧ Stops Char.isDigit rest := by
  constructor
  · intro h
    unfold integer? at h
    split at h
    all_goals
      obtain ⟨⟨digits, rest'⟩, hdigits, heq⟩ := Option.map_eq_some_iff.1 h
      cases heq
      obtain ⟨rfl, hd, hstop⟩ := Numeral.digits?_eq_some_iff.1 hdigits
    · exact ⟨'-' :: digits, rfl, .minus hd, hstop⟩
    · exact ⟨'+' :: digits, rfl, .plus hd, hstop⟩
    · exact ⟨digits, rfl, .unsigned hd, hstop⟩
  · rintro ⟨numeral, rfl, hwrites, hstop⟩
    cases hwrites with
    | unsigned h =>
      have hread := Numeral.digits?_eq_some_iff.2 ⟨rfl, h, hstop⟩
      have hhead : ∀ c ∈ (numeral ++ rest).head?, c.isDigit = true := by
        intro c hc
        rw [List.head?_append_of_ne_nil _ h.1] at hc
        exact h.2 c (List.mem_of_mem_head? hc)
      unfold integer?
      split
      · next hcs => exact absurd (hhead '-' (by rw [hcs]; rfl)) (by decide)
      · next hcs => exact absurd (hhead '+' (by rw [hcs]; rfl)) (by decide)
      · rw [hread]
        rfl
    | @plus digits h =>
      show (Numeral.digits? (digits ++ rest)).map _ = _
      rw [Numeral.digits?_eq_some_iff.2 ⟨rfl, h, hstop⟩]
      rfl
    | @minus digits h =>
      show (Numeral.digits? (digits ++ rest)).map _ = _
      rw [Numeral.digits?_eq_some_iff.2 ⟨rfl, h, hstop⟩]
      rfl

theorem sign?_eq_some_iff : sign? cs = some (s, rest) ↔ cs = s.text.toList ++ rest := by
  constructor
  · intro h
    unfold sign? at h
    split at h <;> cases h <;> rfl
  · rintro rfl
    cases s <;> rfl

theorem letters_spec (cs : List Char) : cs = (letters cs).1.map Pauli.toChar ++ (letters cs).2 ∧
    Stops Pauli.isLetter (letters cs).2 := by
  induction cs with
  | nil => exact ⟨rfl, stops_nil⟩
  | cons c cs ih =>
    unfold letters
    split
    · next p hp =>
      refine ⟨?_, ih.2⟩
      show c :: cs = p.toChar :: (_ ++ _)
      rw [← ih.1, Pauli.toChar_of_ofChar? hp]
    · next hp =>
      refine ⟨rfl, ?_⟩
      rw [stops_cons, Pauli.isLetter, hp]
      rfl

theorem letters_append (ps : List Pauli) (hrest : Stops Pauli.isLetter rest) :
    letters (ps.map Pauli.toChar ++ rest) = (ps, rest) := by
  induction ps with
  | nil =>
    cases rest with
    | nil => rfl
    | cons c rest =>
      have hc : Pauli.ofChar? c = none := by simpa [Pauli.isLetter] using hrest
      show letters (c :: rest) = _
      unfold letters
      rw [hc]
  | cons p ps ih =>
    show letters (p.toChar :: (ps.map Pauli.toChar ++ rest)) = _
    unfold letters
    rw [Pauli.ofChar?_toChar, ih]

/-- How the Pauli string of an instruction is written. -/
inductive Argument (ps : List Pauli) : List Char → Prop
  | mk {b b' b'' : List Char} (before : Blank b) (between : Blank b') (after : Blank b'')
      (ne : ps ≠ []) : Argument ps (b ++ ([':'] ++ (b' ++ (ps.map Pauli.toChar ++ b''))))

theorem paulis?_eq_some_iff : paulis? cs = some ps ↔ Argument ps cs := by
  constructor
  · intro h
    unfold paulis? at h
    obtain ⟨rest, hcolon, hword⟩ := Option.bind_eq_some_iff.1 h
    obtain ⟨b, hb, rfl⟩ := (blankWord?_eq_some_iff (List.cons_ne_nil _ _)
      (stops_cons.2 (by decide))).1 hcolon
    obtain ⟨b', hb', hrest⟩ := exists_blank rest
    have hletters := letters_spec (skipBlank rest)
    split at hword
    · cases hword
    · next ps' tail hne heq =>
      rw [heq] at hletters
      split at hword
      · next hblank =>
        cases hword
        rw [hrest, hletters.1]
        exact .mk hb hb' (skipBlank_eq_nil_iff.1 (List.isEmpty_iff.1 hblank)) fun hnil => by
          subst hnil
          exact hne rfl
      · cases hword
  · rintro ⟨hb, hb', hb'', hne⟩
    next b b' b'' =>
    have hcolon : blankWord? [':'] (b ++ ([':'] ++ (b' ++ (ps.map Pauli.toChar ++ b'')))) =
        some (b' ++ (ps.map Pauli.toChar ++ b'')) :=
      (blankWord?_eq_some_iff (List.cons_ne_nil _ _) (stops_cons.2 (by decide))).2 ⟨b, hb, rfl⟩
    have hstop : Stops isBlank (ps.map Pauli.toChar ++ b'') := by
      cases ps with
      | nil => exact absurd rfl hne
      | cons p ps =>
        refine stops_cons.2 (Pauli.isBlank_of_isLetter ?_)
        rw [Pauli.isLetter, Pauli.ofChar?_toChar]
        rfl
    show (blankWord? [':'] _).bind _ = _
    rw [hcolon, Option.bind_some, skipBlank_append hb' hstop,
      letters_append ps (Pauli.stops_isLetter_of_blank hb'')]
    cases ps with
    | nil => exact absurd rfl hne
    | cons p ps => exact if_pos (List.isEmpty_iff.2 (skipBlank_eq_nil_iff.2 hb''))

theorem Argument.stops_isDigit (h : Argument ps cs) : Stops Char.isDigit cs := by
  obtain ⟨hb, -, -, -⟩ := h
  next b _ _ =>
  cases b with
  | nil => exact stops_cons.2 (by decide)
  | cons c b =>
    rw [List.cons_append, stops_cons]
    by_contra hdigit
    rw [Bool.not_eq_false] at hdigit
    exact absurd (hb c List.mem_cons_self) (by rw [isBlank_of_isDigit hdigit]; decide)

/-! ## Lines -/

/-- How an instruction is written on a line. The number of a rotation is a signed 64-bit integer. -/
inductive Written : Instruction → List Char → Prop
  | rotate {b b' numeral rest : List Char} {n : Int} {ps : List Pauli} (before : Blank b)
      (between : Blank b') (number : Numeral.Writes numeral n)
      (fits : -2 ^ 63 ≤ n ∧ n < 2 ^ 63) (argument : Argument ps rest) :
      Written (.rotate n ps) (b ++ ("Rotate".toList ++ (b' ++ (numeral ++ rest))))
  | measure {b b' rest : List Char} {s : Sign} {ps : List Pauli} (before : Blank b)
      (between : Blank b') (argument : Argument ps rest) :
      Written (.measure s ps) (b ++ ("Measure".toList ++ (b' ++ (s.text.toList ++ rest))))

theorem fits64_iff : fits64 n = true ↔ -2 ^ 63 ≤ n ∧ n < 2 ^ 63 := by
  simp [fits64]

/-- The word in front of a number is found wherever it is written. -/
theorem blankWord?_rotate {b rest : List Char} (hb : Blank b) :
    blankWord? "Rotate".toList (b ++ ("Rotate".toList ++ rest)) = some rest :=
  (blankWord?_eq_some_iff (List.cons_ne_nil _ _) (stops_cons.2 (by decide))).2 ⟨b, hb, rfl⟩

theorem blankWord?_measure {b rest : List Char} (hb : Blank b) :
    blankWord? "Measure".toList (b ++ ("Measure".toList ++ rest)) = some rest :=
  (blankWord?_eq_some_iff (List.cons_ne_nil _ _) (stops_cons.2 (by decide))).2 ⟨b, hb, rfl⟩

theorem rotate?_eq_some_iff : rotate? line = some i ↔
    ∃ n ps, i = .rotate n ps ∧ Written (.rotate n ps) line := by
  constructor
  · intro h
    unfold rotate? at h
    obtain ⟨rest, hword, h⟩ := Option.bind_eq_some_iff.1 h
    obtain ⟨⟨n, tail⟩, hinteger, h⟩ := Option.bind_eq_some_iff.1 h
    obtain ⟨ps, hps, h⟩ := Option.bind_eq_some_iff.1 h
    split at h
    · next hfits =>
      cases h
      obtain ⟨b, hb, rfl⟩ := (blankWord?_eq_some_iff (List.cons_ne_nil _ _)
        (stops_cons.2 (by decide))).1 hword
      obtain ⟨b', hb', hrest⟩ := exists_blank rest
      obtain ⟨numeral, hnumeral, hwrites, -⟩ := integer?_eq_some_iff.1 hinteger
      rw [hrest, hnumeral]
      exact ⟨n, ps, rfl, .rotate hb hb' hwrites (fits64_iff.1 hfits) (paulis?_eq_some_iff.1 hps)⟩
    · cases h
  · rintro ⟨n, ps, rfl, hwritten⟩
    cases hwritten with
    | @rotate b b' numeral rest n ps hb hb' hwrites hfits hps =>
      have hskip : skipBlank (b' ++ (numeral ++ rest)) = numeral ++ rest :=
        skipBlank_append hb' ((stops_append hwrites.ne_nil).2 hwrites.stops_isBlank)
      have hinteger := integer?_eq_some_iff.2 ⟨numeral, rfl, hwrites, hps.stops_isDigit⟩
      unfold rotate?
      simp only [blankWord?_rotate hb, hskip, hinteger, paulis?_eq_some_iff.2 hps,
        fits64_iff.2 hfits, Option.bind_eq_bind, Option.bind_some, if_true]

theorem measure?_eq_some_iff : measure? line = some i ↔
    ∃ s ps, i = .measure s ps ∧ Written (.measure s ps) line := by
  constructor
  · intro h
    unfold measure? at h
    obtain ⟨rest, hword, h⟩ := Option.bind_eq_some_iff.1 h
    obtain ⟨⟨s, tail⟩, hsign, h⟩ := Option.bind_eq_some_iff.1 h
    obtain ⟨ps, hps, h⟩ := Option.bind_eq_some_iff.1 h
    cases h
    obtain ⟨b, hb, rfl⟩ := (blankWord?_eq_some_iff (List.cons_ne_nil _ _)
      (stops_cons.2 (by decide))).1 hword
    obtain ⟨b', hb', hrest⟩ := exists_blank rest
    rw [hrest, sign?_eq_some_iff.1 hsign]
    exact ⟨s, ps, rfl, .measure hb hb' (paulis?_eq_some_iff.1 hps)⟩
  · rintro ⟨s, ps, rfl, hwritten⟩
    cases hwritten with
    | @measure b b' rest s ps hb hb' hps =>
      have hskip : skipBlank (b' ++ (s.text.toList ++ rest)) = s.text.toList ++ rest := by
        refine skipBlank_append hb' ?_
        cases s <;> exact stops_cons.2 (by decide)
      unfold measure?
      simp only [blankWord?_measure hb, hskip, sign?_eq_some_iff.2 rfl, paulis?_eq_some_iff.2 hps,
        Option.bind_eq_bind, Option.bind_some]
      rfl

/-- A line with a measurement does not begin with the word for a rotation. -/
theorem rotate?_eq_none_of_measure {s : Sign} (h : Written (.measure s ps) line) :
    rotate? line = none := by
  cases h with
  | @measure b b' rest s ps hb hb' hps =>
    have hskip : skipBlank (b ++ ("Measure".toList ++ (b' ++ (s.text.toList ++ rest)))) =
        "Measure".toList ++ (b' ++ (s.text.toList ++ rest)) :=
      skipBlank_append hb (stops_cons.2 (by decide))
    unfold rotate? blankWord?
    rw [hskip]
    rfl

/-- Reading a line finds the instruction that is written on it. -/
theorem ofLine?_eq_some_iff : ofLine? line = some i ↔ Written i line := by
  have hor : ofLine? line = (rotate? line).or (measure? line) := by
    unfold ofLine?
    cases rotate? line <;> rfl
  rw [hor, Option.or_eq_some_iff]
  constructor
  · rintro (h | ⟨-, h⟩)
    · obtain ⟨n, ps, rfl, hwritten⟩ := rotate?_eq_some_iff.1 h
      exact hwritten
    · obtain ⟨s, ps, rfl, hwritten⟩ := measure?_eq_some_iff.1 h
      exact hwritten
  · intro h
    cases i with
    | rotate n ps => exact Or.inl (rotate?_eq_some_iff.2 ⟨n, ps, rfl, h⟩)
    | measure s ps =>
      exact Or.inr ⟨rotate?_eq_none_of_measure h, measure?_eq_some_iff.2 ⟨s, ps, rfl, h⟩⟩

theorem ofLine?_eq_none_iff : ofLine? line = none ↔ ∀ i, ¬ Written i line := by
  rw [Option.eq_none_iff_forall_ne_some]
  simp only [ne_eq, ofLine?_eq_some_iff]

/-- At most one instruction is written on a line. -/
theorem Written.unique {j : Instruction} (h : Written i line) (h' : Written j line) : i = j :=
  Option.some.inj ((ofLine?_eq_some_iff.2 h).symm.trans (ofLine?_eq_some_iff.2 h'))

/-- A line with an instruction is not blank. -/
theorem Written.not_blank (h : Written i line) : ¬ Blank line := by
  intro hblank
  cases h with
  | rotate => exact absurd (hblank 'R' (by simp)) (by decide)
  | measure => exact absurd (hblank 'M' (by simp)) (by decide)

end Instruction

end LatticeSurgery
