import LatticeSurgery.Text.Ranges

/-!
# Blank characters and lines

The characters with the Unicode property `White_Space`, and the division of a text into lines: a
line ends at a line feed, and a carriage return right before the line feed belongs to the line end.
A carriage return anywhere else is part of its line.
-/

namespace LatticeSurgery

namespace Text

/-- The ranges of the characters with the property `White_Space`. -/
def blankRanges : List (Nat × Nat) :=
  [(0x9, 0xD), (0x20, 0x20), (0x85, 0x85), (0xA0, 0xA0), (0x1680, 0x1680), (0x2000, 0x200A),
    (0x2028, 0x2029), (0x202F, 0x202F), (0x205F, 0x205F), (0x3000, 0x3000)]

/-- Whether a character is blank. -/
def isBlank (c : Char) : Bool := inRanges blankRanges c

/-- The text without the blank characters at its start. -/
def skipBlank (cs : List Char) : List Char := cs.dropWhile isBlank

/-- The line without a carriage return at its end. -/
def dropReturn (line : List Char) : List Char :=
  if line.getLast? = some '\r' then line.dropLast else line

/-- The lines of a text, `line` being the part of the present line that was read already. -/
def linesFrom (line : List Char) : List Char → List (List Char)
  | [] => if line.isEmpty then [] else [line]
  | '\n' :: rest => dropReturn line :: linesFrom [] rest
  | c :: rest => linesFrom (line ++ [c]) rest

/-- The lines of a text. A line feed at the end of the text starts no further line. -/
def lines (text : List Char) : List (List Char) := linesFrom [] text

end Text

end LatticeSurgery
