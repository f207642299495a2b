import LatticeSurgery.Text.Marks
import LatticeSurgery.Text.Unassigned

/-!
# Quoted names

A name is shown between double quotes, so that a missing name can be told apart from an empty one.
Quotes and backslashes are escaped, and so is every character that could not be read off the screen
by itself: a mark, a code point without a character, and a character for control, format, separation
or private use, other than the space.
-/

namespace LatticeSurgery

namespace Text

/-- The ranges of the characters of the general categories `Cc`, `Cf`, `Co`, `Zl`, `Zp` and `Zs`,
apart from the space, and of the Hangul fillers, which are letters that are drawn as nothing. -/
def hiddenRanges : List (Nat × Nat) :=
  [(0x0, 0x1F), (0x7F, 0xA0), (0xAD, 0xAD), (0x600, 0x605), (0x61C, 0x61C), (0x6DD, 0x6DD),
    (0x70F, 0x70F), (0x890, 0x891), (0x8E2, 0x8E2), (0x115F, 0x1160), (0x1680, 0x1680),
    (0x180E, 0x180E), (0x2000, 0x200F), (0x2028, 0x202F), (0x205F, 0x2064), (0x2066, 0x206F),
    (0x3000, 0x3000), (0x3164, 0x3164), (0xE000, 0xF8FF), (0xFEFF, 0xFEFF), (0xFFA0, 0xFFA0),
    (0xFFF9, 0xFFFB), (0x110BD, 0x110BD), (0x110CD, 0x110CD), (0x13430, 0x1343F),
    (0x1BCA0, 0x1BCA3), (0x1D173, 0x1D17A), (0xE0001, 0xE0001), (0xE0020, 0xE007F),
    (0xF0000, 0xFFFFD), (0x100000, 0x10FFFD)]

/-- Whether a character is not shown as itself. -/
def isUnseen (c : Char) : Bool := inRanges hiddenRanges c || isMark c || isUnassigned c

/-- A character as it is shown between quotes. -/
def quotedChar : Char → List Char
  | '"' => ['\\', '"']
  | '\\' => ['\\', '\\']
  | '\x00' => ['\\', '0']
  | '\t' => ['\\', 't']
  | '\n' => ['\\', 'n']
  | '\r' => ['\\', 'r']
  | c =>
    if isUnseen c then ['\\', 'u', '\x7b'] ++ Nat.toDigits 16 c.toNat ++ ['\x7d'] else [c]

/-- A name between quotes. -/
def quoted (s : String) : String :=
  String.ofList ('"' :: s.toList.flatMap quotedChar ++ ['"'])

/-- A name that may be missing. -/
def optional : Option String → String
  | none => "None"
  | some s => s!"Some({quoted s})"

end Text

end LatticeSurgery
