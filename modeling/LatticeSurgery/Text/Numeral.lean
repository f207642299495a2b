/-!
# Decimal numerals

Numbers are written with the digits from 0 to 9. `Numeral.digits?` takes the digits at the start of
a text, and `Numeral.value` is the number that they write; leading zeros do not matter.
-/

namespace LatticeSurgery

namespace Numeral

/-- The number written by decimal digits. -/
def value (digits : List Char) : Nat :=
  digits.foldl (fun n c => 10 * n + (c.toNat - '0'.toNat)) 0

/-- The digits at the start of a text, at least one, and the rest. -/
def digits? (cs : List Char) : Option (List Char × List Char) :=
  match cs.takeWhile Char.isDigit with
  | [] => none
  | digits => some (digits, cs.dropWhile Char.isDigit)

/-- The number that a text consisting of digits writes. -/
def ofDigits? (cs : List Char) : Option Nat :=
  if !cs.isEmpty && cs.all Char.isDigit then some (value cs) else none

/-- The integer that a text writes, with an optional sign. -/
def ofSigned? : List Char → Option Int
  | '+' :: cs => (ofDigits? cs).map Int.ofNat
  | '-' :: cs => (ofDigits? cs).map fun n => -(n : Int)
  | cs => (ofDigits? cs).map Int.ofNat

theorem digits?_append {cs digits rest : List Char} (h : digits? cs = some (digits, rest)) :
    digits ++ rest = cs := by
  unfold digits? at h
  split at h
  · cases h
  · simp only [Option.some.injEq, Prod.mk.injEq] at h
    rw [← h.1, ← h.2, List.takeWhile_append_dropWhile]

end Numeral

end LatticeSurgery
