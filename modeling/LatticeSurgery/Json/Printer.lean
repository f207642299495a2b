import LatticeSurgery.Json

/-!
# Writing JSON

`Json.text` writes a value without blanks. In a string, a quote and a backslash are escaped, and so
are the control characters, by their short escape where there is one. All other characters stand for
themselves.
-/

namespace LatticeSurgery

namespace Json

/-- The value of a natural number. -/
def nat (n : Nat) : Json := number ⟨false, Nat.toDigits 10 n, none, none⟩

/-- The value of an integer. -/
def int (n : Int) : Json := number ⟨decide (n < 0), Nat.toDigits 10 n.natAbs, none, none⟩

/-- The units of a text. -/
def unitsOf (s : String) : List StringUnit := s.toList.map StringUnit.char

/-- The value of a text. -/
def str (s : String) : Json := string (unitsOf s)

/-- The object with the given members. -/
def record (members : List (String × Json)) : Json :=
  object (members.map fun m => (unitsOf m.1, m.2))

/-- A hexadecimal digit. -/
def hexChar (n : Nat) : Char := Nat.digitChar (n % 16)

/-- The escape of a code unit by its number. -/
def codeText (n : Nat) : List Char :=
  ['\\', 'u', hexChar (n / 4096), hexChar (n / 256), hexChar (n / 16), hexChar n]

/-- A unit of a string as it is written. -/
def unitText : StringUnit → List Char
  | .char '"' => ['\\', '"']
  | .char '\\' => ['\\', '\\']
  | .char '\x08' => ['\\', 'b']
  | .char '\x0c' => ['\\', 'f']
  | .char '\n' => ['\\', 'n']
  | .char '\r' => ['\\', 'r']
  | .char '\t' => ['\\', 't']
  | .char c => if c.toNat < 0x20 then codeText c.toNat else [c]
  | .code n => codeText n

/-- A string between quotes. -/
def stringText (units : List StringUnit) : String :=
  String.ofList ('"' :: units.flatMap unitText ++ ['"'])

/-- A number as it is written. -/
def numberText (n : JsonNumber) : String :=
  String.ofList <|
    (if n.negative then ['-'] else []) ++ n.whole ++
      (match n.fraction with
        | some digits => '.' :: digits
        | none => []) ++
      (match n.exponent with
        | some digits => 'e' :: digits
        | none => [])

mutual

/-- The JSON form of a value. -/
def text : Json → String
  | null => "null"
  | bool b => if b then "true" else "false"
  | number n => numberText n
  | string units => stringText units
  | array elements => "[" ++ elementsText elements ++ "]"
  | object members => "\x7b" ++ membersText members ++ "\x7d"

/-- The elements of an array, with commas between them. -/
def elementsText : List Json → String
  | [] => ""
  | [v] => text v
  | v :: vs => text v ++ "," ++ elementsText vs

/-- The members of an object, with commas between them. -/
def membersText : List (List StringUnit × Json) → String
  | [] => ""
  | [(key, v)] => stringText key ++ ":" ++ text v
  | (key, v) :: ms => stringText key ++ ":" ++ text v ++ "," ++ membersText ms

end

end Json

end LatticeSurgery
