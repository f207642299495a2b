import LatticeSurgery.Text.Numeral

/-!
# JSON texts

`Json.ofText?` reads a text as JSON. The result keeps what a reader of the data may ask about: a
number as it is written, since an integer and a whole number in floating-point form are told apart,
and a string as its units, since an escaped half of a surrogate pair is allowed in a text but stands
for no character. Members of an object are kept in order and with their repetitions.

The scanners return what they read together with the rest of the text.
-/

namespace LatticeSurgery

/-- A unit of a JSON string. -/
inductive StringUnit
  /-- A character, written as itself or by a short escape. -/
  | char (c : Char)
  /-- A UTF-16 code unit, written by its number. -/
  | code (n : Nat)
deriving DecidableEq

/-- A JSON number as it is written. -/
structure JsonNumber where
  /-- Whether it starts with a minus sign. -/
  negative : Bool
  /-- The digits before the point. -/
  whole : List Char
  /-- The digits after the point, if there is one. -/
  fraction : Option (List Char)
  /-- The sign and the digits of the exponent, if there is one. -/
  exponent : Option (List Char)
deriving DecidableEq

/-- A JSON value. -/
inductive Json
  | null
  | bool (b : Bool)
  | number (n : JsonNumber)
  | string (units : List StringUnit)
  | array (elements : List Json)
  | object (members : List (List StringUnit × Json))

/-- The integer that a number is the decimal form of. A number with a point or an exponent is not an
integer, and neither is minus zero. -/
def JsonNumber.int? (n : JsonNumber) : Option Int :=
  match n.fraction, n.exponent with
  | none, none =>
    let v := Numeral.value n.whole
    if n.negative then (if v = 0 then none else some (-(v : Int))) else some v
  | _, _ => none

/-- The characters that the units of a string stand for, if every half of a surrogate pair is
followed by the other half. -/
def StringUnit.decode? : List StringUnit → Option (List Char)
  | [] => some []
  | .char c :: units => (decode? units).map (c :: ·)
  | .code n :: .code m :: units =>
    if 0xD800 ≤ n ∧ n < 0xDC00 then
      if 0xDC00 ≤ m ∧ m < 0xE000 then
        (decode? units).map (Char.ofNat (0x10000 + (n - 0xD800) * 0x400 + (m - 0xDC00)) :: ·)
      else none
    else if 0xDC00 ≤ n ∧ n < 0xE000 then none
    else (decode? (.code m :: units)).map (Char.ofNat n :: ·)
  | .code n :: units =>
    if 0xD800 ≤ n ∧ n < 0xE000 then none else (decode? units).map (Char.ofNat n :: ·)

namespace Json

/-- The blank characters between the parts of a JSON text. -/
def isBlank (c : Char) : Bool := c = ' ' || c = '\t' || c = '\n' || c = '\r'

/-- The text without the blanks at its start. -/
def skipBlank (cs : List Char) : List Char := cs.dropWhile isBlank

/-- The value of a hexadecimal digit. -/
def hexDigit? (c : Char) : Option Nat :=
  if '0' ≤ c ∧ c ≤ '9' then some (c.toNat - '0'.toNat)
  else if 'a' ≤ c ∧ c ≤ 'f' then some (c.toNat - 'a'.toNat + 10)
  else if 'A' ≤ c ∧ c ≤ 'F' then some (c.toNat - 'A'.toNat + 10)
  else none

/-- The number written by four hexadecimal digits. -/
def hex4? (a b c d : Char) : Option Nat := do
  let a ← hexDigit? a
  let b ← hexDigit? b
  let c ← hexDigit? c
  let d ← hexDigit? d
  return ((a * 16 + b) * 16 + c) * 16 + d

/-- The character of a short escape. -/
def shortEscape? : Char → Option Char
  | '"' => some '"'
  | '\\' => some '\\'
  | '/' => some '/'
  | 'b' => some '\x08'
  | 'f' => some '\x0c'
  | 'n' => some '\n'
  | 'r' => some '\r'
  | 't' => some '\t'
  | _ => none

/-- Reads a string up to its closing quote; the opening one is read already. -/
def scanString : List Char → Option (List StringUnit × List Char)
  | [] => none
  | '"' :: rest => some ([], rest)
  | '\\' :: 'u' :: a :: b :: c :: d :: rest => do
    let n ← hex4? a b c d
    let (units, rest) ← scanString rest
    return (.code n :: units, rest)
  | '\\' :: c :: rest => do
    let e ← shortEscape? c
    let (units, rest) ← scanString rest
    return (.char e :: units, rest)
  | c :: rest =>
    if c.toNat < 0x20 then none
    else do
      let (units, rest) ← scanString rest
      return (.char c :: units, rest)

/-- Reads the digits before the point: a zero alone, or digits that do not start with zero. -/
def scanWhole : List Char → Option (List Char × List Char)
  | '0' :: rest => some (['0'], rest)
  | cs => Numeral.digits? cs

/-- Reads a point with the digits after it, if there is a point. -/
def scanFraction : List Char → Option (Option (List Char) × List Char)
  | '.' :: rest => do
    let (digits, rest) ← Numeral.digits? rest
    return (some digits, rest)
  | cs => some (none, cs)

/-- Reads an exponent, if there is one. -/
def scanExponent : List Char → Option (Option (List Char) × List Char)
  | c :: rest =>
    if c = 'e' ∨ c = 'E' then
      match rest with
      | '+' :: rest => do
        let (digits, rest) ← Numeral.digits? rest
        return (some ('+' :: digits), rest)
      | '-' :: rest => do
        let (digits, rest) ← Numeral.digits? rest
        return (some ('-' :: digits), rest)
      | rest => do
        let (digits, rest) ← Numeral.digits? rest
        return (some digits, rest)
    else some (none, c :: rest)
  | [] => some (none, [])

/-- Reads a number. -/
def scanNumber (cs : List Char) : Option (JsonNumber × List Char) := do
  let (negative, cs) := match cs with
    | '-' :: rest => (true, rest)
    | cs => (false, cs)
  let (whole, cs) ← scanWhole cs
  let (fraction, cs) ← scanFraction cs
  let (exponent, cs) ← scanExponent cs
  return (⟨negative, whole, fraction, exponent⟩, cs)

mutual

/-- Reads a value, nested at most `depth` deep. -/
def scanValue : Nat → List Char → Option (Json × List Char)
  | 0, _ => none
  | depth + 1, cs =>
    match skipBlank cs with
    | 'n' :: 'u' :: 'l' :: 'l' :: rest => some (.null, rest)
    | 't' :: 'r' :: 'u' :: 'e' :: rest => some (.bool true, rest)
    | 'f' :: 'a' :: 'l' :: 's' :: 'e' :: rest => some (.bool false, rest)
    | '"' :: rest => do
      let (units, rest) ← scanString rest
      return (.string units, rest)
    | '[' :: rest =>
      match skipBlank rest with
      | ']' :: rest => some (.array [], rest)
      | rest => do
        let (elements, rest) ← scanElements depth rest
        return (.array elements, rest)
    | '\x7b' :: rest =>
      match skipBlank rest with
      | '\x7d' :: rest => some (.object [], rest)
      | rest => do
        let (members, rest) ← scanMembers depth rest
        return (.object members, rest)
    | rest => do
      let (n, rest) ← scanNumber rest
      return (.number n, rest)

/-- Reads the elements of an array up to its closing bracket, at least one. -/
def scanElements : Nat → List Char → Option (List Json × List Char)
  | 0, _ => none
  | depth + 1, cs => do
    let (v, rest) ← scanValue depth cs
    match skipBlank rest with
    | ',' :: rest =>
      let (vs, rest) ← scanElements depth rest
      return (v :: vs, rest)
    | ']' :: rest => return ([v], rest)
    | _ => none

/-- Reads the members of an object up to its closing bracket, at least one. -/
def scanMembers : Nat → List Char → Option (List (List StringUnit × Json) × List Char)
  | 0, _ => none
  | depth + 1, cs =>
    match skipBlank cs with
    | '"' :: rest => do
      let (key, rest) ← scanString rest
      match skipBlank rest with
      | ':' :: rest =>
        let (v, rest) ← scanValue depth rest
        match skipBlank rest with
        | ',' :: rest =>
          let (ms, rest) ← scanMembers depth rest
          return ((key, v) :: ms, rest)
        | '\x7d' :: rest => return ([(key, v)], rest)
        | _ => none
      | _ => none
    | _ => none

end

/-- The value that a text is the JSON form of. Only blanks may stand around it. -/
def ofText? (text : String) : Option Json := do
  let cs := text.toList
  let (v, rest) ← scanValue (2 * cs.length + 2) cs
  if (skipBlank rest).isEmpty then some v else none

end Json

end LatticeSurgery
