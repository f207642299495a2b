/-!
# Shortest decimal text of a quotient

A quotient of two natural numbers is rounded to binary64 and then written with as few decimal digits
as identify the rounded number. `Binary64.ofQuotient` rounds to nearest, a tie to the even
significand. `Binary64.shortest` tries one digit, two digits and so on, and takes the decimal next
to the number that still rounds to it: of the decimals with the least number of digits the nearest
one, a tie going up. Seventeen digits are always enough.

Only numbers of moderate size are needed, so the exponent is not bounded.
-/

namespace LatticeSurgery

/-- A positive rational number. -/
structure Ratio where
  /-- The numerator. -/
  num : Nat
  /-- The denominator. -/
  den : Nat

namespace Ratio

/-- Whether a rational number is at most another one. -/
def atMost (a b : Ratio) : Bool := decide (a.num * b.den ≤ b.num * a.den)

/-- Whether a rational number is less than another one. -/
def below (a b : Ratio) : Bool := decide (a.num * b.den < b.num * a.den)

/-- A natural number times a power. -/
def scaled (n base : Nat) : Int → Ratio
  | .ofNat e => ⟨n * Nat.pow base e, 1⟩
  | .negSucc e => ⟨n, Nat.pow base (e + 1)⟩

/-- The quotient of two rational numbers. -/
def divide (a b : Ratio) : Ratio := ⟨a.num * b.den, a.den * b.num⟩

/-- The greatest natural number that is not larger. -/
def floor (a : Ratio) : Nat := a.num / a.den

/-- Whether the number is a natural number. -/
def isWhole (a : Ratio) : Bool := a.num % a.den = 0

/-- The nearest natural number, the even one in a tie. -/
def nearest (a : Ratio) : Nat :=
  let q := a.num / a.den
  let twice := 2 * (a.num % a.den)
  if a.den < twice ∨ (twice = a.den ∧ q % 2 = 1) then q + 1 else q

end Ratio

/-- A positive binary64 number, `significand * 2 ^ exponent`, the significand having 53 bits. -/
structure Binary64 where
  /-- The significand, which has 53 bits. -/
  significand : Nat
  /-- The exponent of two. -/
  exponent : Int
deriving DecidableEq

namespace Binary64

/-- The number with an exponent that the significand does not fit yet: it may have one bit more. -/
def normalize (m : Nat) (e : Int) : Binary64 :=
  if m = Nat.pow 2 53 then ⟨Nat.pow 2 52, e + 1⟩ else ⟨m, e⟩

/-- The quotient of two positive numbers, rounded to nearest. -/
def ofQuotient (a b : Nat) : Binary64 :=
  let e : Int := (Nat.log2 a : Int) - (Nat.log2 b : Int) - 52
  let e := if (Ratio.divide ⟨a, b⟩ (.scaled 1 2 e)).below ⟨Nat.pow 2 52, 1⟩ then e - 1 else e
  normalize (Ratio.divide ⟨a, b⟩ (.scaled 1 2 e)).nearest e

/-- The number as a fraction. -/
def ratio (x : Binary64) : Ratio := .scaled x.significand 2 x.exponent

/-- The lower end of the interval of numbers that are rounded to `x`, half way to the number below.
The number below is nearer if `x` is a power of two. -/
def lowerEnd (x : Binary64) : Ratio :=
  .scaled (4 * x.significand - if x.significand = Nat.pow 2 52 then 1 else 2) 2 (x.exponent - 2)

/-- The upper end of that interval. -/
def upperEnd (x : Binary64) : Ratio := .scaled (4 * x.significand + 2) 2 (x.exponent - 2)

/-- Whether a rational number is rounded to `x`. The ends of the interval are if the significand is
even. -/
def covers (x : Binary64) (a : Ratio) : Bool :=
  if x.significand % 2 = 0 then x.lowerEnd.atMost a && a.atMost x.upperEnd
  else x.lowerEnd.below a && a.below x.upperEnd

/-- The number of decimal digits of a natural number. -/
def digitCount (n : Nat) : Nat := (Nat.toDigits 10 n).length

/-- The exponent of the first decimal digit of a positive rational number. -/
def leadingExponent (a : Ratio) : Int :=
  if a.den ≤ a.num then (digitCount a.floor : Int) - 1
  else
    let places := digitCount (a.den / a.num)
    if (Ratio.mk (a.num * Nat.pow 10 (places - 1)) a.den).below ⟨1, 1⟩ then -(places : Int)
    else 1 - (places : Int)

/-- The multiple of `10 ^ place` next to `x` that is rounded to `x`, if there is one: the nearer one
of the two neighbours, the upper one in a tie. -/
def neighbor? (x : Binary64) (place : Int) : Option Nat :=
  let scaled := x.ratio.divide (.scaled 1 10 place)
  let low := scaled.floor
  if scaled.isWhole then some low
  else
    let lowFits := x.covers (.scaled low 10 place)
    let highFits := x.covers (.scaled (low + 1) 10 place)
    if lowFits && highFits then
      some (if 2 * (scaled.num % scaled.den) < scaled.den then low else low + 1)
    else if lowFits then some low
    else if highFits then some (low + 1)
    else none

/-- A decimal, `digits * 10 ^ place`. -/
structure Decimal where
  /-- The number that the digits write. -/
  digits : Nat
  /-- The exponent of ten, which is the place of the last digit. -/
  place : Int
deriving DecidableEq

/-- The decimal with the fewest digits that is rounded to `x`. -/
def shortest (x : Binary64) : Decimal :=
  let first := leadingExponent x.ratio
  ((List.range 17).findSome? fun (extra : Nat) =>
    let place := first - extra
    (x.neighbor? place).map fun digits => ⟨digits, place⟩).getD ⟨0, 0⟩

/-- A decimal in positional notation, without a point if it is whole. -/
def Decimal.text (d : Decimal) : String :=
  let digits := Nat.toDigits 10 d.digits
  match d.place with
  | .ofNat zeros => String.ofList (digits ++ List.replicate zeros '0')
  | .negSucc n =>
    let places := n + 1
    let padded := List.replicate (places + 1 - digits.length) '0' ++ digits
    let cut := padded.length - places
    String.ofList (padded.take cut ++ '.' :: padded.drop cut)

end Binary64

/-- The quotient of two natural numbers, rounded to binary64, as the shortest text that identifies
it. -/
def quotientText (a b : Nat) : String :=
  if a = 0 ∨ b = 0 then "0" else (Binary64.ofQuotient a b).shortest.text

end LatticeSurgery
