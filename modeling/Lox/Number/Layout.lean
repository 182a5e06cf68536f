import Lox.Number.Shortest

/-!
# How numbers are written

One set of digits, two layouts. `Layout.printed` is what a program prints: whole
numbers without a fraction, from `1e21` up and below `1e-7` a mantissa with a fraction
and an exponent (`1.0E21`). `Layout.listed` is what a token list shows: always a
fraction in positional notation, and a bare mantissa before an exponent (`1e16`).
-/

namespace Lox.Number

/-- Everything in which two ways of writing a number can differ. -/
structure Layout where
  /-- The word for an infinite number, after its sign. -/
  infinite : String
  /-- The least magnitude other than zero that is written in positional notation. -/
  least : Float
  /-- The least magnitude that is too large for positional notation. -/
  bound : Float
  /-- What stands between mantissa and exponent. -/
  mark : String
  /-- What follows a mantissa of a single digit. -/
  wholeMantissa : String
  /-- What follows a whole number in positional notation. -/
  wholeNumber : String
  deriving Repr

/-- Numbers as a program prints them. -/
def Layout.printed : Layout where
  infinite := "Infinity"
  least := 1e-7
  bound := 1e21
  mark := "E"
  wholeMantissa := ".0"
  wholeNumber := ""

/-- Numbers as a token list shows them. -/
def Layout.listed : Layout where
  infinite := "inf"
  least := 1e-4
  bound := 1e16
  mark := "e"
  wholeMantissa := ""
  wholeNumber := ".0"

/-- The decimal digits of a natural number. -/
def digitsOf (n : Nat) : List Char := Nat.toDigits 10 n

/-- The sign of a number, which a positive one does not show. -/
def signOf (negative : Bool) : List Char := if negative then ['-'] else []

/-- Positional notation of a decimal that is not a whole number, or of which no digit is left out:
the point stands `exponent` places from the right. -/
def Decimal.positional (d : Decimal) : List Char :=
  let digits := digitsOf d.digits
  let point := (digits.length : Int) + d.exponent
  if point ≤ 0 then
    '0' :: '.' :: (List.replicate (-point).toNat '0' ++ digits)
  else
    digits.take point.toNat ++ '.' :: digits.drop point.toNat

/-- A mantissa of one digit before the point, then the exponent. -/
def Decimal.scientific (d : Decimal) (layout : Layout) : List Char :=
  let digits := digitsOf d.digits
  let exponent := (digits.length : Int) - 1 + d.exponent
  let mantissa :=
    match digits with
    | [] => []
    | [only] => only :: layout.wholeMantissa.toList
    | first :: rest => first :: '.' :: rest
  mantissa ++ layout.mark.toList ++ signOf (exponent < 0) ++ digitsOf exponent.natAbs

/-- The whole number that a magnitude is, if it is one. -/
def wholeValue? (significand shift : Nat) : Option Nat :=
  let units := significand * Nat.pow 2 shift
  if units % Nat.pow 2 unitExponent = 0 then some (units / Nat.pow 2 unitExponent) else none

/-- The text of a magnitude. -/
def Layout.magnitude (layout : Layout) (magnitude : Float) (significand shift : Nat) : List Char :=
  if significand ≠ 0 ∧ (magnitude < layout.least ∨ layout.bound ≤ magnitude) then
    (shortest significand shift).scientific layout
  else
    match wholeValue? significand shift with
    | some whole => digitsOf whole ++ layout.wholeNumber.toList
    | none => (shortest significand shift).positional

/-- The text of a number. A zero keeps its sign. -/
def Layout.write (layout : Layout) (x : Float) : String :=
  match Parts.ofFloat x with
  | .nan => "NaN"
  | .infinite negative => String.ofList (signOf negative ++ layout.infinite.toList)
  | .finite negative significand shift =>
    String.ofList (signOf negative ++ layout.magnitude x.abs significand shift)

end Lox.Number
