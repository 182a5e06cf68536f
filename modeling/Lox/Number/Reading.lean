import Lox.Number.Binary64

/-!
# Reading a number

A number is written as decimal digits with an optional point and more digits. It
denotes a fraction with a power of ten below, and its value is the double nearest
to that fraction, however many digits there are.
-/

namespace Lox.Number

/-- The value of a decimal digit. -/
def digitValue (c : Char) : Nat := c.toNat - '0'.toNat

/-- The natural number that digits denote, the most significant first. -/
def naturalOf (digits : List Char) : Nat := digits.foldl (fun n c => 10 * n + digitValue c) 0

/-- The fraction that a numeral denotes: the digits without the point over ten to the number of
digits after it. -/
def fractionOf (numeral : List Char) : Nat × Nat :=
  let whole := numeral.takeWhile (· ≠ '.')
  let decimals := (numeral.dropWhile (· ≠ '.')).drop 1
  (naturalOf (whole ++ decimals), Nat.pow 10 decimals.length)

/-- The double nearest to what a numeral denotes. -/
def read (numeral : List Char) : Float :=
  nearest (fractionOf numeral).1 (fractionOf numeral).2

example : fractionOf ['1', '2', '.', '5', '0'] = (1250, 100) := by decide
example : fractionOf ['0', '7'] = (7, 1) := by decide

end Lox.Number
