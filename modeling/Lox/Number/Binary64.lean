/-!
# Binary64 numbers as whole multiples of one unit

Every finite double is a whole number of units of `2^-1074`, so the value of a
double and the double nearest to a fraction are both questions about natural
numbers. `Parts.ofBits` takes the bits of a double apart; `nearestBits` gives the
bits of the double nearest to a fraction, ties to the even significand.
-/

namespace Lox.Number

/-- The unit of the least exponent: every finite double is a multiple of `2^-1074`. -/
def unitExponent : Nat := 1074

/-- What the bits of a double stand for. -/
inductive Parts where
  | nan
  | infinite (negative : Bool)
  /-- The value `significand * 2^shift` units, with its sign. -/
  | finite (negative : Bool) (significand shift : Nat)
  deriving DecidableEq, Repr

/-- One sign bit, eleven exponent bits, fifty-two fraction bits. An exponent field of zero has no
implicit leading bit; an exponent field of all ones is not a finite number. -/
def Parts.ofBits (bits : Nat) : Parts :=
  let negative := bits / Nat.pow 2 63 % 2 == 1
  let field := bits / Nat.pow 2 52 % Nat.pow 2 11
  let fraction := bits % Nat.pow 2 52
  if field = 2047 then
    if fraction = 0 then .infinite negative else .nan
  else if field = 0 then .finite negative fraction 0
  else .finite negative (Nat.pow 2 52 + fraction) (field - 1)

/-- The parts of a double. -/
def Parts.ofFloat (x : Float) : Parts := .ofBits x.toBits.toNat

/-- The quotient rounded to the nearest whole number, a half to the even neighbour. -/
def divRoundEven (numerator denominator : Nat) : Nat :=
  let quotient := numerator / denominator
  let twiceRest := 2 * (numerator % denominator)
  if twiceRest < denominator then quotient
  else if denominator < twiceRest then quotient + 1
  else quotient + quotient % 2

/-- The bits of positive infinity, one above those of the largest finite double. -/
def infinityBits : Nat := 2047 * Nat.pow 2 52

/-- The bits of the double nearest to the nonnegative fraction `numerator / denominator`.

With `shift` chosen so that the quotient has at most fifty-three bits, the bits are
`shift * 2^52 + significand`: the implicit bit of the significand adds the missing one to the
exponent field, and so does a significand that rounds up to `2^53`. Whatever reaches past the
largest finite double is infinity. -/
def nearestBits (numerator denominator : Nat) : Nat :=
  let units := numerator * Nat.pow 2 unitExponent
  let shift := (units / denominator).log2 - 52
  min (shift * Nat.pow 2 52 + divRoundEven units (denominator * Nat.pow 2 shift)) infinityBits

/-- The double nearest to a nonnegative fraction. -/
def nearest (numerator denominator : Nat) : Float :=
  Float.ofBits (UInt64.ofNat (nearestBits numerator denominator))

example : nearestBits 1 1 = 0x3ff0000000000000 := by decide +kernel
example : nearestBits 1 10 = 0x3fb999999999999a := by decide +kernel
example : nearestBits (2 ^ 1024 - 2 ^ 970) 1 = infinityBits := by decide +kernel
example : nearestBits (2 ^ 1024 - 2 ^ 970 - 1) 1 = 0x7fefffffffffffff := by decide +kernel
example : nearestBits 1 (2 ^ 1075) = 0 := by decide +kernel
example : nearestBits 3 (2 ^ 1076) = 1 := by decide +kernel
example : nearestBits (2 ^ 53 + 1) 1 = nearestBits (2 ^ 53) 1 := by decide +kernel

end Lox.Number
