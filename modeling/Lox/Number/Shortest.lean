import Lox.Number.Binary64

/-!
# The shortest decimal that reads back

Among the decimals that round to a given double the shortest are those on the
coarsest power-of-ten grid with a point in the rounding interval. `Interval` is
that interval in exact arithmetic; `shortest` walks the grids from coarse to fine
and takes the nearer of the two neighbours of the value, the upper one on a tie.
-/

namespace Lox.Number

/-- The decimal `digits * 10^exponent`. -/
structure Decimal where
  digits : Nat
  exponent : Int
  deriving DecidableEq, Repr

/-- The decimals that round to a positive double, in units of `2^-1076`: a quarter of the unit of
all doubles, so that the ends are whole. -/
structure Interval where
  low : Nat
  value : Nat
  high : Nat
  /-- The ends round to the double as well: its significand is even. -/
  closed : Bool
  deriving DecidableEq, Repr

/-- The interval reaches half way to both neighbours. Below the least significand of a binade the
neighbour is half as far. -/
def Interval.ofParts (significand shift : Nat) : Interval where
  low :=
    (4 * significand - if significand = Nat.pow 2 52 ∧ 0 < shift then 1 else 2) * Nat.pow 2 shift
  value := 4 * significand * Nat.pow 2 shift
  high := (4 * significand + 2) * Nat.pow 2 shift
  closed := significand % 2 == 0

/-- Whether `numerator / denominator` units lie in the interval. -/
def Interval.contains (i : Interval) (numerator denominator : Nat) : Bool :=
  if i.closed then
    decide (i.low * denominator ≤ numerator) && decide (numerator ≤ i.high * denominator)
  else
    decide (i.low * denominator < numerator) && decide (numerator < i.high * denominator)

/-- The point of the grid of multiples of `10^exponent` that lies in the interval, if one does: of
the two neighbours of the value the nearer, the upper one when they are equally near. -/
def Interval.gridPoint? (i : Interval) (exponent : Int) : Option Nat :=
  let spacing := Nat.pow 10 exponent.toNat * Nat.pow 2 (unitExponent + 2)
  let scale := Nat.pow 10 (-exponent).toNat
  let below := i.value * scale / spacing
  let rest := i.value * scale % spacing
  match i.contains (below * spacing) scale, i.contains ((below + 1) * spacing) scale with
  | true, true => some (if 2 * rest < spacing then below else below + 1)
  | true, false => some below
  | false, true => some (below + 1)
  | false, false => none

/-- Walks `steps` grids, each ten times finer than the one before. -/
def Interval.coarsest? (i : Interval) : Nat → Int → Option Decimal
  | 0, _ => none
  | steps + 1, exponent =>
    match i.gridPoint? exponent with
    | some digits => some ⟨digits, exponent⟩
    | none => i.coarsest? steps (exponent - 1)

/-- A power of ten above the value: `30103 / 100000` is just above the logarithm of two. -/
def Interval.startExponent (i : Interval) : Int :=
  ((i.value.log2 : Int) - (unitExponent + 1 : Nat)) * 30103 / 100000 + 2

/-- The shortest decimal that rounds to the positive double `significand * 2^shift` units. Seventeen
digits are always enough, and the start is at most two grids above the first digit; the exact
value stands behind them only to make the function total. -/
def shortest (significand shift : Nat) : Decimal :=
  let i := Interval.ofParts significand shift
  (i.coarsest? 21 i.startExponent).getD
    ⟨significand * Nat.pow 2 shift * Nat.pow 5 unitExponent, -unitExponent⟩

example : shortest 1 0 = ⟨5, -324⟩ := by decide +kernel
example : shortest (2 ^ 52) 1022 = ⟨1, 0⟩ := by decide +kernel
example : shortest (0x1999999999999a) 1018 = ⟨1, -1⟩ := by decide +kernel
example : shortest (2 ^ 53 - 1) 2045 = ⟨17976931348623157, 292⟩ := by decide +kernel

end Lox.Number
