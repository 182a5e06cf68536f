import Lox.Diagnostic.RuntimeError
import Lox.Value

/-!
# What operators do to values

Operators go by the kind of their token. A tree need not come from source text, so
there is an answer for every kind.
-/

namespace Lox.Operator

/-- Numbers are added, and whatever has a string on one side is concatenated as text. -/
def add (operator : Token) (a b : Value) : Except RuntimeError Value :=
  match a, b with
  | .number x, .number y => .ok (.number (x + y))
  | .string _, _ | _, .string _ => .ok (.string (a.text ++ b.text))
  | _, _ => .error (Fault.addends.atToken operator)

/-- An operator on two numbers. A zero divisor of either sign is an error. -/
def arithmetic (operator : Token) (x y : Float) : Except RuntimeError Value :=
  match operator.kind with
  | .minus => .ok (.number (x - y))
  | .star => .ok (.number (x * y))
  | .starStar => .ok (.number (x.pow y))
  | .slash =>
    if y == 0.0 then .error (Fault.divisionByZero.atToken operator) else .ok (.number (x / y))
  | .greater => .ok (.bool (decide (x > y)))
  | .greaterEqual => .ok (.bool (decide (x ≥ y)))
  | .less => .ok (.bool (decide (x < y)))
  | .lessEqual => .ok (.bool (decide (x ≤ y)))
  | _ => .error ((Fault.unknownOperator operator.lexeme).atToken operator)

/-- An operator between two values. -/
def binary (operator : Token) (a b : Value) : Except RuntimeError Value :=
  match operator.kind with
  | .plus => add operator a b
  | .equalEqual => .ok (.bool (a.equals b))
  | .bangEqual => .ok (.bool (!a.equals b))
  | _ =>
    match a, b with
    | .number x, .number y => arithmetic operator x y
    | _, _ => .error (Fault.numberOperands.atToken operator)

/-- An operator before a value: negation of truth, or of a number. -/
def unary (operator : Token) (a : Value) : Except RuntimeError Value :=
  match operator.kind with
  | .bang => .ok (.bool (!a.isTruthy))
  | _ =>
    match a with
    | .number x => .ok (.number (-x))
    | _ => .error (Fault.numberOperand.atToken operator)

/-- Whether the left operand of `and` or `or` is the result. -/
def decides (operator : Token) (left : Value) : Bool :=
  match operator.kind with
  | .orWord => left.isTruthy
  | _ => !left.isTruthy

end Lox.Operator
