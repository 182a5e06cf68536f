import Lox.Token

/-!
# Errors of a running program

What went wrong, and the line of the token to blame.
-/

namespace Lox

/-- What can go wrong. -/
inductive Fault where
  /-- An operator that its operands do not fit, with the words for it. -/
  | typeMismatch (message : String)
  | divisionByZero
  | undefinedVariable (name : String)
  | redeclared (name : String)
  | notCallable
  | arityMismatch (expected got : Nat)
  /-- A call while as many calls as may be are in progress. -/
  | stackOverflow
  /-- A native function that could not do its work. -/
  | native (message : String)
  deriving DecidableEq, Repr

namespace Fault

/-- An operator on a single operand that is no number. -/
def numberOperand : Fault := typeMismatch "Operand must be a number."

/-- An operator on two operands that are not both numbers. -/
def numberOperands : Fault := typeMismatch "Operands must be numbers."

/-- A sum of things that cannot be added. -/
def addends : Fault := typeMismatch "Operands must be two numbers or two strings."

/-- An operator that is none between two operands. -/
def unknownOperator (lexeme : String) : Fault :=
  typeMismatch ("Unknown binary operator '" ++ lexeme ++ "'.")

/-- The words for what went wrong. -/
def message : Fault → String
  | typeMismatch message => message
  | divisionByZero => "Division by zero."
  | undefinedVariable name => "Undefined variable '" ++ name ++ "'."
  | redeclared name => "Variable '" ++ name ++ "' is already declared in this scope."
  | notCallable => "Can only call functions and classes."
  | arityMismatch expected got =>
    "Expected " ++ toString expected ++ " arguments but got " ++ toString got ++ "."
  | stackOverflow => "Stack overflow."
  | native message => message

end Fault

structure RuntimeError where
  fault : Fault
  line : Nat
  deriving DecidableEq, Repr

/-- A fault blamed on a token. -/
def Fault.atToken (fault : Fault) (token : Token) : RuntimeError := ⟨fault, token.line⟩

def RuntimeError.message (e : RuntimeError) : String := e.fault.message

end Lox
