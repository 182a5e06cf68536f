import Lox.Number.Layout

/-!
# Values

What an expression evaluates to. A callable is held by reference: the store knows
what it does, and two references are equal when they lead to the same place.
-/

namespace Lox

/-- A reference to a callable of the store. -/
structure CallableRef where
  /-- The place of the callable in the store; it identifies the callable. -/
  index : Nat
  /-- How the callable is written. -/
  text : String
  deriving DecidableEq, Repr

inductive Value where
  | nil
  | bool (value : Bool)
  | number (value : Float)
  | string (text : String)
  | callable (ref : CallableRef)
  deriving Repr

instance : Inhabited Value := ⟨.nil⟩

namespace Value

/-- `nil`, `false`, zero and the empty string are falsy; everything else, NaN included, is
truthy. -/
def isTruthy : Value → Bool
  | nil => false
  | bool value => value
  | number value => value != 0.0
  | string text => !text.isEmpty
  | callable _ => true

/-- Equality as the language has it: numbers as floating-point numbers, so that NaN differs from
itself and the two zeros are equal, and callables by identity. Values of different sorts are never
equal. -/
def equals : Value → Value → Bool
  | nil, nil => true
  | bool a, bool b => a == b
  | number a, number b => a == b
  | string a, string b => a == b
  | callable a, callable b => a.index == b.index
  | _, _ => false

/-- The text of a value, as a program prints it and as concatenation appends it. -/
def text : Value → String
  | nil => "nil"
  | bool true => "true"
  | bool false => "false"
  | number value => Number.Layout.printed.write value
  | string text => text
  | callable ref => ref.text

end Value

end Lox
