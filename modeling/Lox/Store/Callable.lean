import Lox.Tree.Basic

/-!
# Callables

A function of the program closes over the scope it was made in; a native function
has a name, an arity and one of few actions.
-/

namespace Lox

/-- The place of a scope in the store. -/
abbrev ScopeId := Nat

/-- What a native function does. -/
inductive Action where
  /-- Writes its argument. -/
  | print
  /-- Tells the time. -/
  | clock
  /-- Gives `nil`. -/
  | nothing
  deriving DecidableEq, Repr

inductive Callable where
  /-- A declaration, and the scope that was current when it was evaluated. -/
  | function (declaration : FunctionDecl) (closure : ScopeId)
  | native (name : String) (arity : Nat) (action : Action)

namespace Callable

/-- The number of arguments that a call has to give. -/
def arity : Callable → Nat
  | function declaration _ => declaration.arity
  | native _ arity _ => arity

/-- The name a callable goes by. -/
def name : Callable → String
  | function declaration _ => declaration.displayName
  | native name _ _ => name

/-- How a callable is written. -/
def text : Callable → String
  | function declaration _ => "<fn " ++ declaration.displayName ++ ">"
  | native _ _ _ => "<native fn>"

end Callable

end Lox
