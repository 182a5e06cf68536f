import Lox.Token
import Lox.Value

/-!
# Programs as trees

Expressions and statements, with the tokens that names, operators and error lines
are taken from. A `for` loop has no node of its own: it is a `while` in blocks.
-/

namespace Lox

mutual

inductive Expr where
  | assign (name : Token) (value : Expr)
  | binary (left : Expr) (operator : Token) (right : Expr)
  /-- The right operand is evaluated only if the left one does not decide. -/
  | logical (left : Expr) (operator : Token) (right : Expr)
  | grouping (inner : Expr)
  | literal (value : Value)
  | unary (operator : Token) (operand : Expr)
  | variable (name : Token)
  /-- The closing parenthesis is kept for its line. -/
  | call (callee : Expr) (paren : Token) (arguments : List Expr)
  /-- A function without a name. -/
  | lambda (function : FunctionDecl)

inductive Stmt where
  | block (statements : List Stmt)
  | expression (value : Expr)
  | var (name : Token) (initializer : Option Expr)
  | ifElse (condition : Expr) (thenBranch : Stmt) (elseBranch : Option Stmt)
  | while (condition : Expr) (body : Stmt)
  | break
  | continue
  | function (declaration : FunctionDecl)
  | return (value : Option Expr)
  /-- Stands for a declaration that could not be parsed. -/
  | empty

/-- Parameters and body of a function, and its name if it has one. -/
inductive FunctionDecl where
  | mk (name : Option Token) (params : List Token) (body : List Stmt)

end

instance : Inhabited Expr := ⟨.literal .nil⟩

instance : Inhabited Stmt := ⟨.empty⟩

namespace FunctionDecl

def name : FunctionDecl → Option Token
  | mk name _ _ => name

def params : FunctionDecl → List Token
  | mk _ params _ => params

def body : FunctionDecl → List Stmt
  | mk _ _ body => body

/-- The number of arguments that a call has to give. -/
def arity (f : FunctionDecl) : Nat := f.params.length

/-- The name a function goes by. -/
def displayName (f : FunctionDecl) : String := (f.name.map Token.lexeme).getD "anonymous"

end FunctionDecl

end Lox
