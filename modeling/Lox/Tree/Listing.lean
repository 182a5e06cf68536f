import Lox.Tree.Basic

/-!
# Programs as text

Every node is written in parentheses with its operator first, as in
`(* (- 123) (group 45.67))`, and every statement of a program on a line of its own.
-/

namespace Lox

/-- A head and its parts, separated by spaces, in parentheses. -/
def parenthesize (head : String) (parts : List String) : String :=
  "(" ++ " ".intercalate (head :: parts) ++ ")"

/-- A literal. The text of a string stands between quotes as it is. -/
def Value.listing : Value → String
  | .string text => "\"" ++ text ++ "\""
  | value => value.text

mutual

def Expr.listing : Expr → String
  | .assign name value => parenthesize "=" [name.lexeme, value.listing]
  | .binary left operator right | .logical left operator right =>
    parenthesize operator.lexeme [left.listing, right.listing]
  | .grouping inner => parenthesize "group" [inner.listing]
  | .literal value => value.listing
  | .unary operator operand => parenthesize operator.lexeme [operand.listing]
  | .variable name => name.lexeme
  | .call callee _ arguments => parenthesize "call" (callee.listing :: Expr.listings arguments)
  | .lambda function => function.listing

def Expr.listings : List Expr → List String
  | [] => []
  | e :: rest => e.listing :: Expr.listings rest

def Stmt.listing : Stmt → String
  | .block statements => parenthesize "block" (Stmt.listings statements)
  | .expression value => parenthesize ";" [value.listing]
  | .var name (some value) => parenthesize "var" [name.lexeme, value.listing]
  | .var name none => parenthesize "var" [name.lexeme]
  | .ifElse condition thenBranch (some elseBranch) =>
    parenthesize "if" [condition.listing, thenBranch.listing, elseBranch.listing]
  | .ifElse condition thenBranch none =>
    parenthesize "if" [condition.listing, thenBranch.listing]
  | .while condition body => parenthesize "while" [condition.listing, body.listing]
  | .break => "(break)"
  | .continue => "(continue)"
  | .function declaration => declaration.listing
  | .return (some value) => parenthesize "return" [value.listing]
  | .return none => "(return)"
  | .empty => "(empty)"

def Stmt.listings : List Stmt → List String
  | [] => []
  | s :: rest => s.listing :: Stmt.listings rest

/-- The name, if there is one, the parameters in parentheses, and the body. -/
def FunctionDecl.listing : FunctionDecl → String
  | .mk name params body =>
    let signature := "(" ++ " ".intercalate (params.map Token.lexeme) ++ ")"
    parenthesize "fun" ((name.map Token.lexeme).toList ++ signature :: Stmt.listings body)

end

/-- A program, one statement a line. -/
def Stmt.programListing (statements : List Stmt) : String :=
  String.join (statements.map fun s => s.listing ++ "\n")

end Lox
