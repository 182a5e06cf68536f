import Lox.Grammar.Cursor
import Lox.Tree.Basic

/-!
# Expressions

One parser for each level of precedence, from assignment, which binds loosest, to
names, literals and parentheses. The levels are parsers of one operand each; what
stands in parentheses, in an argument or in a function body is parsed by the parsers
in `Inner`, so that no level refers to itself.
-/

namespace Lox.Grammar

/-- The parsers of whatever is nested in what is being parsed. -/
structure Inner where
  expression : Parser Expr
  /-- A statement that is not a declaration. -/
  statement : Parser Stmt
  /-- The statements of a block, up to and with its closing brace. -/
  block : Parser (List Stmt)

/-- Functions have at most this many parameters, and calls this many arguments. -/
def maxArity : Nat := 255

/-- Parameters in parentheses. -/
def parameters : Parser (List Token) := do
  let _ ← expect .leftParen "Expect '(' before parameters."
  let params ← unlessAt .rightParen [] <|
    commaSeparated maxArity "Can't have more than 255 parameters."
      (expect .identifier "Expect parameter name.")
  let _ ← expect .rightParen "Expect ')' after parameters."
  return params

/-- The braces of a function and what stands between them. -/
def functionBody (inner : Inner) : Parser (List Stmt) := do
  let _ ← expect .leftBrace "Expect '\x7b' before function body."
  withinFunction inner.block

/-- Parameters and body. -/
def function (inner : Inner) (name : Option Token) : Parser FunctionDecl := do
  let params ← parameters
  let body ← functionBody inner
  return .mk name params body

/-- The value that a token denotes. -/
def literalValue (token : Token) : Value :=
  match token.literal with
  | some (.number value) => .number value
  | some (.string text) => .string text
  | none => .nil

/-- The value of a token that is an expression by itself, other than a name. -/
def constantValue (token : Token) : Value :=
  match token.kind with
  | .falseWord => .bool false
  | .trueWord => .bool true
  | .nilWord => .nil
  | _ => literalValue token

/-- The tokens an operand starts with. -/
def primaryStarts : List TokenKind :=
  [.falseWord, .trueWord, .nilWord, .number, .string, .identifier, .funWord, .leftParen]

/-- A literal, a name, a function without a name, or an expression in parentheses. -/
def primary (inner : Inner) : Parser Expr := do
  match ← acceptAny? primaryStarts with
  | none => failHere "Expect expression."
  | some token =>
    match token.kind with
    | .identifier => return .variable token
    | .funWord => return .lambda (← function inner none)
    | .leftParen =>
      let value ← inner.expression
      let _ ← expect .rightParen "Expect ')' after expression."
      return .grouping value
    | _ => return .literal (constantValue token)

/-- The arguments of a call, after its opening parenthesis. -/
def finishCall (inner : Inner) (callee : Expr) : Parser Expr := do
  let arguments ← unlessAt .rightParen [] <|
    commaSeparated maxArity "Can't have more than 255 arguments." inner.expression
  let paren ← expect .rightParen "Expect ')' after arguments."
  return .call callee paren arguments

/-- One call more on what has been read, if an opening parenthesis follows. -/
def callStep (inner : Inner) (callee : Expr) : Parser (Expr ⊕ Expr) := do
  match ← accept? .leftParen with
  | some _ => return .inl (← finishCall inner callee)
  | none => return .inr callee

/-- An operand and any number of calls on it. -/
def call (inner : Inner) : Parser Expr := do
  let callee ← primary inner
  iterate callee (callStep inner)

/-- One unary operator more, if one follows. -/
def unaryStep (operators : Array Token) : Parser (Array Token ⊕ Array Token) := do
  match ← acceptAny? [.bang, .minus] with
  | some operator => return .inl (operators.push operator)
  | none => return .inr operators

/-- Any number of unary operators, the last one applied first. -/
def unary (inner : Inner) : Parser Expr := do
  let operators ← iterate #[] unaryStep
  let operand ← call inner
  return operators.foldr .unary operand

/-- One operand of powers more: a base if an operator follows it, else the last exponent. -/
def powerStep (inner : Inner) (bases : Array (Expr × Token)) :
    Parser (Array (Expr × Token) ⊕ Array (Expr × Token) × Expr) := do
  let operand ← unary inner
  match ← accept? .starStar with
  | some operator => return .inl (bases.push (operand, operator))
  | none => return .inr (bases, operand)

/-- A base with the operator after it, raised to an exponent. -/
def raise (base : Expr × Token) (exponent : Expr) : Expr := .binary base.1 base.2 exponent

/-- Powers, which group to the right. -/
def power (inner : Inner) : Parser Expr := do
  let (bases, exponent) ← iterate #[] (powerStep inner)
  return bases.foldr raise exponent

/-- One operator and its right operand more, if an operator follows. -/
def leftStep (make : Expr → Token → Expr → Expr) (operators : List TokenKind)
    (operand : Parser Expr) (left : Expr) : Parser (Expr ⊕ Expr) := do
  match ← acceptAny? operators with
  | some operator => return .inl (make left operator (← operand))
  | none => return .inr left

/-- Operands with operators between them, which group to the left. -/
def leftAssociative (make : Expr → Token → Expr → Expr) (operators : List TokenKind)
    (operand : Parser Expr) : Parser Expr := do
  let first ← operand
  iterate first (leftStep make operators operand)

def factor (inner : Inner) : Parser Expr :=
  leftAssociative .binary [.slash, .star] (power inner)

def term (inner : Inner) : Parser Expr :=
  leftAssociative .binary [.minus, .plus] (factor inner)

def comparison (inner : Inner) : Parser Expr :=
  leftAssociative .binary [.greater, .greaterEqual, .less, .lessEqual] (term inner)

def equality (inner : Inner) : Parser Expr :=
  leftAssociative .binary [.bangEqual, .equalEqual] (comparison inner)

def conjunction (inner : Inner) : Parser Expr :=
  leftAssociative .logical [.andWord] (equality inner)

def disjunction (inner : Inner) : Parser Expr :=
  leftAssociative .logical [.orWord] (conjunction inner)

/-- Assignments, which group to the right. A target that is not a name is reported once the value
has been read, and stands for the whole. -/
def assignment (inner : Inner) : Parser Expr := do
  let target ← disjunction inner
  match ← accept? .equal with
  | none => return target
  | some equals =>
    let value ← inner.expression
    match target with
    | .variable name => return .assign name value
    | target =>
      report equals "Invalid assignment target."
      return target

end Lox.Grammar
