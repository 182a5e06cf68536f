import Lox.Grammar.Expression

/-!
# Statements and declarations

A statement that cannot be parsed fails up to the declaration around it, which notes
the error, skips to where the next statement seems to start and stands in the tree as
an empty statement.
-/

namespace Lox.Grammar

/-- An expression and its semicolon. -/
def expressionStatement (inner : Inner) : Parser Stmt := do
  let value ← inner.expression
  let _ ← expect .semicolon "Expect ';' after expression."
  return .expression value

/-- The value a variable starts with, if an equals sign is ahead. -/
def initialValue (inner : Inner) : Parser (Option Expr) := do
  match ← accept? .equal with
  | some _ => return some (← inner.expression)
  | none => return none

/-- A variable, after the word `var`. -/
def varDeclaration (inner : Inner) : Parser Stmt := do
  let name ← expect .identifier "Expect variable name."
  let initializer ← initialValue inner
  let _ ← expect .semicolon "Expect ';' after variable declaration."
  return .var name initializer

/-- A function with a name, after the word `fun`. -/
def functionDeclaration (inner : Inner) : Parser Stmt := do
  let name ← expect .identifier "Expect function name."
  return .function (← function inner (some name))

/-- The rest of `break` and `continue`. Outside a loop the word is reported. -/
def loopControl (keyword : Token) (word : String) : Parser Unit := do
  reportIf (·.loops = 0) keyword ("Cannot use '" ++ word ++ "' outside of a loop.")
  let _ ← expect .semicolon "Expect ';' after expression."

/-- The body of a loop, which is not a declaration. -/
def loopBody (inner : Inner) : Parser Stmt := withinLoop inner.statement

/-- The tree of a loop with three clauses: the increment runs at the end of the body, in a scope
with it, and the initializer in a scope around the loop. A loop without a condition goes on. -/
def forLoop (initializer : Option Stmt) (condition increment : Option Expr) (body : Stmt) : Stmt :=
  let body :=
    match increment with
    | some increment => .block [body, .expression increment]
    | none => body
  let loop := .while (condition.getD (.literal (.bool true))) body
  match initializer with
  | some initializer => .block [initializer, loop]
  | none => loop

/-- The first clause of a `for`, up to and with its semicolon. -/
def forInitializer (inner : Inner) : Parser (Option Stmt) := do
  match ← acceptAny? [.semicolon, .varWord] with
  | some token =>
    if token.kind = .semicolon then return none
    else return some (← varDeclaration inner)
  | none => return some (← expressionStatement inner)

/-- An expression, unless the token that ends it is ahead. -/
def expressionBefore (inner : Inner) (stop : TokenKind) : Parser (Option Expr) :=
  unlessAt stop none (some <$> inner.expression)

/-- A loop with three clauses, after the word `for`. -/
def forStatement (inner : Inner) : Parser Stmt := do
  let _ ← expect .leftParen "Expect '(' after 'for'."
  let initializer ← forInitializer inner
  let condition ← expressionBefore inner .semicolon
  let _ ← expect .semicolon "Expect ';' after loop condition."
  let increment ← expressionBefore inner .rightParen
  let _ ← expect .rightParen "Expect ')' after for clauses."
  return forLoop initializer condition increment (← loopBody inner)

/-- A choice, after the word `if`. An `else` belongs to the nearest `if`. -/
def ifStatement (inner : Inner) : Parser Stmt := do
  let _ ← expect .leftParen "Expect '(' after 'if'."
  let condition ← inner.expression
  let _ ← expect .rightParen "Expect ')' after condition."
  let thenBranch ← inner.statement
  match ← accept? .elseWord with
  | some _ => return .ifElse condition thenBranch (some (← inner.statement))
  | none => return .ifElse condition thenBranch none

/-- A return, after its word, which is reported outside a function. -/
def returnStatement (inner : Inner) (keyword : Token) : Parser Stmt := do
  reportIf (·.functions = 0) keyword "Cannot return from top-level code."
  let value ← expressionBefore inner .semicolon
  let _ ← expect .semicolon "Expect ';' after return value."
  return .return value

/-- A loop, after the word `while`. -/
def whileStatement (inner : Inner) : Parser Stmt := do
  let _ ← expect .leftParen "Expect '(' after 'while'."
  let condition ← inner.expression
  let _ ← expect .rightParen "Expect ')' after condition."
  return .while condition (← loopBody inner)

/-- The tokens that tell what statement follows; any other starts an expression. -/
def statementStarts : List TokenKind :=
  [.breakWord, .continueWord, .forWord, .ifWord, .returnWord, .leftBrace, .whileWord]

/-- A statement that is not a declaration. -/
def statement (inner : Inner) : Parser Stmt := do
  match ← acceptAny? statementStarts with
  | none => expressionStatement inner
  | some keyword =>
    match keyword.kind with
    | .breakWord =>
      loopControl keyword "break"
      return .break
    | .continueWord =>
      loopControl keyword "continue"
      return .continue
    | .forWord => forStatement inner
    | .ifWord => ifStatement inner
    | .returnWord => returnStatement inner keyword
    | .leftBrace => return .block (← inner.block)
    | _ => whileStatement inner

/-- The words at which skipping stops. -/
def isStatementStart (kind : TokenKind) : Bool :=
  kind ∈ [.classWord, .funWord, .varWord, .forWord, .ifWord, .whileWord, .returnWord]

/-- Skips at least one token, up to the end of a statement or the start of another. -/
def skipStatement : List Token → List Token
  | [] => []
  | token :: rest =>
    if token.kind = .semicolon then rest
    else if rest.head?.any (isStatementStart ·.kind) then rest
    else skipStatement rest

/-- Notes an error that a parser gave up with, and skips what it could not read. -/
def recovering (p : Parser Stmt) : Parser Stmt := fun s =>
  match p s with
  | .ok parsed t => .ok parsed t
  | .error .tooDeep t => .error .tooDeep t
  | .error (.unexpected error) t =>
    .ok .empty { t with errors := t.errors.push error, rest := skipStatement t.rest }

/-- A declaration or a statement. -/
def declarationOrFail (inner : Inner) : Parser Stmt := do
  match ← acceptAny? [.funWord, .varWord] with
  | none => inner.statement
  | some keyword =>
    if keyword.kind = .funWord then functionDeclaration inner else varDeclaration inner

/-- A declaration or a statement, or an empty statement in place of one that cannot be read. -/
def declaration (inner : Inner) : Parser Stmt := recovering (declarationOrFail inner)

/-- One declaration more, unless `stop` tells that there is none. -/
def declarationStep (inner : Inner) (stop : State → Bool) (found : Array Stmt) :
    Parser (Array Stmt ⊕ Array Stmt) := do
  if stop (← get) then return .inr found
  else return .inl (found.push (← declaration inner))

theorem declarationStep_apply (inner : Inner) (stop : State → Bool) (found : Array Stmt)
    (s : State) :
    declarationStep inner stop found s =
      (if stop s then return .inr found
        else (fun d => .inl (found.push d)) <$> declaration inner : Parser _) s := rfl

/-- Declarations until `stop` tells that there is no more. -/
def declarations (inner : Inner) (stop : State → Bool) : Parser (List Stmt) := do
  let found ← iterate #[] (declarationStep inner stop)
  return found.toList

/-- The declarations of a block and its closing brace. -/
def block (inner : Inner) : Parser (List Stmt) := do
  let statements ← declarations inner fun s => s.isAt .rightBrace || s.rest.isEmpty
  let _ ← expect .rightBrace "Expect '\x7d' after block."
  return statements

end Lox.Grammar
