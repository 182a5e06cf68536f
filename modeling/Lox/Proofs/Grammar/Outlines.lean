import Lox.Proofs.Grammar.Legality
import Lox.Proofs.Grammar.Rules

/-!
# What parsers are made of

Every rule of the grammar takes few steps of its own and leaves the rest to other rules, one after
another, as its outline says. The statement that a loop calls for is its body, and so is the block
that a function calls for; a rule that is a body is read as one, and no other. To follow the outline
is to run the parser of the rule, so what is said of all parts of outlines is said of every part of
a parse.
-/

namespace Lox.Grammar

open Concrete (Body)

/-! ### Bodies -/

/-- The body that a rule is for the rule that calls for it, if it is one: the statement of a loop
and the block of a function. -/
@[reducible] def Rule.bodyOf (caller : Rule α) : Rule β → Option Body
  | .statement =>
    match caller with
    | .whileStatement | .forStatement | .loopBody => some .loop
    | _ => none
  | .block =>
    match caller with
    | .function _ | .functionBody => some .function
    | _ => none
  | _ => none

/-- What a parser reads inside a body, or inside none. -/
def within : Option Body → Parser α → Parser α
  | none, p => p
  | some .loop, p => withinLoop p
  | some .function, p => withinFunction p

/-- The state in which the parser of a body starts. -/
def entered : Option Body → State → State
  | none, s => s
  | some .loop, s => { s with loops := s.loops + 1 }
  | some .function, s => { s with loops := 0, functions := s.functions + 1 }

/-- The state after a body that was come to in the state `s`, when its parser has ended. -/
def left (s : State) : Option Body → State → State
  | none, t => t
  | some .loop, t => { t with loops := t.loops - 1 }
  | some .function, t => { t with loops := s.loops, functions := t.functions - 1 }

/-- Within a body a parser is run on a state where the body is entered, and leaves it at its end. -/
theorem within_apply (body : Option Body) (p : Parser α) (s : State) :
    within body p s =
      match p (entered body s) with
      | .ok a t => .ok a (left s body t)
      | .error e t => .error e (left s body t) := by
  cases body with
  | none =>
    simp only [within, entered, left]
    cases p s <;> rfl
  | some body => cases body <;> rfl

/-! ### Steps -/

/-- What a parser does by itself, without another one. -/
inductive Primitive : Type → Type where
  | accept (kinds : List TokenKind) : Primitive (Option Token)
  | isAt (kind : TokenKind) : Primitive Bool
  /-- Looks at the state. -/
  | asks (question : State → Bool) : Primitive Bool
  /-- The error to give up with. -/
  | errorHere (message : String) : Primitive SyntaxError
  | report (token : Token) (message : String) : Primitive Unit
  | reportIf (wrong : State → Bool) (token : Token) (message : String) : Primitive Unit
  | reportExcess (limit count : Nat) (message : String) : Primitive Unit
  /-- Notes the error that another parser gave up with, and skips what it could not read. -/
  | recover (error : SyntaxError) : Primitive Unit

def Primitive.run : Primitive α → Parser α
  | .accept kinds => acceptAny? kinds
  | .isAt kind => Grammar.isAt kind
  | .asks question => fun s => .ok (question s) s
  | .errorHere message => fun s => .ok (.atToken s.peek message) s
  | .report token message => Grammar.report token message
  | .reportIf wrong token message => Grammar.reportIf wrong token message
  | .reportExcess limit count message => Grammar.reportExcess limit count message
  | .recover error => fun s =>
    .ok () { s with errors := s.errors.push error, rest := skipStatement s.rest }

/-- What a parser reads, or the error that it gives up with. -/
def attempt (p : Parser α) : Parser (Except SyntaxError α) := fun s =>
  match p s with
  | .ok a t => .ok (.ok a) t
  | .error (.unexpected error) t => .ok (.error error) t
  | .error .tooDeep t => .error .tooDeep t

/-- Steps and rules in a row, up to something that is read or to an error. What comes next depends
on what they give; a rule gives what it reads or its error. -/
inductive Outline : Type → Type 1 where
  | done {α : Type} (result : Except SyntaxError α) : Outline α
  | step {α β : Type} (p : Primitive β) (next : β → Outline α) : Outline α
  | call {α β : Type} (rule : Rule β) (next : Except SyntaxError β → Outline α) : Outline α
  /-- Repeats a part until it gives a result instead of something to go on with. -/
  | loop {α β γ : Type} (turn : β → Outline (β ⊕ γ)) (start : β) (next : γ → Outline α) : Outline α

namespace Outline

/-- What is read by following an outline on behalf of a rule: rules that it calls for are read by
their parsers, as bodies if they are its bodies. -/
def run (caller : Rule ρ) : Outline α → Parser α
  | .done (.ok a) => pure a
  | .done (.error error) => throw (.unexpected error)
  | .step p next => do (next (← p.run)).run caller
  | .call rule next => do (next (← attempt (within (caller.bodyOf rule) rule.parser))).run caller
  | .loop turn start next => do
    (next (← Grammar.iterate start fun b => (turn b).run caller)).run caller

/-- One outline after another, unless the first one ends with an error. -/
def bind : Outline α → (α → Outline β) → Outline β
  | .done (.ok a), f => f a
  | .done (.error error), _ => .done (.error error)
  | .step p next, f => .step p fun b => (next b).bind f
  | .call rule next, f => .call rule fun r => (next r).bind f
  | .loop turn start next, f => .loop turn start fun c => (next c).bind f

instance : Monad Outline where
  pure a := .done (.ok a)
  bind := bind

/-- One step. -/
def perform (p : Primitive α) : Outline α := .step p pure

/-- What a rule reads. Its error is that of the whole. -/
def read (rule : Rule α) : Outline α := .call rule .done

/-- Gives up, with an error at the token ahead. -/
def fail (message : String) : Outline α :=
  .step (.errorHere message) fun error => .done (.error error)

def iterate (start : α) (turn : α → Outline (α ⊕ β)) : Outline β := .loop turn start pure

/-! ### Running outlines -/

section

variable (caller : Rule ρ)

/-- To catch an ending and end in the same way changes nothing. -/
theorem attempt_bind_done (p : Parser α) :
    (attempt p >>= fun r => (done r).run caller) = p := by
  funext s
  simp only [Bind.bind, EStateM.bind, attempt]
  cases p s with
  | ok a t => rfl
  | error e t => cases e <;> rfl

/-- An outline with nothing but a result runs as that result. -/
@[simp] theorem run_pure (a : α) : (pure a : Outline α).run caller = pure a := rfl

/-- Outlines in a row run as parsers in a row. -/
@[simp] theorem run_bind (o : Outline α) (f : α → Outline β) :
    (o >>= f).run caller = o.run caller >>= fun a => (f a).run caller := by
  induction o with
  | done result => cases result <;> rfl
  | step p next ih =>
    show (p.run >>= fun b => (next b >>= f).run caller) = _
    simp only [ih, run, bind_assoc]
  | call rule next ih =>
    show (attempt (within (caller.bodyOf rule) rule.parser) >>=
      fun r => (next r >>= f).run caller) = _
    simp only [ih, run, bind_assoc]
  | loop turn start next _ ih =>
    show (Grammar.iterate start (fun b => (turn b).run caller) >>=
      fun c => (next c >>= f).run caller) = _
    simp only [ih, run, bind_assoc]

/-- A primitive runs as its parser. -/
@[simp] theorem run_perform (p : Primitive α) : (perform p).run caller = p.run := bind_pure p.run

/-- A rule that is read runs as its parser, within the body that its caller opens. -/
theorem run_read_within (rule : Rule α) :
    (read rule).run caller = within (caller.bodyOf rule) rule.parser :=
  attempt_bind_done caller _

/-- A rule that is no body is read by its parser. -/
theorem run_read {rule : Rule α} (h : caller.bodyOf rule = none) :
    (read rule).run caller = rule.parser := by
  rw [run_read_within, h, within]

/-- A repeated outline runs as a repeated parser. -/
@[simp] theorem run_iterate (start : α) (turn : α → Outline (α ⊕ β)) :
    (iterate start turn).run caller = Grammar.iterate start fun a => (turn a).run caller :=
  bind_pure (Grammar.iterate start fun a => (turn a).run caller)

end

/-! ### Phrases -/

/-- A phrase, unless a token of the given kind is ahead. -/
def unlessAt (kind : TokenKind) (otherwise : α) (o : Outline α) : Outline α := do
  if ← perform (.isAt kind) then return otherwise else o

def separatedStep (limit : Nat) (message : String) (item : Rule α) (items : Array α) :
    Outline (Array α ⊕ Array α) := do
  perform (.reportExcess limit items.size message)
  let last ← read item
  match ← read (.accept [.comma]) with
  | some _ => return .inl (items.push last)
  | none => return .inr (items.push last)

/-- Items separated by commas, at least one. -/
def commaSeparated (limit : Nat) (message : String) (item : Rule α) : Outline (List α) := do
  let items ← iterate #[] (separatedStep limit message item)
  return items.toList

def leftStep (make : Expr → Token → Expr → Expr) (operators : List TokenKind)
    (operand : Rule Expr) (left : Expr) : Outline (Expr ⊕ Expr) := do
  match ← read (.accept operators) with
  | some operator => return .inl (make left operator (← read operand))
  | none => return .inr left

/-- Operands with operators between them, which group to the left. -/
def leftAssociative (make : Expr → Token → Expr → Expr) (operators : List TokenKind)
    (operand : Rule Expr) : Outline Expr := do
  let first ← read operand
  iterate first (leftStep make operators operand)

def declarationStep (stop : State → Bool) (found : Array Stmt) :
    Outline (Array Stmt ⊕ Array Stmt) := do
  if ← perform (.asks stop) then return .inr found
  else return .inl (found.push (← read .declaration))

/-- Declarations until `stop` tells that there is no more. -/
def declarations (stop : State → Bool) : Outline (List Stmt) := do
  let found ← iterate #[] (declarationStep stop)
  return found.toList

section

variable {caller : Rule ρ}

/-- The outline of a choice by the token ahead is that choice. -/
theorem run_unlessAt (kind : TokenKind) (otherwise : α) (o : Outline α) :
    (unlessAt kind otherwise o).run caller = Grammar.unlessAt kind otherwise (o.run caller) := by
  simp only [unlessAt, Grammar.unlessAt, run_bind, run_perform, Primitive.run]
  refine bind_congr fun ahead => ?_
  split <;> rfl

/-- The outline of items with commas between them is their parser, if no body is opened for them. -/
theorem run_commaSeparated (limit : Nat) (message : String) {item : Rule α}
    (h : caller.bodyOf item = none) :
    (commaSeparated limit message item).run caller =
      Grammar.commaSeparated limit message item.parser := by
  have step (items : Array α) : (separatedStep limit message item items).run caller =
      Grammar.separatedStep limit message item.parser items := by
    simp only [separatedStep, Grammar.separatedStep, run_bind, run_perform, run_read _ h]
    refine bind_congr fun _ => bind_congr fun last => ?_
    rw [run_read caller rfl]
    refine bind_congr fun comma => ?_
    cases comma <;> rfl
  simp only [commaSeparated, Grammar.commaSeparated, run_bind, run_iterate, step, run_pure]

/-- The outline of operators of one level is their parser. -/
theorem run_leftAssociative (make : Expr → Token → Expr → Expr) (operators : List TokenKind)
    {operand : Rule Expr} (h : caller.bodyOf operand = none) :
    (leftAssociative make operators operand).run caller =
      Grammar.leftAssociative make operators operand.parser := by
  have step (left : Expr) : (leftStep make operators operand left).run caller =
      Grammar.leftStep make operators operand.parser left := by
    simp only [leftStep, Grammar.leftStep, run_bind]
    rw [run_read caller rfl]
    refine bind_congr fun operator => ?_
    cases operator with
    | none => rfl
    | some operator => simp only [run_bind, run_read _ h, run_pure]
  simp only [leftAssociative, Grammar.leftAssociative, run_bind, run_iterate, step,
    run_read _ h]

/-- The outline of declarations up to a stop is their parser. -/
theorem run_declarations (stop : State → Bool) :
    (declarations stop).run caller = Grammar.declarations .unbounded stop := by
  have step (found : Array Stmt) : (declarationStep stop found).run caller =
      Grammar.declarationStep .unbounded stop found := by
    funext s
    rw [declarationStep_apply, declarationStep, run_bind, run_perform]
    -- What `stop` tells of the state is known before the next step is.
    show (if stop s then _ else _ : Outline _).run caller s = _
    cases stop s with
    | true => rfl
    | false =>
      simp only [Bool.false_eq_true, if_false, run_bind, run_pure, map_eq_pure_bind]
      rw [run_read caller rfl]
      rfl
  simp only [declarations, Grammar.declarations, run_bind, run_iterate, step, run_pure]

end

end Outline

/-! ### The rules -/

/-- What the parser of a rule does, in terms of other rules. -/
@[simp] def Rule.outline : Rule α → Outline α
  | .accept kinds => .perform (.accept kinds)
  | .expect kind message => do
    match ← .read (.accept [kind]) with
    | some token => return token
    | none => .fail message
  | .parameters => do
    let _ ← .read (.expect .leftParen "Expect '(' before parameters.")
    let params ← .unlessAt .rightParen [] <|
      .commaSeparated maxArity "Can't have more than 255 parameters."
        (.expect .identifier "Expect parameter name.")
    let _ ← .read (.expect .rightParen "Expect ')' after parameters.")
    return params
  | .functionBody => do
    let _ ← .read (.expect .leftBrace "Expect '\x7b' before function body.")
    .read .block
  | .function name => do
    let params ← .read .parameters
    let body ← .read .functionBody
    return .mk name params body
  | .primary => do
    match ← .read (.accept primaryStarts) with
    | none => .fail "Expect expression."
    | some token =>
      match token.kind with
      | .identifier => return .variable token
      | .funWord => return .lambda (← .read (.function none))
      | .leftParen =>
        let value ← .read .assignment
        let _ ← .read (.expect .rightParen "Expect ')' after expression.")
        return .grouping value
      | _ => return .literal (constantValue token)
  | .finishCall callee => do
    let arguments ← .unlessAt .rightParen [] <|
      .commaSeparated maxArity "Can't have more than 255 arguments." .assignment
    let paren ← .read (.expect .rightParen "Expect ')' after arguments.")
    return .call callee paren arguments
  | .call => do
    let callee ← .read .primary
    .iterate callee fun callee => do
      match ← .read (.accept [.leftParen]) with
      | some _ => return .inl (← .read (.finishCall callee))
      | none => return .inr callee
  | .unary => do
    let operators ← .iterate #[] fun operators => do
      match ← .read (.accept [.bang, .minus]) with
      | some operator => return .inl (operators.push operator)
      | none => return .inr operators
    let operand ← .read .call
    return operators.foldr .unary operand
  | .power => do
    let (bases, exponent) ← .iterate #[] fun bases => do
      let operand ← .read .unary
      match ← .read (.accept [.starStar]) with
      | some operator => return .inl (bases.push (operand, operator))
      | none => return .inr (bases, operand)
    return bases.foldr raise exponent
  | .factor => .leftAssociative .binary [.slash, .star] .power
  | .term => .leftAssociative .binary [.minus, .plus] .factor
  | .comparison => .leftAssociative .binary [.greater, .greaterEqual, .less, .lessEqual] .term
  | .equality => .leftAssociative .binary [.bangEqual, .equalEqual] .comparison
  | .conjunction => .leftAssociative .logical [.andWord] .equality
  | .disjunction => .leftAssociative .logical [.orWord] .conjunction
  | .assignment => do
    let target ← .read .disjunction
    match ← .read (.accept [.equal]) with
    | none => return target
    | some equals =>
      let value ← .read .assignment
      match target with
      | .variable name => return .assign name value
      | target =>
        .perform (.report equals "Invalid assignment target.")
        return target
  | .expressionStatement => do
    let value ← .read .assignment
    let _ ← .read (.expect .semicolon "Expect ';' after expression.")
    return .expression value
  | .varDeclaration => do
    let name ← .read (.expect .identifier "Expect variable name.")
    let initializer ← do
      match ← .read (.accept [.equal]) with
      | some _ => pure (some (← .read .assignment))
      | none => pure none
    let _ ← .read (.expect .semicolon "Expect ';' after variable declaration.")
    return .var name initializer
  | .functionDeclaration => do
    let name ← .read (.expect .identifier "Expect function name.")
    return .function (← .read (.function (some name)))
  | .loopControl keyword word => do
    .perform (.reportIf (·.loops = 0) keyword ("Cannot use '" ++ word ++ "' outside of a loop."))
    let _ ← .read (.expect .semicolon "Expect ';' after expression.")
  | .loopBody => .read .statement
  | .forInitializer => do
    match ← .read (.accept [.semicolon, .varWord]) with
    | some token =>
      if token.kind = .semicolon then return none
      else return some (← .read .varDeclaration)
    | none => return some (← .read .expressionStatement)
  | .expressionBefore stop => .unlessAt stop none do return some (← .read .assignment)
  | .forStatement => do
    let _ ← .read (.expect .leftParen "Expect '(' after 'for'.")
    let initializer ← .read .forInitializer
    let condition ← .read (.expressionBefore .semicolon)
    let _ ← .read (.expect .semicolon "Expect ';' after loop condition.")
    let increment ← .read (.expressionBefore .rightParen)
    let _ ← .read (.expect .rightParen "Expect ')' after for clauses.")
    return forLoop initializer condition increment (← .read .loopBody)
  | .ifStatement => do
    let _ ← .read (.expect .leftParen "Expect '(' after 'if'.")
    let condition ← .read .assignment
    let _ ← .read (.expect .rightParen "Expect ')' after condition.")
    let thenBranch ← .read .statement
    match ← .read (.accept [.elseWord]) with
    | some _ => return .ifElse condition thenBranch (some (← .read .statement))
    | none => return .ifElse condition thenBranch none
  | .returnStatement keyword => do
    .perform (.reportIf (·.functions = 0) keyword "Cannot return from top-level code.")
    let value ← .read (.expressionBefore .semicolon)
    let _ ← .read (.expect .semicolon "Expect ';' after return value.")
    return .return value
  | .whileStatement => do
    let _ ← .read (.expect .leftParen "Expect '(' after 'while'.")
    let condition ← .read .assignment
    let _ ← .read (.expect .rightParen "Expect ')' after condition.")
    return .while condition (← .read .loopBody)
  | .statement => do
    match ← .read (.accept statementStarts) with
    | none => .read .expressionStatement
    | some keyword =>
      match keyword.kind with
      | .breakWord =>
        .read (.loopControl keyword "break")
        return .break
      | .continueWord =>
        .read (.loopControl keyword "continue")
        return .continue
      | .forWord => .read .forStatement
      | .ifWord => .read .ifStatement
      | .returnWord => .read (.returnStatement keyword)
      | .leftBrace => return .block (← .read .block)
      | _ => .read .whileStatement
  | .declarationOrFail => do
    match ← .read (.accept [.funWord, .varWord]) with
    | none => .read .statement
    | some keyword =>
      if keyword.kind = .funWord then .read .functionDeclaration else .read .varDeclaration
  | .declaration =>
    .call .declarationOrFail fun
      | .ok parsed => return parsed
      | .error error => do
        .perform (.recover error)
        return .empty
  | .block => do
    let statements ← .declarations fun s => s.isAt .rightBrace || s.rest.isEmpty
    let _ ← .read (.expect .rightBrace "Expect '\x7d' after block.")
    return statements
  | .program => .declarations (·.rest.isEmpty)

namespace Rule

open Outline

/-- An expression is what the rule of assignments reads. -/
private theorem expression_eq : Inner.unbounded.expression = Rule.assignment.parser :=
  Inner.recursive_unbounded.expression

/-- A statement is what the rule of statements reads. -/
private theorem statement_eq : Inner.unbounded.statement = Rule.statement.parser :=
  Inner.recursive_unbounded.statement

private theorem block_eq : Inner.unbounded.block = Rule.block.parser :=
  Inner.recursive_unbounded.block

private theorem run_expect (kind : TokenKind) (message : String) :
    (Rule.expect kind message).outline.run (.expect kind message) =
      Grammar.expect kind message := by
  simp (disch := rfl) only [outline, Grammar.expect, accept?, run_bind, run_read]
  refine bind_congr fun token => ?_
  cases token <;> rfl

private theorem run_primary : Rule.primary.outline.run .primary = Grammar.primary .unbounded := by
  simp (disch := rfl) only [outline, Grammar.primary, run_bind, run_read, expression_eq]
  refine bind_congr fun token => ?_
  cases token with
  | none => rfl
  | some token =>
    simp only
    generalize token.kind = kind
    cases kind with
    | funWord | leftParen =>
      simp (disch := rfl) only [run_bind, run_read, run_pure]
      rfl
    | _ => rfl

private theorem run_call : Rule.call.outline.run .call = Grammar.call .unbounded := by
  simp (disch := rfl) only [outline, Grammar.call, run_bind, run_read, run_iterate]
  refine bind_congr fun callee => congrArg (Grammar.iterate callee) (funext fun callee => ?_)
  refine bind_congr fun opening => ?_
  cases opening with
  | none => rfl
  | some opening =>
    simp (disch := rfl) only [run_bind, run_read, run_pure]
    rfl

private theorem run_unary : Rule.unary.outline.run .unary = Grammar.unary .unbounded := by
  simp (disch := rfl) only [outline, Grammar.unary, run_bind, run_read, run_iterate, run_pure]
  refine congrArg₂ Bind.bind (congrArg (Grammar.iterate #[]) (funext fun operators => ?_)) rfl
  refine bind_congr fun operator => ?_
  cases operator <;> rfl

private theorem run_power : Rule.power.outline.run .power = Grammar.power .unbounded := by
  simp (disch := rfl) only [outline, Grammar.power, run_bind, run_read, run_iterate, run_pure]
  refine congrArg₂ Bind.bind (congrArg (Grammar.iterate #[]) (funext fun bases => ?_)) rfl
  refine bind_congr fun operand => bind_congr fun operator => ?_
  cases operator <;> rfl

private theorem run_assignment :
    Rule.assignment.outline.run .assignment = Grammar.assignment .unbounded := by
  simp (disch := rfl) only [outline, Grammar.assignment, accept?, run_bind, run_read,
    expression_eq]
  refine bind_congr fun target => bind_congr fun equals => ?_
  cases equals with
  | none => rfl
  | some equals =>
    simp (disch := rfl) only [run_bind, run_read]
    refine bind_congr fun value => ?_
    cases target <;> rfl

private theorem run_varDeclaration :
    Rule.varDeclaration.outline.run .varDeclaration = Grammar.varDeclaration .unbounded := by
  simp (disch := rfl) only [outline, Grammar.varDeclaration, initialValue, accept?, run_bind,
    run_read, bind_assoc, expression_eq]
  refine bind_congr fun name => bind_congr fun equals => ?_
  cases equals with
  | none =>
    simp (disch := rfl) only [run_bind, run_read, run_pure, pure_bind]
    rfl
  | some equals =>
    simp (disch := rfl) only [run_bind, run_read, run_pure, bind_assoc, pure_bind]
    rfl

private theorem run_forInitializer :
    Rule.forInitializer.outline.run .forInitializer = Grammar.forInitializer .unbounded := by
  simp (disch := rfl) only [outline, Grammar.forInitializer, run_bind, run_read]
  refine bind_congr fun token => ?_
  cases token with
  | none =>
    simp (disch := rfl) only [run_bind, run_read, run_pure]
    rfl
  | some token =>
    simp only
    split
    · rfl
    · simp (disch := rfl) only [run_bind, run_read, run_pure]
      rfl

private theorem run_ifStatement :
    Rule.ifStatement.outline.run .ifStatement = Grammar.ifStatement .unbounded := by
  simp (disch := rfl) only [outline, Grammar.ifStatement, accept?, run_bind, run_read,
    expression_eq, statement_eq]
  refine bind_congr fun _ => bind_congr fun condition => bind_congr fun _ => ?_
  refine bind_congr fun thenBranch => bind_congr fun elseWord => ?_
  cases elseWord with
  | none => rfl
  | some elseWord => simp (disch := rfl) only [run_bind, run_read, run_pure]

private theorem run_statement :
    Rule.statement.outline.run .statement = Grammar.statement .unbounded := by
  simp (disch := rfl) only [outline, Grammar.statement, run_bind, run_read, block_eq]
  refine bind_congr fun keyword => ?_
  cases keyword with
  | none => exact run_read _ rfl
  | some keyword =>
    simp only
    generalize keyword.kind = kind
    cases kind with
    | leftBrace => simp (disch := rfl) only [run_bind, run_read, run_pure]
    | breakWord | continueWord =>
      simp (disch := rfl) only [run_bind, run_read, run_pure]
      rfl
    | _ => exact run_read _ rfl

/-- The outline of a declaration that may fail is its parser. -/
private theorem run_declarationOrFail :
    Rule.declarationOrFail.outline.run .declarationOrFail =
      Grammar.declarationOrFail .unbounded := by
  simp (disch := rfl) only [outline, Grammar.declarationOrFail, run_bind, run_read, statement_eq]
  refine bind_congr fun keyword => ?_
  cases keyword with
  | none => exact run_read _ rfl
  | some keyword =>
    simp only
    split <;> exact run_read _ rfl

/-- The outline of a declaration is its parser, with the recovery from errors. -/
private theorem run_declaration :
    Rule.declaration.outline.run .declaration = Grammar.declaration .unbounded := by
  funext s
  -- An error that is caught comes as a result to what recovers from it.
  show (attempt (Grammar.declarationOrFail .unbounded) >>= _) s = recovering _ s
  simp only [recovering, Bind.bind, EStateM.bind, attempt]
  cases Grammar.declarationOrFail .unbounded s with
  | ok parsed t => rfl
  | error failure t => cases failure <;> rfl

/-- To follow its outline is to run the parser of a rule. -/
theorem run_outline (rule : Rule α) : rule.outline.run rule = rule.parser := by
  cases rule with
  | accept kinds => exact run_perform _ (.accept kinds)
  | expect kind message => exact run_expect kind message
  | primary => exact run_primary
  | call => exact run_call
  | unary => exact run_unary
  | power => exact run_power
  | factor => exact run_leftAssociative _ _ rfl
  | term => exact run_leftAssociative _ _ rfl
  | comparison => exact run_leftAssociative _ _ rfl
  | equality => exact run_leftAssociative _ _ rfl
  | conjunction => exact run_leftAssociative _ _ rfl
  | disjunction => exact run_leftAssociative _ _ rfl
  | assignment => exact run_assignment
  | varDeclaration => exact run_varDeclaration
  | forInitializer => exact run_forInitializer
  | ifStatement => exact run_ifStatement
  | statement => exact run_statement
  | declarationOrFail => exact run_declarationOrFail
  | declaration => exact run_declaration
  | program => exact run_declarations _
  -- The rest read one thing after another.
  | parameters | function | functionDeclaration | loopControl | forStatement | returnStatement =>
    simp (disch := rfl) only [outline, run_bind, run_perform, run_read, run_unlessAt,
      run_commaSeparated, run_pure]
    rfl
  | finishCall callee =>
    simp (disch := rfl) only [outline, parser, Grammar.finishCall, run_bind, run_read, run_unlessAt,
      run_commaSeparated, run_pure, expression_eq]
  | expressionStatement =>
    simp (disch := rfl) only [outline, parser, Grammar.expressionStatement, run_bind, run_read,
      run_pure, expression_eq]
  | expressionBefore stop =>
    simp (disch := rfl) only [outline, parser, Grammar.expressionBefore, run_unlessAt, run_bind,
      run_read, run_pure, map_eq_pure_bind, expression_eq]
  | whileStatement =>
    simp (disch := rfl) only [outline, parser, Grammar.whileStatement, run_bind, run_read, run_pure,
      expression_eq]
  | functionBody =>
    simp (disch := rfl) only [outline, parser, Grammar.functionBody, run_bind, run_read,
      run_read_within, within, block_eq]
  | loopBody =>
    simp only [outline, parser, Grammar.loopBody, run_read_within, within, statement_eq]
  | block =>
    simp (disch := rfl) only [outline, parser, Grammar.block, run_bind, run_read, run_pure,
      run_declarations]

end Rule

end Lox.Grammar
