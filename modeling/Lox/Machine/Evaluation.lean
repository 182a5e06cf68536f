import Lox.Machine.Basic
import Lox.Machine.Operator

/-!
# Running statements and evaluating expressions

Every function here takes fuel, one unit for each step into a tree, a call or another
turn of a loop. With enough fuel the result does not depend on it.
-/

namespace Lox

/-- How a statement ends, if not with an error. -/
inductive Flow where
  | normal
  | break
  | continue
  | return (value : Value)
  deriving Repr

/-- What a call gives: the value that the body returned, or `nil`. -/
def Flow.result : Flow → Value
  | .return value => value
  | _ => .nil

/-- The most calls that can be in progress. -/
def maxDepth : Nat := 4096

/-- Goes on with a result of an operator. -/
@[inline]
def Run.ofExcept : Except RuntimeError α → Run α
  | .ok a, m => .ok a m
  | .error e, m => .error (.error e) m

/-- The callable to be called with these arguments. -/
def callee (value : Value) (arguments : Nat) (paren : Token) : Run Callable := fun m =>
  match value with
  | .callable ref =>
    match m.store.callable? ref with
    | some callable =>
      if arguments = callable.arity then .ok callable m
      else .error (.error ((Fault.arityMismatch callable.arity arguments).atToken paren)) m
    | none => .error (.error (Fault.notCallable.atToken paren)) m
  | _ => .error (.error (Fault.notCallable.atToken paren)) m

mutual

/-- Runs a statement. -/
def execute : Nat → Stmt → Run Flow
  | 0, _ => throw .outOfFuel
  | fuel + 1, .block statements => withBlockScope (executeAll fuel statements)
  | fuel + 1, .expression value => do
    let _ ← evaluate fuel value
    return .normal
  | fuel + 1, .var name (some initializer) => do
    declareVariable name (← evaluate fuel initializer)
    return .normal
  | _ + 1, .var name none => do
    declareVariable name .nil
    return .normal
  | fuel + 1, .ifElse condition thenBranch elseBranch => do
    if (← evaluate fuel condition).isTruthy then
      execute fuel thenBranch
    else
      match elseBranch with
      | some elseBranch => execute fuel elseBranch
      | none => return .normal
  | fuel + 1, .while condition body => repeatWhile fuel condition body
  | _ + 1, .break => return .break
  | _ + 1, .continue => return .continue
  | _ + 1, .function declaration => do
    declareFunction declaration
    return .normal
  | fuel + 1, .return (some value) => do
    return .return (← evaluate fuel value)
  | _ + 1, .return none => return .return .nil
  | _ + 1, .empty => return .normal

/-- Runs statements until one does not end normally. -/
def executeAll : Nat → List Stmt → Run Flow
  | 0, _ => throw .outOfFuel
  | _ + 1, [] => return .normal
  | fuel + 1, statement :: rest => do
    match ← execute fuel statement with
    | .normal => executeAll fuel rest
    | flow => return flow

/-- Runs a loop: a break ends it, and a return leaves it. -/
def repeatWhile : Nat → Expr → Stmt → Run Flow
  | 0, _, _ => throw .outOfFuel
  | fuel + 1, condition, body => do
    if (← evaluate fuel condition).isTruthy then
      match ← execute fuel body with
      | .break => return .normal
      | .return value => return .return value
      | .normal | .continue => repeatWhile fuel condition body
    else
      return .normal

/-- The value of an expression. -/
def evaluate : Nat → Expr → Run Value
  | 0, _ => throw .outOfFuel
  | fuel + 1, .assign name value => do
    let value ← evaluate fuel value
    assignVariable name value
    return value
  | fuel + 1, .binary left operator right => do
    let left ← evaluate fuel left
    let right ← evaluate fuel right
    Run.ofExcept (Operator.binary operator left right)
  | fuel + 1, .logical left operator right => do
    let left ← evaluate fuel left
    if Operator.decides operator left then return left
    else evaluate fuel right
  | fuel + 1, .grouping inner => evaluate fuel inner
  | _ + 1, .literal value => return value
  | fuel + 1, .unary operator operand => do
    let operand ← evaluate fuel operand
    Run.ofExcept (Operator.unary operator operand)
  | _ + 1, .variable name => readVariable name
  | fuel + 1, .call function paren arguments => do
    let function ← evaluate fuel function
    let arguments ← evaluateAll fuel arguments
    call fuel (← callee function arguments.length paren) arguments paren
  | _ + 1, .lambda declaration => makeFunction declaration

/-- The values of expressions, from left to right. -/
def evaluateAll : Nat → List Expr → Run (List Value)
  | 0, _ => throw .outOfFuel
  | _ + 1, [] => return []
  | fuel + 1, expression :: rest => do
    let value ← evaluate fuel expression
    return value :: (← evaluateAll fuel rest)

/-- Calls a callable with as many arguments as it takes. -/
def call : Nat → Callable → List Value → Token → Run Value
  | 0, _, _, _ => throw .outOfFuel
  | _ + 1, .native _ _ action, arguments, paren => performAction action arguments paren
  | fuel + 1, .function declaration closure, arguments, paren => do
    if maxDepth ≤ (← get).depth then fault .stackOverflow paren
    else
      let flow ← withCallScope declaration closure arguments (executeAll fuel declaration.body)
      return flow.result

end

/-- Runs the statements of a program. However one ends, unless with an error, the next one
follows. -/
def interpret (fuel : Nat) : List Stmt → Run Unit
  | [] => return ()
  | statement :: rest => do
    let _ ← execute fuel statement
    interpret fuel rest

end Lox
