import Lox.Machine.Evaluation

/-!
# Properties of every run

Whatever a program does is composed of few steps: reading and changing variables,
making functions, calling native functions, and running in the scope of a block or
of a call. A property that these steps have and that sequencing keeps is a property
of the run of every tree, with any fuel.
-/

namespace Lox

/-- What has to be shown of a property of runs for every statement and expression to have it. -/
structure RunProperty (K : ∀ {α : Type}, Run α → Prop) : Prop where
  pure : ∀ {α : Type} (a : α), K (Pure.pure a : Run α)
  bind : ∀ {α β : Type} {x : Run α} {f : α → Run β}, K x → (∀ a, K (f a)) → K (x >>= f)
  outOfFuel : ∀ {α : Type}, K (throw .outOfFuel : Run α)
  ofExcept : ∀ {α : Type} (result : Except RuntimeError α), K (Run.ofExcept result)
  readVariable : ∀ name, K (readVariable name)
  declareVariable : ∀ name value, K (declareVariable name value)
  assignVariable : ∀ name value, K (assignVariable name value)
  makeFunction : ∀ declaration, K (makeFunction declaration)
  callee : ∀ value count paren, K (callee value count paren)
  performAction : ∀ action arguments paren, K (performAction action arguments paren)
  withBlockScope : ∀ {x : Run Flow}, K x → K (withBlockScope x)
  /-- The depth is looked at before the scope of a call is made. -/
  enter : ∀ {x : Run Flow} declaration closure arguments paren, K x →
    K (do
      if maxDepth ≤ (← get).depth then fault .stackOverflow paren
      else
        let flow ← withCallScope declaration closure arguments x
        return flow.result : Run Value)

/-- A property of all runs with so much fuel. -/
structure HoldsWithin (K : ∀ {α : Type}, Run α → Prop) (fuel : Nat) : Prop where
  execute : ∀ s, K (execute fuel s)
  executeAll : ∀ ss, K (executeAll fuel ss)
  repeatWhile : ∀ condition body, K (repeatWhile fuel condition body)
  evaluate : ∀ e, K (evaluate fuel e)
  evaluateAll : ∀ es, K (evaluateAll fuel es)
  call : ∀ callable arguments paren, K (call fuel callable arguments paren)

namespace RunProperty

variable {K : ∀ {α : Type}, Run α → Prop} (k : RunProperty K) {fuel : Nat}
include k

private theorem declareFunction (declaration : FunctionDecl) : K (declareFunction declaration) := by
  unfold Lox.declareFunction
  split
  · exact k.bind (k.makeFunction _) fun value => k.declareVariable _ value
  · exact k.pure ()

/-- A statement has the property with one unit of fuel more. -/
private theorem execute_succ (h : HoldsWithin K fuel) (s : Stmt) : K (execute (fuel + 1) s) := by
  cases s with
  | block statements => exact k.withBlockScope (h.executeAll statements)
  | expression value => exact k.bind (h.evaluate value) fun _ => k.pure _
  | var name initializer =>
    cases initializer with
    | none => exact k.bind (k.declareVariable name .nil) fun _ => k.pure _
    | some value =>
      exact k.bind (h.evaluate value) fun a => k.bind (k.declareVariable name a) fun _ => k.pure _
  | ifElse condition thenBranch elseBranch =>
    refine k.bind (h.evaluate condition) fun a => ?_
    split
    · exact h.execute thenBranch
    · cases elseBranch with
      | none => exact k.pure _
      | some elseBranch => exact h.execute elseBranch
  | «while» condition body => exact h.repeatWhile condition body
  | «break» => exact k.pure _
  | «continue» => exact k.pure _
  | function declaration => exact k.bind (k.declareFunction declaration) fun _ => k.pure _
  | «return» value =>
    cases value with
    | none => exact k.pure _
    | some value => exact k.bind (h.evaluate value) fun _ => k.pure _
  | empty => exact k.pure _

private theorem executeAll_succ (h : HoldsWithin K fuel) (ss : List Stmt) :
    K (executeAll (fuel + 1) ss) := by
  cases ss with
  | nil => exact k.pure _
  | cons s rest =>
    refine k.bind (h.execute s) fun flow => ?_
    cases flow with
    | normal => exact h.executeAll rest
    | _ => exact k.pure _

private theorem repeatWhile_succ (h : HoldsWithin K fuel) (condition : Expr) (body : Stmt) :
    K (repeatWhile (fuel + 1) condition body) := by
  refine k.bind (h.evaluate condition) fun a => ?_
  split
  · refine k.bind (h.execute body) fun flow => ?_
    cases flow with
    | «break» => exact k.pure _
    | «return» value => exact k.pure _
    | _ => exact h.repeatWhile condition body
  · exact k.pure _

private theorem evaluate_succ (h : HoldsWithin K fuel) (e : Expr) : K (evaluate (fuel + 1) e) := by
  cases e with
  | assign name value =>
    exact k.bind (h.evaluate value) fun a => k.bind (k.assignVariable name a) fun _ => k.pure a
  | binary left operator right =>
    exact k.bind (h.evaluate left) fun a => k.bind (h.evaluate right) fun b => k.ofExcept _
  | logical left operator right =>
    refine k.bind (h.evaluate left) fun a => ?_
    split
    · exact k.pure a
    · exact h.evaluate right
  | grouping inner => exact h.evaluate inner
  | literal value => exact k.pure value
  | unary operator operand => exact k.bind (h.evaluate operand) fun a => k.ofExcept _
  | «variable» name => exact k.readVariable name
  | call function paren arguments =>
    exact k.bind (h.evaluate function) fun a => k.bind (h.evaluateAll arguments) fun values =>
      k.bind (k.callee a values.length paren) fun callable => h.call callable values paren
  | lambda declaration => exact k.makeFunction declaration

private theorem evaluateAll_succ (h : HoldsWithin K fuel) (es : List Expr) :
    K (evaluateAll (fuel + 1) es) := by
  cases es with
  | nil => exact k.pure _
  | cons e rest =>
    exact k.bind (h.evaluate e) fun a => k.bind (h.evaluateAll rest) fun values => k.pure _

private theorem call_succ (h : HoldsWithin K fuel) (callable : Callable) (arguments : List Value)
    (paren : Token) : K (call (fuel + 1) callable arguments paren) := by
  cases callable with
  | native name arity action => exact k.performAction action arguments paren
  | function declaration closure =>
    exact k.enter declaration closure arguments paren (h.executeAll declaration.body)

/-- A property of the steps is a property of all runs. -/
theorem holdsWithin (fuel : Nat) : HoldsWithin K fuel := by
  induction fuel with
  | zero => constructor <;> intros <;> exact k.outOfFuel
  | succ fuel ih =>
    exact ⟨k.execute_succ ih, k.executeAll_succ ih, k.repeatWhile_succ ih, k.evaluate_succ ih,
      k.evaluateAll_succ ih, k.call_succ ih⟩

/-- The run of a program has the property as well. -/
theorem interpret (fuel : Nat) (statements : List Stmt) : K (interpret fuel statements) := by
  induction statements with
  | nil => exact k.pure ()
  | cons s rest ih => exact k.bind ((k.holdsWithin fuel).execute s) fun _ => ih

end RunProperty

end Lox
