import Lox.Machine.Evaluation

/-!
# What a run is made of

Everything that runs is a task: a statement, a list of them, a loop, an expression, a list
of them, or a call. A task is done as its script says: by steps of the machine, and by
other tasks, each where it stands, in a block of its own or in the scope of a call. The
script is the code of the evaluator with these parts named, so that what is said of every
part of a run is not said of some of them only.
-/

namespace Lox

/-- What can be run. -/
inductive Task where
  | statement (s : Stmt)
  | statements (ss : List Stmt)
  | loop (condition : Expr) (body : Stmt)
  | expression (e : Expr)
  | expressions (es : List Expr)
  | call (callable : Callable) (arguments : List Value) (paren : Token)

namespace Task

/-- What a task gives. -/
@[reducible]
def Result : Task → Type
  | statement _ | statements _ | loop _ _ => Flow
  | expression _ | call _ _ _ => Value
  | expressions _ => List Value

def run (fuel : Nat) : (t : Task) → Run t.Result
  | statement s => execute fuel s
  | statements ss => executeAll fuel ss
  | loop condition body => repeatWhile fuel condition body
  | expression e => evaluate fuel e
  | expressions es => evaluateAll fuel es
  | call callable arguments paren => Lox.call fuel callable arguments paren

/-- Without fuel no task is run. -/
theorem run_zero (t : Task) : t.run 0 = throw .outOfFuel := by
  cases t <;> rfl

end Task

/-- What the machine does in one go. -/
inductive Step where
  | ofExcept (result : Except RuntimeError Value)
  | readVariable (name : Token)
  | declareVariable (name : Token) (value : Value)
  | assignVariable (name : Token) (value : Value)
  | makeFunction (declaration : FunctionDecl)
  | callee (value : Value) (count : Nat) (paren : Token)
  | performAction (action : Action) (arguments : List Value) (paren : Token)
  /-- Looks at the depth before a call. -/
  | enter (paren : Token)

namespace Step

/-- What a step gives. -/
@[reducible]
def Result : Step → Type
  | ofExcept _ | readVariable _ | makeFunction _ | performAction _ _ _ => Value
  | declareVariable _ _ | assignVariable _ _ | enter _ => Unit
  | callee _ _ _ => Callable

def run : (s : Step) → Run s.Result
  | ofExcept result => Run.ofExcept result
  | readVariable name => Lox.readVariable name
  | declareVariable name value => Lox.declareVariable name value
  | assignVariable name value => Lox.assignVariable name value
  | makeFunction declaration => Lox.makeFunction declaration
  | callee value count paren => Lox.callee value count paren
  | performAction action arguments paren => Lox.performAction action arguments paren
  | enter paren => do if maxDepth ≤ (← get).depth then fault .stackOverflow paren

end Step

/-- Where a part of a run takes place. -/
inductive Place where
  | here
  | block
  | call (declaration : FunctionDecl) (closure : ScopeId) (arguments : List Value)

/-- How a run ends, and the machine that it leaves behind. -/
abbrev Outcome (α : Type) := EStateM.Result Halt Machine α

namespace Outcome

def machine : Outcome α → Machine
  | .ok _ m => m
  | .error _ m => m

/-- The same end on another machine. -/
def onMachine (f : Machine → Machine) : Outcome α → Outcome α
  | .ok a m => .ok a (f m)
  | .error e m => .error e (f m)

/-- What follows on a result. -/
def andThen (o : Outcome α) (f : α → Run β) : Outcome β :=
  match o with
  | .ok a m => f a m
  | .error e m => .error e m

@[simp] theorem machine_onMachine (f : Machine → Machine) (o : Outcome α) :
    (o.onMachine f).machine = f o.machine := by
  cases o <;> rfl

@[simp] theorem onMachine_onMachine (f g : Machine → Machine) (o : Outcome α) :
    (o.onMachine f).onMachine g = o.onMachine fun m => g (f m) := by
  cases o <;> rfl

theorem onMachine_id (o : Outcome α) : (o.onMachine fun m => m) = o := by
  cases o <;> rfl

end Outcome

/-- Runs in a row are an outcome and what follows it. -/
theorem Run.bind_apply (x : Run α) (f : α → Run β) (m : Machine) :
    (x >>= f) m = Outcome.andThen (x m) f := by
  simp only [Bind.bind, EStateM.bind, Outcome.andThen]
  cases x m <;> rfl

/-- A call is entered unless the calls in progress are as many as are allowed. -/
theorem Step.run_enter (paren : Token) (m : Machine) :
    (Step.enter paren).run m =
      if maxDepth ≤ m.depth then fault .stackOverflow paren m else .ok () m := by
  show (if maxDepth ≤ m.depth then fault .stackOverflow paren else pure ()) m = _
  split <;> rfl

/-- No step but the making of a function adds a callable, and none takes any away. -/
theorem Step.callables_run (s : Step) (m : Machine) :
    (Outcome.machine (s.run m)).store.callables =
      match s with
      | .makeFunction declaration => m.store.callables.push (.function declaration m.current)
      | _ => m.store.callables := by
  cases s with
  | ofExcept result => cases result <;> rfl
  | readVariable name =>
    simp only [run, Lox.readVariable]
    cases m.store.lookup m.current name.lexeme <;> rfl
  | declareVariable name value =>
    simp only [run, Lox.declareVariable, Store.declare?]
    by_cases hb : (m.store.binding? m.current name.lexeme).isSome
    · rw [if_pos hb]; rfl
    · rw [if_neg hb]; rfl
  | assignVariable name value =>
    simp only [run, Lox.assignVariable, Store.assign?]
    cases m.store.owner? m.current name.lexeme <;> rfl
  | makeFunction declaration => rfl
  | callee value count paren =>
    cases value with
    | callable ref =>
      simp only [run, Lox.callee]
      cases m.store.callable? ref with
      | none => rfl
      | some callable =>
        by_cases h : count = callable.arity
        · simp only [if_pos h]; rfl
        · simp only [if_neg h]; rfl
    | _ => rfl
  | performAction action arguments paren =>
    cases action with
    | nothing | clock => rfl
    | print =>
      simp only [run, Lox.performAction]
      cases m.sink.printFirst arguments with
      | mk result sink => cases result <;> rfl
  | enter paren =>
    rw [run_enter]
    split <;> rfl

namespace Place

def run : Place → Run α → Run α
  | here, x => x
  | block, x => withBlockScope x
  | call declaration closure arguments, x => withCallScope declaration closure arguments x

/-- The machine on which a part of a run starts. -/
def entered : Place → Machine → Machine
  | here, m => m
  | block, m =>
    { m with store := m.store.addScope (some m.current), current := m.store.nextScope }
  | call declaration closure arguments, m =>
    { m with
      store := bindParameters m.store.nextScope declaration.params arguments
        (m.store.addScope (some closure))
      current := m.store.nextScope
      depth := m.depth + 1 }

/-- The machine on which a run goes on that a part of it, begun on `m`, has left behind. -/
def left (m : Machine) : Place → Machine → Machine
  | here, n => n
  | block, n => { n with current := m.current }
  | call _ _ _, n => { n with current := m.current, depth := n.depth - 1 }

/-- A run in a place enters it, and leaves it at its end. -/
theorem run_apply (p : Place) (x : Run α) (m : Machine) :
    p.run x m = Outcome.onMachine (p.left m) (x (p.entered m)) := by
  cases p with
  | here => exact (Outcome.onMachine_id (x m)).symm
  | block =>
    simp only [run, entered, withBlockScope, withScope]
    cases x _ <;> rfl
  | call declaration closure arguments =>
    simp only [run, entered, withCallScope, withCall, withScope]
    cases x _ <;> rfl

/-- To enter a place makes no callable. -/
theorem callables_entered (p : Place) (m : Machine) :
    (p.entered m).store.callables = m.store.callables := by
  have bound (scope : ScopeId) (params : List Token) (arguments : List Value) (s : Store) :
      (bindParameters scope params arguments s).callables = s.callables := by
    induction params generalizing arguments s with
    | nil => rfl
    | cons param params ih =>
      cases arguments with
      | nil => rfl
      | cons argument arguments => exact ih arguments _
  cases p with
  | here | block => rfl
  | call declaration closure arguments => exact bound _ _ _ _

/-- To leave a place changes nothing in the store. -/
theorem store_left (p : Place) (m n : Machine) : (p.left m n).store = n.store := by
  cases p <;> rfl

end Place

/-- Steps and parts in a row. What comes next depends on what they give. -/
inductive Script (α : Type) where
  | done (a : α)
  | step (s : Step) (next : s.Result → Script α)
  | part (place : Place) (t : Task) (next : t.Result → Script α)

namespace Script

def run (fuel : Nat) : Script α → Run α
  | done a => pure a
  | step s next => do (next (← s.run)).run fuel
  | part place t next => do (next (← place.run (t.run fuel))).run fuel

/-- The result of a part as that of the whole. -/
def whole (place : Place) (t : Task) : Script t.Result := part place t done

/-- A script that is one task runs it in its place. -/
theorem run_whole (fuel : Nat) (place : Place) (t : Task) :
    (whole place t).run fuel = place.run (t.run fuel) :=
  bind_pure (place.run (t.run fuel))

/-- A step, after which a statement ends normally. -/
def effect (s : Step) : Script Flow := step s fun _ => done .normal

def ofFunction (declaration : FunctionDecl) : Script Flow :=
  match declaration.name with
  | some name => step (.makeFunction declaration) fun value => effect (.declareVariable name value)
  | none => done .normal

def ofStatement : Stmt → Script Flow
  | .block statements => whole .block (.statements statements)
  | .expression value => part .here (.expression value) fun _ => done .normal
  | .var name (some initializer) =>
    part .here (.expression initializer) fun value => effect (.declareVariable name value)
  | .var name none => effect (.declareVariable name .nil)
  | .ifElse condition thenBranch elseBranch =>
    part .here (.expression condition) fun value =>
      if value.isTruthy then whole .here (.statement thenBranch)
      else
        match elseBranch with
        | some elseBranch => whole .here (.statement elseBranch)
        | none => done .normal
  | .while condition body => whole .here (.loop condition body)
  | .break => done .break
  | .continue => done .continue
  | .function declaration => ofFunction declaration
  | .return (some value) => part .here (.expression value) fun value => done (.return value)
  | .return none => done (.return .nil)
  | .empty => done .normal

def ofStatements : List Stmt → Script Flow
  | [] => done .normal
  | statement :: rest =>
    part .here (.statement statement) fun
      | .normal => whole .here (.statements rest)
      | flow => done flow

def ofLoop (condition : Expr) (body : Stmt) : Script Flow :=
  part .here (.expression condition) fun value =>
    if value.isTruthy then
      part .here (.statement body) fun
        | .break => done .normal
        | .return value => done (.return value)
        | .normal | .continue => whole .here (.loop condition body)
    else done .normal

def ofExpression : Expr → Script Value
  | .assign name value =>
    part .here (.expression value) fun value =>
      step (.assignVariable name value) fun _ => done value
  | .binary left operator right =>
    part .here (.expression left) fun left =>
      part .here (.expression right) fun right =>
        step (.ofExcept (Operator.binary operator left right)) done
  | .logical left operator right =>
    part .here (.expression left) fun left =>
      if Operator.decides operator left then done left
      else whole .here (.expression right)
  | .grouping inner => whole .here (.expression inner)
  | .literal value => done value
  | .unary operator operand =>
    part .here (.expression operand) fun operand =>
      step (.ofExcept (Operator.unary operator operand)) done
  | .variable name => step (.readVariable name) done
  | .call function paren arguments =>
    part .here (.expression function) fun function =>
      part .here (.expressions arguments) fun arguments =>
        step (.callee function arguments.length paren) fun callable =>
          whole .here (.call callable arguments paren)
  | .lambda declaration => step (.makeFunction declaration) done

def ofExpressions : List Expr → Script (List Value)
  | [] => done []
  | expression :: rest =>
    part .here (.expression expression) fun value =>
      part .here (.expressions rest) fun values => done (value :: values)

def ofCall (callable : Callable) (arguments : List Value) (paren : Token) : Script Value :=
  match callable with
  | .native _ _ action => step (.performAction action arguments paren) done
  | .function declaration closure =>
    step (.enter paren) fun _ =>
      part (.call declaration closure arguments) (.statements declaration.body) fun flow =>
        done flow.result

/-- The statements of a program: however one ends, the next one follows. -/
def ofProgram : List Stmt → Script Unit
  | [] => done ()
  | statement :: rest => part .here (.statement statement) fun _ => ofProgram rest

end Script

/-- How a task is done. -/
def Task.script : (t : Task) → Script t.Result
  | statement s => .ofStatement s
  | statements ss => .ofStatements ss
  | loop condition body => .ofLoop condition body
  | expression e => .ofExpression e
  | expressions es => .ofExpressions es
  | call callable arguments paren => .ofCall callable arguments paren

namespace Script

variable (fuel : Nat)

/-- The declaration of a function runs as its script. -/
private theorem run_ofFunction (declaration : FunctionDecl) :
    (do declareFunction declaration; return .normal) = (ofFunction declaration).run fuel := by
  unfold declareFunction ofFunction
  cases declaration.name with
  | none => rfl
  | some name => exact bind_assoc _ _ _

/-- A statement is executed as its script. -/
private theorem run_ofStatement (s : Stmt) :
    execute (fuel + 1) s = (ofStatement s).run fuel := by
  cases s with
  | block statements => exact (run_whole fuel .block (.statements statements)).symm
  | var name initializer => cases initializer <;> rfl
  | ifElse condition thenBranch elseBranch =>
    refine bind_congr fun value => ?_
    by_cases htruthy : value.isTruthy
    · simp only [if_pos htruthy]
      exact (run_whole fuel .here (.statement thenBranch)).symm
    · simp only [if_neg htruthy]
      cases elseBranch with
      | none => rfl
      | some elseBranch => exact (run_whole fuel .here (.statement elseBranch)).symm
  | «while» condition body => exact (run_whole fuel .here (.loop condition body)).symm
  | function declaration => exact run_ofFunction fuel declaration
  | «return» value => cases value <;> rfl
  | _ => rfl

private theorem run_ofStatements (ss : List Stmt) :
    executeAll (fuel + 1) ss = (ofStatements ss).run fuel := by
  cases ss with
  | nil => rfl
  | cons statement rest =>
    refine bind_congr fun flow => ?_
    cases flow with
    | normal => exact (run_whole fuel .here (.statements rest)).symm
    | _ => rfl

private theorem run_ofLoop (condition : Expr) (body : Stmt) :
    repeatWhile (fuel + 1) condition body = (ofLoop condition body).run fuel := by
  refine bind_congr fun value => ?_
  by_cases htruthy : value.isTruthy
  · simp only [if_pos htruthy]
    refine bind_congr (m := Run) fun flow => ?_
    cases flow with
    | normal | «continue» => exact (run_whole fuel .here (.loop condition body)).symm
    | _ => rfl
  · simp only [if_neg htruthy]
    rfl

/-- An expression is evaluated as its script. -/
private theorem run_ofExpression (e : Expr) :
    evaluate (fuel + 1) e = (ofExpression e).run fuel := by
  cases e with
  | binary left operator right =>
    exact bind_congr fun left => bind_congr fun right => (bind_pure _).symm
  | logical left operator right =>
    refine bind_congr fun left => ?_
    by_cases hdecides : Operator.decides operator left
    · simp only [if_pos hdecides]
      rfl
    · simp only [if_neg hdecides]
      exact (run_whole fuel .here (.expression right)).symm
  | grouping inner => exact (run_whole fuel .here (.expression inner)).symm
  | unary operator operand => exact bind_congr fun operand => (bind_pure _).symm
  | «variable» name => exact (bind_pure _).symm
  | call function paren arguments =>
    exact bind_congr fun function => bind_congr fun arguments => bind_congr fun callable =>
      (run_whole fuel .here (.call callable arguments paren)).symm
  | lambda declaration => exact (bind_pure _).symm
  | _ => rfl

private theorem run_ofExpressions (es : List Expr) :
    evaluateAll (fuel + 1) es = (ofExpressions es).run fuel := by
  cases es <;> rfl

/-- A call runs as its script. -/
private theorem run_ofCall (callable : Callable) (arguments : List Value) (paren : Token) :
    call (fuel + 1) callable arguments paren = (ofCall callable arguments paren).run fuel := by
  cases callable with
  | native name arity action => exact (bind_pure _).symm
  | function declaration closure =>
    funext m
    have hcall : call (fuel + 1) (.function declaration closure) arguments paren m =
        (if maxDepth ≤ m.depth then fault .stackOverflow paren else do
          let flow ← withCallScope declaration closure arguments (executeAll fuel declaration.body)
          return flow.result) m := by
      rw [call]
      rfl
    have hrun : (ofCall (.function declaration closure) arguments paren).run fuel m =
        Outcome.andThen ((Step.enter paren).run m) _ := Run.bind_apply _ _ m
    rw [hcall, hrun, Step.run_enter]
    split <;> rfl

end Script

/-- With fuel left, a task is done as its script says. -/
theorem Task.run_succ (fuel : Nat) (t : Task) : t.run (fuel + 1) = t.script.run fuel := by
  cases t with
  | statement s => exact Script.run_ofStatement fuel s
  | statements ss => exact Script.run_ofStatements fuel ss
  | loop condition body => exact Script.run_ofLoop fuel condition body
  | expression e => exact Script.run_ofExpression fuel e
  | expressions es => exact Script.run_ofExpressions fuel es
  | call callable arguments paren => exact Script.run_ofCall fuel callable arguments paren

/-- So is a program. -/
theorem Script.run_ofProgram (fuel : Nat) (statements : List Stmt) :
    interpret fuel statements = (ofProgram statements).run fuel := by
  induction statements with
  | nil => rfl
  | cons statement rest ih => exact bind_congr fun _ => ih

end Lox
