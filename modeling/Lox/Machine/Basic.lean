import Lox.Diagnostic.RuntimeError
import Lox.Machine.Sink
import Lox.Store.Basic

/-!
# The state of a running program

A machine has the store, the scope that is current, the number of calls in progress,
the sink and the clock. Programs run in `Run`: a run ends with a value, with a runtime
error, or with its fuel spent, and leaves a machine behind in each case.
-/

namespace Lox

structure Machine where
  store : Store
  /-- The scope in which names are looked up and declared. -/
  current : ScopeId
  /-- Calls of functions of the program in progress. -/
  depth : Nat
  sink : Sink
  /-- What each reading of the clock gives, in milliseconds. -/
  clock : Nat → Nat
  /-- Readings of the clock so far. -/
  readings : Nat

/-- Why a run stops early. -/
inductive Halt where
  | error (error : RuntimeError)
  /-- The fuel is spent; nothing is known of how the program goes on. -/
  | outOfFuel
  deriving DecidableEq, Repr

abbrev Run := EStateM Halt Machine

namespace Machine

/-- The scope that all others lead to. -/
def globalScope : ScopeId := 0

/-- The native functions that every program can call: name, arity and action. -/
def natives : List (String × Nat × Action) := [("clock", 0, .clock), ("print", 1, .print)]

/-- Makes a native function and binds its name in the global scope. -/
def installNative (s : Store) (name : String) (arity : Nat) (action : Action) : Store :=
  let callable := Callable.native name arity action
  (s.addCallable callable).define globalScope name (.callable (s.nextRef callable))

/-- A global scope that binds the native functions, and nothing else. -/
def initialStore : Store :=
  natives.foldl (fun s (name, arity, action) => installNative s name arity action)
    (Store.empty.addScope none)

/-- A machine on which nothing has run. -/
def initial (sink : Sink) (clock : Nat → Nat) : Machine where
  store := initialStore
  current := globalScope
  depth := 0
  sink := sink
  clock := clock
  readings := 0

/-- The value of a global name. -/
def global? (m : Machine) (name : String) : Option Value := m.store.lookup globalScope name

end Machine

/-- Stops with a fault blamed on a token. -/
def fault (f : Fault) (token : Token) : Run α := fun m => .error (.error (f.atToken token)) m

/-- The value of a name, seen from the current scope. -/
def readVariable (name : Token) : Run Value := fun m =>
  match m.store.lookup m.current name.lexeme with
  | some value => .ok value m
  | none => .error (.error ((Fault.undefinedVariable name.lexeme).atToken name)) m

/-- Declares a name in the current scope. -/
def declareVariable (name : Token) (value : Value) : Run Unit := fun m =>
  match m.store.declare? m.current name.lexeme value with
  | some store => .ok () { m with store := store }
  | none => .error (.error ((Fault.redeclared name.lexeme).atToken name)) m

/-- Assigns to a name, seen from the current scope. -/
def assignVariable (name : Token) (value : Value) : Run Unit := fun m =>
  match m.store.assign? m.current name.lexeme value with
  | some store => .ok () { m with store := store }
  | none => .error (.error ((Fault.undefinedVariable name.lexeme).atToken name)) m

/-- A new function that closes over the current scope. -/
def makeFunction (declaration : FunctionDecl) : Run Value := fun m =>
  let callable := Callable.function declaration m.current
  .ok (.callable (m.store.nextRef callable)) { m with store := m.store.addCallable callable }

/-- Makes a function and declares its name. A declaration without a name does nothing. -/
def declareFunction (declaration : FunctionDecl) : Run Unit :=
  match declaration.name with
  | some name => do declareVariable name (← makeFunction declaration)
  | none => return ()

/-- Runs with another current scope, and restores the scope however the run ends. -/
@[inline]
def withScope (scope : ScopeId) (x : Run α) : Run α := fun m =>
  let outer := m.current
  match x { m with current := scope } with
  | .ok a m => .ok a { m with current := outer }
  | .error e m => .error e { m with current := outer }

/-- Runs in a new scope inside the current one. -/
@[inline]
def withBlockScope (x : Run α) : Run α := fun m =>
  let scope := m.store.nextScope
  withScope scope x { m with store := m.store.addScope (some m.current) }

/-- Runs with one more call in progress, and one less again however the run ends. -/
@[inline]
def withCall (x : Run α) : Run α := fun m =>
  match x { m with depth := m.depth + 1 } with
  | .ok a m => .ok a { m with depth := m.depth - 1 }
  | .error e m => .error e { m with depth := m.depth - 1 }

/-- Binds the parameters of a call in its scope; of two equal names the last one stands. -/
def bindParameters (scope : ScopeId) : List Token → List Value → Store → Store
  | param :: params, argument :: arguments, s =>
    bindParameters scope params arguments (s.define scope param.lexeme argument)
  | _, _, s => s

/-- Runs the body of a function in a new scope inside its closure, one call deeper. -/
@[inline]
def withCallScope (declaration : FunctionDecl) (closure : ScopeId) (arguments : List Value)
    (x : Run α) : Run α := fun m =>
  let scope := m.store.nextScope
  let store := m.store.addScope (some closure)
  withCall (withScope scope x)
    { m with store := bindParameters scope declaration.params arguments store }

/-- Writes the text of the first argument, if there is one. -/
def Sink.printFirst (s : Sink) : List Value → Except String Unit × Sink
  | [] => (.ok (), s)
  | value :: _ => s.print value.text

/-- Does the work of a native function. What goes wrong is blamed on the parenthesis of the
call. -/
def performAction (action : Action) (arguments : List Value) (paren : Token) : Run Value := fun m =>
  match action with
  | .nothing => .ok .nil m
  | .clock =>
    let seconds := Float.ofNat (m.clock m.readings) / 1000
    .ok (.number seconds) { m with readings := m.readings + 1 }
  | .print =>
    let (result, sink) := m.sink.printFirst arguments
    let m := { m with sink := sink }
    match result with
    | .ok _ => .ok .nil m
    | .error message => .error (.error ((Fault.native message).atToken paren)) m

end Lox
