import Lox.Proofs.Machine.Roots
import Lox.Proofs.Store.Shadowing

/-!
# Where names are declared

A run declares names in the scope that is current, and in scopes that it makes itself: no
other scope gains a name. The current one gains none either from an expression, or from a
statement that is no declaration, nor a choice or a loop around one.
-/

namespace Lox

/-- Whether a statement declares nothing in the scope that it is run in. -/
def Stmt.DeclaresNothing : Stmt → Prop
  | .var _ _ | .function _ => False
  | .ifElse _ thenBranch none => thenBranch.DeclaresNothing
  | .ifElse _ thenBranch (some elseBranch) =>
    thenBranch.DeclaresNothing ∧ elseBranch.DeclaresNothing
  | .while _ body => body.DeclaresNothing
  | _ => True

/-- Whether a task declares nothing in the scope that it is run in. -/
def Task.DeclaresNothing : Task → Prop
  | statement s => s.DeclaresNothing
  | statements ss => ∀ s ∈ ss, s.DeclaresNothing
  | loop _ body => body.DeclaresNothing
  | expression _ | expressions _ | call _ _ _ => True

def Step.isDeclaration : Step → Bool
  | declareVariable _ _ => true
  | _ => false

/-- Whether a script declares nothing in the scope that it is run in, if it is no matter what its
parts do in blocks and calls. -/
def Script.DeclaresNothing : Script α → Prop
  | done _ => True
  | step s next => s.isDeclaration = false ∧ ∀ a, (next a).DeclaresNothing
  | part place t next =>
    (place = .here → t.DeclaresNothing) ∧ ∀ a, (next a).DeclaresNothing

namespace Script

/-- A choice between scripts that declare nothing declares nothing. -/
private theorem declaresNothing_ite {c : Bool} {yes no : Script α} (hyes : yes.DeclaresNothing)
    (hno : no.DeclaresNothing) : (if c then yes else no).DeclaresNothing := by
  cases c with
  | true => exact hyes
  | false => exact hno

/-- A task as the whole of a script, in a place of its own or where the script is run. -/
private theorem declaresNothing_whole {place : Place} {t : Task}
    (h : place = .here → t.DeclaresNothing) : (whole place t).DeclaresNothing :=
  ⟨h, fun _ => trivial⟩

/-- A statement that declares nothing is executed without a declaration. -/
private theorem declaresNothing_ofStatement {s : Stmt} (h : s.DeclaresNothing) :
    (ofStatement s).DeclaresNothing := by
  cases s with
  | block statements => exact declaresNothing_whole (fun hplace => nomatch hplace)
  | var name initializer => exact h.elim
  | function declaration => exact h.elim
  | ifElse condition thenBranch elseBranch =>
    cases elseBranch with
    | none =>
      refine ⟨fun _ => trivial, fun value => declaresNothing_ite ?_ trivial⟩
      exact declaresNothing_whole fun _ => h
    | some elseBranch =>
      refine ⟨fun _ => trivial, fun value => declaresNothing_ite ?_ ?_⟩
      · exact declaresNothing_whole fun _ => h.1
      · exact declaresNothing_whole fun _ => h.2
  | «while» condition body => exact declaresNothing_whole fun _ => h
  | expression value => exact ⟨fun _ => trivial, fun _ => trivial⟩
  | «return» value =>
    cases value with
    | none => trivial
    | some value => exact ⟨fun _ => trivial, fun _ => trivial⟩
  | «break» | «continue» | empty => trivial

private theorem declaresNothing_ofStatements {ss : List Stmt} (h : ∀ s ∈ ss, s.DeclaresNothing) :
    (ofStatements ss).DeclaresNothing := by
  cases ss with
  | nil => trivial
  | cons s rest =>
    obtain ⟨hs, hrest⟩ := List.forall_mem_cons.mp h
    refine ⟨fun _ => hs, fun flow => ?_⟩
    cases flow with
    | normal => exact declaresNothing_whole fun _ => hrest
    | _ => trivial

private theorem declaresNothing_ofLoop (condition : Expr) {body : Stmt}
    (h : body.DeclaresNothing) : (ofLoop condition body).DeclaresNothing := by
  refine ⟨fun _ => trivial, fun value => declaresNothing_ite ⟨fun _ => h, fun flow => ?_⟩ trivial⟩
  cases flow with
  | normal | «continue» => exact declaresNothing_whole fun _ => h
  | «break» | «return» => trivial

/-- An expression is evaluated without a declaration. -/
private theorem declaresNothing_ofExpression (e : Expr) : (ofExpression e).DeclaresNothing := by
  cases e with
  | literal value => trivial
  | «variable» name => exact ⟨rfl, fun _ => trivial⟩
  | lambda declaration => exact ⟨rfl, fun _ => trivial⟩
  | grouping inner => exact declaresNothing_whole fun _ => trivial
  | assign name value => exact ⟨fun _ => trivial, fun _ => ⟨rfl, fun _ => trivial⟩⟩
  | unary operator operand => exact ⟨fun _ => trivial, fun _ => ⟨rfl, fun _ => trivial⟩⟩
  | binary left operator right =>
    exact ⟨fun _ => trivial, fun _ => ⟨fun _ => trivial, fun _ => ⟨rfl, fun _ => trivial⟩⟩⟩
  | logical left operator right =>
    refine ⟨fun _ => trivial, fun value => declaresNothing_ite trivial ?_⟩
    exact declaresNothing_whole fun _ => trivial
  | call function paren arguments =>
    refine ⟨fun _ => trivial, fun _ => ⟨fun _ => trivial, fun _ => ⟨rfl, fun _ => ?_⟩⟩⟩
    exact declaresNothing_whole fun _ => trivial

private theorem declaresNothing_ofExpressions (es : List Expr) :
    (ofExpressions es).DeclaresNothing := by
  cases es with
  | nil => trivial
  | cons e rest => exact ⟨fun _ => trivial, fun _ => ⟨fun _ => trivial, fun _ => trivial⟩⟩

private theorem declaresNothing_ofCall (callable : Callable) (arguments : List Value)
    (paren : Token) : (ofCall callable arguments paren).DeclaresNothing := by
  cases callable with
  | native name arity action => exact ⟨rfl, fun _ => trivial⟩
  | function declaration closure =>
    exact ⟨rfl, fun _ => ⟨(fun hplace => nomatch hplace), fun _ => trivial⟩⟩

end Script

/-- A task that declares nothing has a script that declares nothing. -/
theorem Task.declaresNothing_script {t : Task} (h : t.DeclaresNothing) :
    t.script.DeclaresNothing := by
  cases t with
  | statement s => exact Script.declaresNothing_ofStatement h
  | statements ss => exact Script.declaresNothing_ofStatements h
  | loop condition body => exact Script.declaresNothing_ofLoop condition h
  | expression e => exact Script.declaresNothing_ofExpression e
  | expressions es => exact Script.declaresNothing_ofExpressions es
  | call callable arguments paren => exact Script.declaresNothing_ofCall callable arguments paren

/-! ### Scopes that gain no name -/

/-- Whatever name a scope binds in the second store, it binds in the first. -/
def Store.GainsNoName (id : ScopeId) (s t : Store) : Prop :=
  ∀ name, (t.binding? id name).isSome → (s.binding? id name).isSome

namespace Store

variable {id : ScopeId} {s t : Store}

theorem GainsNoName.refl (id : ScopeId) (s : Store) : GainsNoName id s s := fun _ h => h

theorem GainsNoName.trans {u : Store} (h : GainsNoName id s t) (h' : GainsNoName id t u) :
    GainsNoName id s u := fun name hn => h name (h' name hn)

/-- A new scope gives no other a name. -/
theorem gainsNoName_addScope (id : ScopeId) (s : Store) (parent : Option ScopeId) :
    GainsNoName id s (s.addScope parent) := by
  intro name h
  rwa [binding?_addScope] at h

/-- Changing a binding declares nothing. -/
theorem gainsNoName_define_of_isSome (id : ScopeId) {scope : ScopeId} {name : String}
    (h : (s.binding? scope name).isSome) (value : Value) :
    GainsNoName id s (s.define scope name value) := by
  intro other hother
  rw [binding?_define] at hother
  split at hother
  · next same =>
    obtain ⟨rfl, rfl, -⟩ := same
    exact h
  · exact hother

/-- A definition declares nothing in another scope. -/
theorem gainsNoName_define_of_ne {scope : ScopeId} (h : scope ≠ id) (name : String)
    (value : Value) : GainsNoName id s (s.define scope name value) := by
  intro other hother
  rwa [binding?_define, if_neg fun same => h same.1] at hother

/-- Parameters give a name to no scope but the one in which they are bound. -/
theorem gainsNoName_bindParameters {scope : ScopeId} (h : scope ≠ id) (params : List Token)
    (arguments : List Value) (s : Store) :
    GainsNoName id s (bindParameters scope params arguments s) := by
  induction params generalizing arguments s with
  | nil => exact .refl id s
  | cons param params ih =>
    cases arguments with
    | nil => exact .refl id s
    | cons argument arguments =>
      exact (gainsNoName_define_of_ne h param.lexeme argument).trans (ih arguments _)

end Store

open Store

/-- A step declares a name in no scope but the current one, and only if it is a declaration. -/
theorem Step.gainsNoName {id : ScopeId} (s : Step) {m : Machine}
    (h : m.current = id → s.isDeclaration = false) :
    GainsNoName id m.store (Outcome.machine (s.run m)).store := by
  cases s with
  | ofExcept result => cases result <;> exact .refl id _
  | readVariable name =>
    simp only [run, Lox.readVariable]
    cases m.store.lookup m.current name.lexeme <;> exact .refl id _
  | declareVariable name value =>
    have other : m.current ≠ id := fun hid => Bool.noConfusion (h hid)
    simp only [run, Lox.declareVariable]
    cases hd : m.store.declare? m.current name.lexeme value with
    | none => exact .refl id _
    | some store =>
      obtain ⟨-, rfl⟩ := exists_define_of_declare? hd
      exact gainsNoName_define_of_ne other _ _
  | assignVariable name value =>
    simp only [run, Lox.assignVariable]
    cases ha : m.store.assign? m.current name.lexeme value with
    | none => exact .refl id _
    | some store =>
      obtain ⟨owner, ho, rfl⟩ := exists_define_of_assign? ha
      exact gainsNoName_define_of_isSome id (isSome_binding?_owner ho) value
  | makeFunction declaration => exact .refl id _
  | callee value count paren =>
    have same : Outcome.machine ((Step.callee value count paren).run m) = m :=
      machine_callee value count paren m
    rw [same]
    exact .refl id _
  | performAction action arguments paren =>
    cases action with
    | nothing | clock => exact .refl id _
    | print =>
      simp only [run, Lox.performAction]
      cases m.sink.printFirst arguments with
      | mk result sink => cases result <;> exact .refl id _
  | enter paren =>
    rw [run_enter]
    split <;> exact .refl id _

namespace Place

/-- To enter a place declares names in new scopes only. -/
theorem gainsNoName_entered {id : ScopeId} (place : Place) {m : Machine}
    (hid : id < m.store.nextScope) : GainsNoName id m.store (place.entered m).store := by
  cases place with
  | here => exact .refl id _
  | block => exact gainsNoName_addScope id _ _
  | call f closure arguments =>
    exact (gainsNoName_addScope id _ _).trans
      (gainsNoName_bindParameters (Nat.ne_of_gt hid) _ _ _)

/-- A scope that there is already is current in no place but the one around it. -/
theorem eq_here_of_current_entered {id : ScopeId} {place : Place} {m : Machine}
    (hid : id < m.store.nextScope) (h : (place.entered m).current = id) :
    place = .here ∧ m.current = id := by
  cases place with
  | here => exact ⟨rfl, h⟩
  | block | call => exact absurd h (Nat.ne_of_gt hid)

/-- The current scope is that of the machine that was entered. -/
theorem current_left {place : Place} {m n : Machine} (h : (place.entered m).SameFrame n) :
    (place.left m n).current = m.current := by
  cases place with
  | here => exact h.current
  | block | call => rfl

end Place

section

variable {id : ScopeId} {fuel : Nat}

/-- A scope gains no name in a script that declares nothing in it, if it gains none in the tasks. -/
private theorem Script.gainsNoName_run
    (tasks : ∀ {t : Task} {m : Machine}, id < m.store.nextScope →
      (m.current = id → t.DeclaresNothing) →
      GainsNoName id m.store (Outcome.machine (t.run fuel m)).store)
    {script : Script α} {m : Machine} (hid : id < m.store.nextScope)
    (h : m.current = id → script.DeclaresNothing) :
    GainsNoName id m.store (Outcome.machine (script.run fuel m)).store := by
  induction script generalizing m with
  | done a => exact .refl id _
  | step s next ih =>
    have frame := s.sameFrame_run m
    have first := s.gainsNoName fun hm => (h hm).1
    rw [run_step]
    cases hs : s.run m with
    | error e n =>
      rw [hs] at first
      exact first
    | ok a n =>
      rw [hs] at first frame
      refine first.trans (ih a (frame.scopes.lt_nextScope hid) fun hn => ?_)
      exact (h (frame.current.symm.trans hn)).2 a
  | part place t next ih =>
    have entered := place.gainsNoName_entered hid
    have inside := (place.scopesPersist_entered m).lt_nextScope hid
    have frame := t.sameFrame_run fuel (place.entered m)
    have first := tasks inside fun hm => by
      obtain ⟨hplace, hcurrent⟩ := Place.eq_here_of_current_entered hid hm
      exact (h hcurrent).1 hplace
    have current := Place.current_left frame
    have stays := frame.scopes.lt_nextScope inside
    rw [run_part]
    cases ht : t.run fuel (place.entered m) with
    | error e n =>
      rw [ht] at first
      simpa only [Outcome.onMachine, Outcome.andThen, Outcome.machine, Place.store_left]
        using entered.trans first
    | ok a n =>
      rw [ht] at first current stays
      have outside : GainsNoName id m.store (place.left m n).store := by
        rw [Place.store_left]
        exact entered.trans first
      refine outside.trans (ih a ?_ fun hn => (h (current.symm.trans hn)).2 a)
      rw [Place.store_left]
      exact stays

/-- A scope that there is before a task gains no name from it, unless it is the current one and the
task declares something. -/
theorem Task.gainsNoName_run {t : Task} {m : Machine} (hid : id < m.store.nextScope)
    (h : m.current = id → t.DeclaresNothing) :
    GainsNoName id m.store (Outcome.machine (t.run fuel m)).store := by
  induction fuel generalizing t m with
  | zero =>
    rw [t.run_zero]
    exact .refl id _
  | succ fuel ih =>
    rw [t.run_succ]
    exact Script.gainsNoName_run ih hid fun hm => Task.declaresNothing_script (h hm)

end

end Lox
