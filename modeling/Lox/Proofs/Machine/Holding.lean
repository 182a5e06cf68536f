import Lox.Proofs.Machine.Agreement
import Lox.Proofs.Machine.Creation
import Lox.Proofs.Machine.Roots

/-!
# The callables that a run holds

A callable value refers to a callable of the store. A store knows it if the callable is
there and is written as the value has it. Stores forget no callable, a new function is known
to the store that it is added to, and everything else that a run does only hands values on.
So whatever a run binds, passes on or gives is known to the store at that moment.
-/

namespace Lox

namespace Store

/-- Whether a value that is a callable leads to one of a store which is written like it. -/
def Knows (s : Store) (v : Value) : Prop :=
  ∀ ref, v = .callable ref → ∃ c, s.callable? ref = some c ∧ ref.text = c.text

def KnowsAll (s : Store) (vs : List Value) : Prop := ∀ v ∈ vs, s.Knows v

/-- Whether the callables of one store are still there in another. -/
def CallablesPersist (s t : Store) : Prop :=
  ∀ (i : Nat) (c : Callable), s.callables[i]? = some c → t.callables[i]? = some c

section

variable {s t u : Store} {v : Value} {vs : List Value}

/-- A value that is no callable is known to every store. -/
theorem Knows.of_isPlain (h : v.IsPlain) : s.Knows v := by
  rintro ref rfl
  exact h.elim

theorem KnowsAll.nil : s.KnowsAll [] := List.forall_mem_nil _

theorem KnowsAll.singleton (h : s.Knows v) : s.KnowsAll [v] := List.forall_mem_singleton.mpr h

theorem KnowsAll.cons (h : s.Knows v) (hs : s.KnowsAll vs) : s.KnowsAll (v :: vs) :=
  List.forall_mem_cons.mpr ⟨h, hs⟩

/-- Callables persist where they are the same. -/
theorem CallablesPersist.of_eq (h : t.callables = s.callables) : s.CallablesPersist t :=
  fun _ _ hc => h ▸ hc

theorem CallablesPersist.refl (s : Store) : s.CallablesPersist s := .of_eq rfl

theorem CallablesPersist.trans (h : s.CallablesPersist t) (h' : t.CallablesPersist u) :
    s.CallablesPersist u :=
  fun i c hc => h' i c (h i c hc)

/-- Callables persist where others are added behind them. -/
theorem CallablesPersist.of_append {last : List Callable}
    (h : t.callables.toList = s.callables.toList ++ last) : s.CallablesPersist t := by
  intro i c hc
  rw [← Array.getElem?_toList] at hc ⊢
  rw [h, List.getElem?_append_left (List.getElem?_eq_some_iff.mp hc).1]
  exact hc

/-- What is known stays known. -/
theorem CallablesPersist.knows (h : s.CallablesPersist t) (hv : s.Knows v) : t.Knows v := by
  intro ref heq
  obtain ⟨c, hc, htext⟩ := hv ref heq
  exact ⟨c, h ref.index c hc, htext⟩

/-- Values that were known are known later. -/
theorem CallablesPersist.knowsAll (h : s.CallablesPersist t) (hvs : s.KnowsAll vs) :
    t.KnowsAll vs :=
  fun v hv => h.knows (hvs v hv)

/-- A new callable is known. -/
theorem knows_addCallable (s : Store) (c : Callable) :
    (s.addCallable c).Knows (.callable (s.nextRef c)) := by
  rintro ref ⟨⟩
  refine ⟨c, ?_, rfl⟩
  exact (s.getElem?_addCallable c _).trans (if_pos rfl)

end

end Store

/-- Whether all callables that are bound in the store of a machine are known to it. The current
scope is one of its scopes. -/
structure Machine.Knowing (m : Machine) : Prop where
  bound : ∀ scope name v, m.store.binding? scope name = some v → m.store.Knows v
  current : m.current < m.store.nextScope

/-! ### Steps -/

namespace Step

/-- The values that a step is given. -/
def values : Step → List Value
  | .ofExcept (.ok value) => [value]
  | .declareVariable _ value | .assignVariable _ value | .callee value _ _ => [value]
  | .performAction _ arguments _ => arguments
  | .ofExcept (.error _) | .readVariable _ | .makeFunction _ | .enter _ => []

/-- The values in what a step gives. -/
def given : (s : Step) → s.Result → List Value
  | .ofExcept _, value | .readVariable _, value | .makeFunction _, value
  | .performAction _ _ _, value => [value]
  | .declareVariable _ _, _ | .assignVariable _ _, _ | .callee _ _ _, _ | .enter _, _ => []

/-- The name and the value that a step stores. -/
def stores? : Step → Option (String × Value)
  | .declareVariable name value | .assignVariable name value => some (name.lexeme, value)
  | _ => none

/-- A step changes no binding but to the value that it stores. -/
theorem binding?_run (s : Step) (m : Machine) (scope : ScopeId) (x : String) :
    (Outcome.machine (s.run m)).store.binding? scope x = m.store.binding? scope x ∨
      ∃ v, s.stores? = some (x, v) ∧
        (Outcome.machine (s.run m)).store.binding? scope x = some v := by
  have defined (id : ScopeId) (name : String) (v : Value) :
      (m.store.define id name v).binding? scope x = m.store.binding? scope x ∨
        name = x ∧ (m.store.define id name v).binding? scope x = some v := by
    rw [Store.binding?_define]
    by_cases hit : id = scope ∧ name = x ∧ scope < m.store.nextScope
    · rw [if_pos hit]
      exact .inr ⟨hit.2.1, rfl⟩
    · rw [if_neg hit]
      exact .inl rfl
  cases s with
  | declareVariable name value =>
    simp only [run, Lox.declareVariable]
    cases hd : m.store.declare? m.current name.lexeme value with
    | none => exact .inl rfl
    | some t =>
      obtain ⟨-, rfl⟩ := Store.exists_define_of_declare? hd
      exact (defined _ _ value).imp_right fun h => ⟨value, by rw [stores?, h.1], h.2⟩
  | assignVariable name value =>
    simp only [run, Lox.assignVariable]
    cases hd : m.store.assign? m.current name.lexeme value with
    | none => exact .inl rfl
    | some t =>
      obtain ⟨o, -, rfl⟩ := Store.exists_define_of_assign? hd
      exact (defined o _ value).imp_right fun h => ⟨value, by rw [stores?, h.1], h.2⟩
  | ofExcept result => cases result <;> exact .inl rfl
  | readVariable name =>
    simp only [run, Lox.readVariable]
    cases m.store.lookup m.current name.lexeme <;> exact .inl rfl
  | makeFunction f => exact .inl rfl
  | callee value count paren =>
    have same : Outcome.machine ((Step.callee value count paren).run m) = m :=
      machine_callee value count paren m
    rw [same]
    exact .inl rfl
  | performAction action arguments paren =>
    cases action with
    | nothing | clock => exact .inl rfl
    | print =>
      simp only [run, Lox.performAction]
      cases m.sink.printFirst arguments with
      | mk result sink => cases result <;> exact .inl rfl
  | enter paren =>
    rw [run_enter]
    split <;> exact .inl rfl

/-- What a step stores is given to it. -/
theorem mem_values_of_stores? {s : Step} {x : String} {v : Value} (h : s.stores? = some (x, v)) :
    v ∈ s.values := by
  cases s with
  | declareVariable name value | assignVariable name value =>
    cases h
    exact List.mem_singleton_self _
  | _ => contradiction

/-- A step forgets no callable. -/
theorem callablesPersist_run (s : Step) (m : Machine) :
    m.store.CallablesPersist (Outcome.machine (s.run m)).store :=
  .of_append (logs_step s m).last_eq

variable {s : Step} {m : Machine} (hm : m.Knowing) (hs : m.store.KnowsAll s.values)
include hm hs

/-- A step leaves what it has found and what it was given. -/
theorem knowing_run : (Outcome.machine (s.run m)).Knowing where
  bound scope name v hb := by
    refine (s.callablesPersist_run m).knows ?_
    rcases s.binding?_run m scope name with same | ⟨w, hstores, hw⟩
    · exact hm.bound scope name v (same ▸ hb)
    · cases hb.symm.trans hw
      exact hs v (mem_values_of_stores? hstores)
  current := by
    have same := s.sameFrame_run m
    rw [same.current]
    exact same.scopes.lt_nextScope hm.current

/-- It gives what it has found, what it was given, or the function that it makes. -/
theorem knowsAll_given {a : s.Result} {n : Machine} (h : s.run m = .ok a n) :
    n.store.KnowsAll (s.given a) := by
  cases s with
  | ofExcept result =>
    cases result with
    | error e => contradiction
    | ok value =>
      cases h
      exact hs
  | readVariable name =>
    simp only [run, Lox.readVariable] at h
    split at h
    · next value hvalue =>
      cases h
      obtain ⟨o, -, hb⟩ := Option.bind_eq_some_iff.mp hvalue
      exact .singleton (hm.bound o name.lexeme a hb)
    · contradiction
  | makeFunction f =>
    cases h
    exact .singleton (Store.knows_addCallable _ _)
  | performAction action arguments paren =>
    have plain : Value.IsPlain a := by
      cases action with
      | nothing | clock =>
        cases h
        trivial
      | print =>
        simp only [run, Lox.performAction] at h
        split at h
        · cases h
          trivial
        · contradiction
    exact .singleton (.of_isPlain plain)
  | _ => exact .nil

end Step

/-! ### Places -/

namespace Place

/-- The values that are bound where a place is entered. -/
def values : Place → List Value
  | call _ _ arguments => arguments
  | _ => []

/-- Of two stores, one of which binds parameters as well: what it binds is bound in the other, or is
an argument. -/
theorem binding?_bindParameters {scope id : ScopeId} {params : List Token}
    {arguments : List Value} {s : Store} {x : String} {v : Value}
    (h : (bindParameters scope params arguments s).binding? id x = some v) :
    s.binding? id x = some v ∨ v ∈ arguments := by
  induction params generalizing arguments s with
  | nil => exact .inl h
  | cons param params ih =>
    cases arguments with
    | nil => exact .inl h
    | cons argument arguments =>
      rcases ih h with h | h
      · rw [Store.binding?_define] at h
        split at h
        · cases h
          exact .inr List.mem_cons_self
        · exact .inl h
      · exact .inr (List.mem_cons_of_mem argument h)

/-- What is bound where a place has been entered was bound before, or is given to the place. -/
theorem binding?_entered {place : Place} {m : Machine} {scope : ScopeId} {x : String} {v : Value}
    (h : (place.entered m).store.binding? scope x = some v) :
    m.store.binding? scope x = some v ∨ v ∈ place.values := by
  cases place with
  | here => exact .inl h
  | block => exact .inl ((Store.binding?_addScope _ _ _ _).symm.trans h)
  | call f closure arguments =>
    refine (binding?_bindParameters h).imp_left fun h => ?_
    exact (Store.binding?_addScope _ _ _ _).symm.trans h

/-- To enter a place with known values keeps a machine knowing. -/
theorem knowing_entered {place : Place} {m : Machine} (hm : m.Knowing)
    (h : m.store.KnowsAll place.values) : (place.entered m).Knowing where
  bound scope name v hb := by
    refine (Store.CallablesPersist.of_eq (place.callables_entered m)).knows ?_
    exact (binding?_entered hb).elim (hm.bound scope name v) (h v)
  current := by
    cases place with
    | here => exact hm.current
    | block =>
      simp only [entered, Store.nextScope_addScope]
      exact Nat.lt_succ_self _
    | call f closure arguments =>
      simp only [entered, Store.nextScope_eq_of_links (Store.links_bindParameters _ _ _ _),
        Store.nextScope_addScope]
      exact Nat.lt_succ_self _

/-- To leave a place keeps a machine knowing, if its frame was kept inside. -/
theorem knowing_left {place : Place} {m n : Machine} (hm : m.Knowing) (hn : n.Knowing)
    (same : (place.entered m).SameFrame n) : (place.left m n).Knowing where
  bound := place.store_left m n ▸ hn.bound
  current := by
    have persist := (place.scopesPersist_entered m).trans same.scopes
    rw [place.store_left]
    cases place with
    | here => exact hn.current
    | block | call => exact persist.lt_nextScope hm.current

end Place

/-! ### Tasks and scripts -/

/-- The value that a statement returns. -/
def Flow.values : Flow → List Value
  | .return value => [value]
  | _ => []

namespace Task

/-- The values that a task is given. -/
def values : Task → List Value
  | call _ arguments _ => arguments
  | _ => []

/-- The values in what a task gives. -/
def given : (t : Task) → t.Result → List Value
  | statement _, flow | statements _, flow | loop _ _, flow => flow.values
  | expression _, value | call _ _ _, value => [value]
  | expressions _, values => values

/-- Whether a task is no callable as a literal. -/
def IsPlain (t : Task) : Prop := ∀ v, t = .expression (.literal v) → v.IsPlain

/-- A task forgets no callable. -/
theorem callablesPersist_run (fuel : Nat) (t : Task) (m : Machine) :
    m.store.CallablesPersist (Outcome.machine (t.run fuel m)).store :=
  .of_append (t.logs fuel m).last_eq

end Task

namespace Script

/-- Whether all that a script hands on is known to a store or, where it is given while the script is
done, to the store that there is then. -/
def Knows (values : α → List Value) : Script α → Store → Prop
  | done a, s => s.KnowsAll (values a)
  | step st next, s => s.KnowsAll st.values ∧
      ∀ t, s.CallablesPersist t → ∀ a, t.KnowsAll (st.given a) → (next a).Knows values t
  | part place u next, s => s.KnowsAll place.values ∧ s.KnowsAll u.values ∧
      ∀ t, s.CallablesPersist t → ∀ a, t.KnowsAll (u.given a) → (next a).Knows values t

namespace Knows

variable {values : α → List Value} {s : Store}

/-- A step is given known values, and what follows it knows those that it gives. -/
theorem step {st : Step} {next : st.Result → Script α} (hst : s.KnowsAll st.values)
    (h : ∀ t, s.CallablesPersist t → ∀ a, t.KnowsAll (st.given a) → (next a).Knows values t) :
    (step st next).Knows values s :=
  ⟨hst, h⟩

/-- A part is given known values, and what follows knows those of its task. -/
theorem part {place : Place} {u : Task} {next : u.Result → Script α}
    (hplace : s.KnowsAll place.values) (hu : s.KnowsAll u.values)
    (h : ∀ t, s.CallablesPersist t → ∀ a, t.KnowsAll (u.given a) → (next a).Knows values t) :
    (part place u next).Knows values s :=
  ⟨hplace, hu, h⟩

/-- A tree is given no values, nor is a place that is no call. -/
theorem here {u : Task} {next : u.Result → Script α} (hu : u.isCall = false)
    (h : ∀ t, s.CallablesPersist t → ∀ a, t.KnowsAll (u.given a) → (next a).Knows values t) :
    (Script.part .here u next).Knows values s := by
  refine part .nil ?_ h
  cases u with
  | call => contradiction
  | _ => exact .nil

/-- A task that is no call, in a place that is none, knows its values. -/
theorem whole {place : Place} {u : Task} (hplace : place.isCall = false) (hu : u.isCall = false) :
    (Script.whole place u).Knows u.given s := by
  refine part ?_ ?_ fun _ _ _ ha => ha
  · cases place with
    | call => contradiction
    | _ => exact .nil
  · cases u with
    | call => contradiction
    | _ => exact .nil

/-- A variable is declared with a known value. -/
theorem declareVariable {name : Token} {v : Value} (hv : s.Knows v) :
    (effect (.declareVariable name v)).Knows Flow.values s :=
  step (.singleton hv) fun _ _ _ _ => .nil

/-- The declaration of a function knows the function that it makes. -/
private theorem ofFunction (f : FunctionDecl) : (ofFunction f).Knows Flow.values s := by
  unfold Script.ofFunction
  cases f.name with
  | none => exact .nil
  | some name => exact step .nil fun t _ v hv => declareVariable (hv v (List.mem_singleton_self v))

/-- A statement knows the value that it returns. -/
private theorem ofStatement (stmt : Stmt) : (ofStatement stmt).Knows Flow.values s := by
  cases stmt with
  | block statements => exact whole rfl rfl
  | expression value => exact here rfl fun _ _ _ _ => .nil
  | var name initializer =>
    cases initializer with
    | none => exact declareVariable (.of_isPlain trivial)
    | some value =>
      exact here rfl fun t _ v hv => declareVariable (hv v (List.mem_singleton_self v))
  | ifElse condition thenBranch elseBranch =>
    refine here rfl fun t _ value _ => ?_
    split
    · exact whole rfl rfl
    · cases elseBranch with
      | none => exact .nil
      | some elseBranch => exact whole rfl rfl
  | «while» condition body => exact whole rfl rfl
  | function f => exact ofFunction f
  | «return» value =>
    cases value with
    | none => exact .singleton (.of_isPlain trivial)
    | some value => exact here rfl fun _ _ _ hv => hv
  | _ => exact .nil

private theorem ofStatements (ss : List Stmt) : (ofStatements ss).Knows Flow.values s := by
  cases ss with
  | nil => exact .nil
  | cons stmt rest =>
    refine here rfl fun t _ flow hflow => ?_
    cases flow with
    | normal => exact whole rfl rfl
    | _ => exact hflow

private theorem ofLoop (condition : Expr) (body : Stmt) :
    (ofLoop condition body).Knows Flow.values s := by
  refine here rfl fun t _ value _ => ?_
  split
  · refine here rfl fun t _ flow hflow => ?_
    cases flow with
    | normal | «continue» => exact whole rfl rfl
    | «break» => exact .nil
    | «return» value => exact hflow
  · exact .nil

/-- A plain expression knows its value. -/
private theorem ofExpression {e : Expr} (plain : (Task.expression e).IsPlain) :
    (ofExpression e).Knows (fun v => [v]) s := by
  cases e with
  | assign name value =>
    exact here rfl fun t _ v hv => step hv fun _ persist _ _ => persist.knowsAll hv
  | binary left operator right =>
    refine here rfl fun _ _ a _ => here rfl fun t _ b _ => step ?_ fun _ _ _ hv => hv
    cases hr : Operator.binary operator a b with
    | error e => exact .nil
    | ok v => exact .singleton (.of_isPlain (Operator.isPlain_binary hr))
  | logical left operator right =>
    refine here rfl fun t _ v hv => ?_
    split
    · exact hv
    · exact whole rfl rfl
  | grouping inner => exact whole rfl rfl
  | literal value => exact .singleton (.of_isPlain (plain value rfl))
  | unary operator operand =>
    refine here rfl fun t _ a _ => step ?_ fun _ _ _ hv => hv
    cases hr : Operator.unary operator a with
    | error e => exact .nil
    | ok v => exact .singleton (.of_isPlain (Operator.isPlain_unary hr))
  | «variable» name => exact step .nil fun _ _ _ hv => hv
  | call function paren arguments =>
    refine here rfl fun t _ v hv => here rfl fun u persist vs hvs => ?_
    refine step (persist.knowsAll hv) fun w persist callable _ => ?_
    exact part .nil (persist.knowsAll hvs) fun _ _ _ hv => hv
  | lambda f => exact step .nil fun _ _ _ hv => hv

/-- Expressions in a row know their values. -/
private theorem ofExpressions (es : List Expr) : (ofExpressions es).Knows id s := by
  cases es with
  | nil => exact .nil
  | cons e rest =>
    refine here rfl fun t _ v hv => here rfl fun u persist vs hvs => ?_
    exact .cons (persist.knowsAll hv v (List.mem_singleton_self v)) hvs

/-- A call knows the value that it returns, if it knows its arguments. -/
private theorem ofCall {callable : Callable} {arguments : List Value} (paren : Token)
    (h : s.KnowsAll arguments) : (ofCall callable arguments paren).Knows (fun v => [v]) s := by
  cases callable with
  | native name arity action => exact step h fun _ _ _ hv => hv
  | function f closure =>
    refine step .nil fun t persist _ _ => part (persist.knowsAll h) .nil fun u _ flow hflow => ?_
    cases flow with
    | «return» v => exact hflow
    | _ => exact .singleton (.of_isPlain trivial)

/-- The script of a task hands on what the task is given, if the task is no callable itself. -/
theorem script {u : Task} (plain : u.IsPlain) (h : s.KnowsAll u.values) :
    u.script.Knows u.given s := by
  cases u with
  | statement stmt => exact ofStatement stmt
  | statements ss => exact ofStatements ss
  | loop condition body => exact ofLoop condition body
  | expression e => exact ofExpression plain
  | expressions es => exact ofExpressions es
  | call callable arguments paren => exact ofCall paren h

/-- A program gives nothing to know. -/
theorem ofProgram (statements : List Stmt) : (ofProgram statements).Knows (fun _ => []) s := by
  induction statements generalizing s with
  | nil => exact .nil
  | cons stmt rest ih => exact here rfl fun _ _ _ _ => ih

end Knows

end Script

/-! ### Runs -/

namespace Moment

/-- The values that what is about to be done is given. -/
def values (p : Moment) : List Value :=
  match p.act with
  | .task t => t.values
  | .step s => s.values

def IsPlain (p : Moment) : Prop := ∀ t, p.act = .task t → t.IsPlain

/-- Whether everything at a moment is known to the machine. -/
structure Known (p : Moment) : Prop where
  machine : p.machine.Knowing
  values : p.machine.store.KnowsAll p.values

end Moment

/-- Whether everything is known to the machine at each moment of a run and where it ends, together
with the values that it gives. -/
structure Outcome.Known (values : α → List Value) (o : Outcome α) (moments : List Moment) :
    Prop where
  machine : o.machine.Knowing
  gives : ∀ a n, o = .ok a n → n.store.KnowsAll (values a)
  moments : ∀ p ∈ moments, p.Known

/-- A run goes on with what a part of it gives. -/
theorem Outcome.Known.andThen {values : α → List Value} {values' : β → List Value}
    {o : Outcome α} {moments : List Moment} (h : o.Known values moments) {f : α → Run β}
    {g : α → Machine → List Moment}
    (hf : ∀ a n, o = .ok a n → n.Knowing → n.store.KnowsAll (values a) →
      Outcome.Known values' (f a n) (g a n)) :
    Outcome.Known values' (o.andThen f) (moments ++ o.moments g) := by
  cases o with
  | error e n =>
    refine ⟨h.machine, (fun _ _ h => nomatch h), ?_⟩
    exact List.forall_mem_append.mpr ⟨h.moments, List.forall_mem_nil _⟩
  | ok a n =>
    have later := hf a n rfl h.machine (h.gives a n rfl)
    exact ⟨later.machine, later.gives, List.forall_mem_append.mpr ⟨h.moments, later.moments⟩⟩

/-- A step hands on what it is given. -/
theorem known_step {s : Step} {m : Machine} (hm : m.Knowing) (hs : m.store.KnowsAll s.values) :
    Outcome.Known s.given (s.run m) [⟨.step s, m⟩] where
  machine := s.knowing_run hm hs
  gives _ _ h := s.knowsAll_given hm hs h
  moments := List.forall_mem_singleton.mpr ⟨hm, hs⟩

/-- What is known in a place is known when the place has been left. -/
theorem Outcome.Known.left {values : α → List Value} {o : Outcome α} {moments : List Moment}
    (h : o.Known values moments) {place : Place} {m : Machine} (hm : m.Knowing)
    (same : (place.entered m).SameFrame o.machine) :
    Outcome.Known values (o.onMachine (place.left m)) moments where
  machine := by
    rw [Outcome.machine_onMachine]
    exact Place.knowing_left hm h.machine same
  gives a n ho := by
    cases o with
    | error e k => contradiction
    | ok b k =>
      cases ho
      rw [place.store_left]
      exact h.gives _ k rfl
  moments := h.moments

/-- A script with plain moments ends in a machine that knows, if its tasks do. -/
private theorem known_script {fuel : Nat} {inside : Task → Machine → List Moment}
    (parts : ∀ (t : Task) (m : Machine), (∀ p ∈ inside t m, p.IsPlain) → m.Knowing →
      m.store.KnowsAll t.values → Outcome.Known t.given (t.run fuel m) (inside t m))
    {values : α → List Value} {script : Script α} {m : Machine}
    (plain : ∀ p ∈ script.trace fuel inside m, p.IsPlain) (hm : m.Knowing)
    (knows : script.Knows values m.store) :
    Outcome.Known values (script.run fuel m) (script.trace fuel inside m) := by
  induction script generalizing m with
  | done a =>
    refine ⟨hm, fun b n h => ?_, List.forall_mem_nil _⟩
    cases h
    exact knows
  | step s next ih =>
    have persist := s.callablesPersist_run m
    rw [Script.trace] at plain
    rw [Script.run_step, Script.trace]
    refine (known_step hm knows.1).andThen fun a n hs hn ha => ?_
    rw [hs] at persist plain
    refine ih a (fun p hp => plain p ?_) hn (knows.2 n.store persist a ha)
    exact List.mem_cons_of_mem _ hp
  | part place t next ih =>
    have entered := Store.CallablesPersist.of_eq (place.callables_entered m)
    have persist : m.store.CallablesPersist (Outcome.machine
        (Outcome.onMachine (place.left m) (t.run fuel (place.entered m)))).store := by
      rw [Outcome.machine_onMachine, place.store_left]
      exact entered.trans (t.callablesPersist_run fuel _)
    rw [Script.trace] at plain
    rw [Script.run_part, Script.trace]
    have inner := parts t _ (fun p hp => plain p (List.mem_append_left _ hp))
      (Place.knowing_entered hm knows.1) (entered.knowsAll knows.2.1)
    refine (inner.left hm (t.sameFrame_run fuel _)).andThen fun a n ho hn ha => ?_
    rw [ho] at persist plain
    refine ih a (fun p hp => plain p ?_) hn (knows.2.2 n.store persist a ha)
    exact List.mem_append_right _ hp

/-- A run of a task in which no callable stands as a literal knows everything that it holds. -/
theorem Task.known (fuel : Nat) {t : Task} {m : Machine}
    (plain : ∀ p ∈ t.trace fuel m, p.IsPlain) (hm : m.Knowing)
    (ht : m.store.KnowsAll t.values) : Outcome.Known t.given (t.run fuel m) (t.trace fuel m) := by
  induction fuel generalizing t m with
  | zero =>
    rw [t.run_zero]
    exact ⟨hm, (fun _ _ h => nomatch h), List.forall_mem_nil _⟩
  | succ fuel ih =>
    obtain ⟨first, later⟩ := List.forall_mem_cons.mp plain
    have knows := Script.Knows.script (first t rfl) ht
    obtain ⟨hend, hgives, hmoments⟩ := known_script (fun _ _ => ih) later hm knows
    rw [t.run_succ]
    exact ⟨hend, hgives, List.forall_mem_cons.mpr ⟨⟨hm, ht⟩, hmoments⟩⟩

namespace Machine

open Grammar

/-- A source with plain moments keeps the machine knowing, at each of them. -/
theorem known_source (fuel : Nat) {source : String} {m : Machine}
    (plain : ∀ p ∈ sourceTrace fuel source m, p.IsPlain) (hm : m.Knowing) :
    (m.afterSource fuel source).Knowing ∧ ∀ p ∈ sourceTrace fuel source m, p.Known := by
  unfold sourceTrace afterSource at *
  by_cases clean : (parseSource source).errors.isEmpty
  · rw [if_pos clean] at plain ⊢
    rw [if_pos clean, Run.after_eq_machine, Script.run_ofProgram]
    have known := known_script (fun _ _ => Task.known fuel) plain hm (.ofProgram _)
    exact ⟨known.machine, known.moments⟩
  · rw [if_neg clean, if_neg clean]
    exact ⟨hm, List.forall_mem_nil _⟩

/-- So does a session of such source texts. -/
theorem known_session (fuel : Nat) {sources : List String} {m : Machine}
    (plain : ∀ p ∈ sessionTrace fuel sources m, p.IsPlain) (hm : m.Knowing) :
    ∀ p ∈ sessionTrace fuel sources m, p.Known := by
  induction sources generalizing m with
  | nil => exact List.forall_mem_nil _
  | cons source rest ih =>
    rw [sessionTrace, List.forall_mem_append] at plain ⊢
    obtain ⟨hafter, hmoments⟩ := known_source fuel plain.1 hm
    refine ⟨hmoments, ?_⟩
    cases hr : m.run fuel source with
    | none => exact List.forall_mem_nil _
    | some r =>
      rw [hr] at plain
      exact ih plain.2 ((run_eq_some hr).1 ▸ hafter)

end Machine

end Lox
