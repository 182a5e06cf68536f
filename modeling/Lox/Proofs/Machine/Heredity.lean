import Lox.Proofs.Machine.Frame
import Lox.Proofs.Machine.Traces

/-!
# What everything that runs inherits

A program runs the trees that it was given and those in them, and calls the functions
that it has made of them. So a property that a tree passes on to the trees in it is one of
everything that is run, and of every function in the store, if it is one of the program and
of the functions that were there before.
-/

namespace Lox

/-- What has to be shown of properties of statements, expressions and functions for a tree to pass
them on to the trees in it. -/
structure Hereditary (S : Stmt → Prop) (E : Expr → Prop) (F : FunctionDecl → Prop) : Prop where
  block : ∀ {ss}, S (.block ss) → ∀ s ∈ ss, S s
  expression : ∀ {e}, S (.expression e) → E e
  var : ∀ {name e}, S (.var name (some e)) → E e
  ifElse : ∀ {c s s'}, S (.ifElse c s s') → E c ∧ S s ∧ ∀ t ∈ s', S t
  loop : ∀ {c s}, S (.while c s) → E c ∧ S s
  function : ∀ {f}, S (.function f) → F f
  returned : ∀ {e}, S (.return (some e)) → E e
  assign : ∀ {name e}, E (.assign name e) → E e
  binary : ∀ {e operator e'}, E (.binary e operator e') → E e ∧ E e'
  logical : ∀ {e operator e'}, E (.logical e operator e') → E e ∧ E e'
  grouping : ∀ {e}, E (.grouping e) → E e
  unary : ∀ {operator e}, E (.unary operator e) → E e
  call : ∀ {e paren es}, E (.call e paren es) → E e ∧ ∀ e' ∈ es, E e'
  lambda : ∀ {f}, E (.lambda f) → F f
  body : ∀ {f : FunctionDecl}, F f → ∀ s ∈ f.body, S s

/-- Whether all functions in a store have a property. -/
def Store.FunctionsAre (F : FunctionDecl → Prop) (s : Store) : Prop :=
  ∀ (i : Nat) (f : FunctionDecl) (closure : ScopeId),
    s.callables[i]? = some (.function f closure) → F f

namespace Store.FunctionsAre

variable {F : FunctionDecl → Prop} {s t : Store}

/-- A store with the same callables holds the same functions. -/
theorem congr (h : s.FunctionsAre F) (ht : t.callables = s.callables) : t.FunctionsAre F :=
  fun i f closure hf => h i f closure (ht ▸ hf)

/-- One more function of the kind may be held. -/
theorem push (h : s.FunctionsAre F) {f : FunctionDecl} (hf : F f) {closure : ScopeId}
    (ht : t.callables = s.callables.push (.function f closure)) : t.FunctionsAre F := by
  intro i g scope hg
  rw [ht, Array.getElem?_push] at hg
  split at hg
  · cases hg
    exact hf
  · exact h i g scope hg

/-- In the store that programs start with there are no functions of theirs. -/
theorem initial : Machine.initialStore.FunctionsAre F := by
  have natives : Machine.initialStore.callables =
      #[.native "clock" 0 .clock, .native "print" 1 .print] := rfl
  intro i f closure hf
  rw [natives] at hf
  match i with
  | 0 | 1 | i + 2 => simp at hf

end Store.FunctionsAre

section

variable (S : Stmt → Prop) (E : Expr → Prop) (F : FunctionDecl → Prop)

/-- Whether the trees of a task have the properties. -/
def Task.Has : Task → Prop
  | .statement s => S s
  | .statements ss => ∀ s ∈ ss, S s
  | .loop condition body => E condition ∧ S body
  | .expression e => E e
  | .expressions es => ∀ e ∈ es, E e
  | .call (.function declaration _) _ _ => F declaration
  | .call (.native _ _ _) _ _ => True

/-- Tasks whose trees have the properties, on machines whose functions do. -/
def heredity : Contract := ⟨fun m => m.store.FunctionsAre F, Task.Has S E F, fun _ _ => True⟩

end

variable {S : Stmt → Prop} {E : Expr → Prop} {F : FunctionDecl → Prop}

/-- What can be called is a function of the store, or native. -/
theorem has_callee {m n : Machine} (hm : m.store.FunctionsAre F) {value : Value} {count : Nat}
    {paren : Token} {callable : Callable} (h : callee value count paren m = .ok callable n)
    (arguments : List Value) : (Task.call callable arguments paren).Has S E F := by
  cases callable with
  | native name arity action => trivial
  | function f closure =>
    cases value with
    | callable ref =>
      simp only [callee] at h
      split at h
      · next found hfound =>
        split at h
        · cases h
          exact hm _ _ _ hfound
        · contradiction
      · contradiction
    | _ => contradiction

/-- A step that makes no function with another property leaves all functions with theirs. -/
theorem functionsAre_step {s : Step} {m : Machine} (hm : m.store.FunctionsAre F)
    (hs : ∀ f, s = .makeFunction f → F f) :
    (Outcome.machine (s.run m)).store.FunctionsAre F := by
  have callables := s.callables_run m
  cases s with
  | makeFunction f => exact hm.push (hs f rfl) callables
  | _ => exact hm.congr callables

namespace Script

variable {Q : α → Prop}

/-- A step that makes no function keeps the kind, if what follows does. -/
private theorem heredity_step {s : Step} {next : s.Result → Script α}
    (hs : ∀ f, s ≠ .makeFunction f) (h : ∀ a, (next a).Keeps (heredity S E F) Q) :
    (step s next).Keeps (heredity S E F) Q :=
  fun _ hm => ⟨functionsAre_step hm fun f hf => absurd hf (hs f), fun a _ _ => h a⟩

private theorem heredity_makeFunction {f : FunctionDecl} (hf : F f) {next : Value → Script α}
    (h : ∀ a, (next a).Keeps (heredity S E F) Q) :
    (step (.makeFunction f) next).Keeps (heredity S E F) Q :=
  fun _ hm => ⟨functionsAre_step hm fun _ h => Step.makeFunction.inj h ▸ hf, fun a _ _ => h a⟩

private theorem heredity_part {place : Place} {t : Task} {next : t.Result → Script α}
    (ht : t.Has S E F) (h : ∀ a, (next a).Keeps (heredity S E F) Q) :
    (part place t next).Keeps (heredity S E F) Q :=
  ⟨ht, fun a _ => h a⟩

private theorem heredity_effect {s : Step} (hs : ∀ f, s ≠ .makeFunction f) :
    (effect s).Keeps (heredity S E F) fun _ => True :=
  heredity_step hs fun _ => trivial

private theorem heredity_whole {place : Place} {t : Task} (ht : t.Has S E F) :
    (whole place t).Keeps (heredity S E F) fun _ => True :=
  heredity_part ht fun _ => trivial

private theorem heredity_ofFunction {f : FunctionDecl} (hf : F f) :
    (ofFunction f).Keeps (heredity S E F) fun _ => True := by
  unfold ofFunction
  cases f.name with
  | none => trivial
  | some name => exact heredity_makeFunction hf fun _ => heredity_effect fun _ h => nomatch h

variable (passed : Hereditary S E F)
include passed

private theorem heredity_ofStatement {s : Stmt} (hs : S s) :
    (ofStatement s).Keeps (heredity S E F) fun _ => True := by
  cases s with
  | block statements => exact heredity_whole (passed.block hs)
  | expression value => exact heredity_part (passed.expression hs) fun _ => trivial
  | var name initializer =>
    cases initializer with
    | none => exact heredity_effect fun _ h => nomatch h
    | some value =>
      exact heredity_part (passed.var hs) fun _ => heredity_effect fun _ h => nomatch h
  | ifElse condition thenBranch elseBranch =>
    obtain ⟨hcondition, hthen, helse⟩ := passed.ifElse hs
    refine heredity_part hcondition fun value => ?_
    split
    · exact heredity_whole hthen
    · cases elseBranch with
      | none => trivial
      | some elseBranch => exact heredity_whole (helse _ rfl)
  | «while» condition body => exact heredity_whole (passed.loop hs)
  | function f => exact heredity_ofFunction (passed.function hs)
  | «return» value =>
    cases value with
    | none => trivial
    | some value => exact heredity_part (passed.returned hs) fun _ => trivial
  | _ => trivial

omit passed in
private theorem heredity_ofStatements {ss : List Stmt} (hss : ∀ s ∈ ss, S s) :
    (ofStatements ss).Keeps (heredity S E F) fun _ => True := by
  cases ss with
  | nil => trivial
  | cons s rest =>
    obtain ⟨hs, hrest⟩ := List.forall_mem_cons.mp hss
    refine heredity_part hs fun flow => ?_
    cases flow with
    | normal => exact heredity_whole hrest
    | _ => trivial

omit passed in
private theorem heredity_ofLoop {condition : Expr} {body : Stmt} (hcondition : E condition)
    (hbody : S body) : (ofLoop condition body).Keeps (heredity S E F) fun _ => True := by
  refine heredity_part hcondition fun value => ?_
  split
  · refine heredity_part hbody fun flow => ?_
    cases flow with
    | normal | «continue» => exact heredity_whole ⟨hcondition, hbody⟩
    | _ => trivial
  · trivial

private theorem heredity_ofExpression {e : Expr} (he : E e) :
    (ofExpression e).Keeps (heredity S E F) fun _ => True := by
  cases e with
  | assign name value =>
    exact heredity_part (passed.assign he) fun _ =>
      heredity_step (fun _ h => nomatch h) fun _ => trivial
  | binary left operator right =>
    obtain ⟨hleft, hright⟩ := passed.binary he
    exact heredity_part hleft fun _ => heredity_part hright fun _ =>
      heredity_step (fun _ h => nomatch h) fun _ => trivial
  | logical left operator right =>
    obtain ⟨hleft, hright⟩ := passed.logical he
    refine heredity_part hleft fun left => ?_
    split
    · trivial
    · exact heredity_whole hright
  | grouping inner => exact heredity_whole (passed.grouping he)
  | literal value => trivial
  | unary operator operand =>
    exact heredity_part (passed.unary he) fun _ =>
      heredity_step (fun _ h => nomatch h) fun _ => trivial
  | «variable» name => exact heredity_step (fun _ h => nomatch h) fun _ => trivial
  | call function paren arguments =>
    obtain ⟨hfunction, harguments⟩ := passed.call he
    refine heredity_part hfunction fun value => heredity_part harguments fun values m hm => ?_
    refine ⟨functionsAre_step hm fun _ h => (nomatch h), fun callable n h => ?_⟩
    exact heredity_whole (has_callee hm h values)
  | lambda f => exact heredity_makeFunction (passed.lambda he) fun _ => trivial

omit passed in
/-- Expressions in a row keep the kind if each is of it. -/
private theorem heredity_ofExpressions {es : List Expr} (hes : ∀ e ∈ es, E e) :
    (ofExpressions es).Keeps (heredity S E F) fun _ => True := by
  cases es with
  | nil => trivial
  | cons e rest =>
    obtain ⟨he, hrest⟩ := List.forall_mem_cons.mp hes
    exact heredity_part he fun _ => heredity_part hrest fun _ => trivial

private theorem heredity_ofCall {callable : Callable} {arguments : List Value} {paren : Token}
    (h : (Task.call callable arguments paren).Has S E F) :
    (ofCall callable arguments paren).Keeps (heredity S E F) fun _ => True := by
  cases callable with
  | native name arity action => exact heredity_step (fun _ h => nomatch h) fun _ => trivial
  | function f closure =>
    have hbody : (Task.statements f.body).Has S E F := passed.body h
    exact heredity_step (fun _ h => nomatch h) fun _ => heredity_part hbody fun _ => trivial

end Script

/-- Trees with properties that they pass on run only such trees and make only such functions. -/
theorem Hereditary.sound (passed : Hereditary S E F) : (heredity S E F).Sound where
  entered place m hm := hm.congr (place.callables_entered m)
  left place m n _ hn := hn.congr (congrArg Store.callables (place.store_left m n))
  script t ht := by
    cases t with
    | statement s => exact Script.heredity_ofStatement passed ht
    | statements ss => exact Script.heredity_ofStatements ht
    | loop condition body => exact Script.heredity_ofLoop ht.1 ht.2
    | expression e => exact Script.heredity_ofExpression passed ht
    | expressions es => exact Script.heredity_ofExpressions ht
    | call callable arguments paren => exact Script.heredity_ofCall passed ht

/-- Whatever source texts have been run on a new machine, the functions in its store have what their
texts pass on. -/
theorem Hereditary.functionsAre_runAll (passed : Hereditary S E F)
    (parsed : ∀ source, (Grammar.parseSource source).errors = [] →
      ∀ s ∈ (Grammar.parseSource source).statements, S s)
    {fuel : Nat} {sources : List String} {sink : Sink} {clock : Nat → Nat} {n : Machine}
    {ds : List Diagnostics} (h : (Machine.initial sink clock).runAll fuel sources = some (ds, n)) :
    n.store.FunctionsAre F := by
  refine Machine.runAll_induction (C := fun m => m.store.FunctionsAre F) ?_ .initial h
  intro source m n d hm hrun
  rcases Machine.runParse_cases hrun with rfl | ⟨clean, rfl⟩
  · exact hm
  · exact (passed.sound.kept_program fuel (parsed source clean) hm).invariant

end Lox
