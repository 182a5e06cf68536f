import Lox.Proofs.Machine.Heredity
import Lox.Proofs.Machine.Histories
import Lox.Proofs.Grammar.Gathering

/-!
# What a runtime error is blamed on

A well-formed program runs only well-formed trees and calls only functions made of them,
also where these come from programs that were run before. So each fault is blamed on a token
of theirs that it fits: an operator for operands that are wrong for it, a name for a
variable, the closing parenthesis for whatever goes wrong with a call.
-/

namespace Lox

open Grammar

section

variable (T : Token → Prop)

/-- Whether a function is well formed, and its name is one if it has one. -/
structure FunctionDecl.IsSound (f : FunctionDecl) : Prop where
  name : ∀ name ∈ f.name, name.IsName T
  wellFormed : f.WellFormed T

/-- Whether the trees of a task are well formed. -/
abbrev Task.WellFormed : Task → Prop :=
  Task.Has (Stmt.WellFormed T) (Expr.WellFormed T) (FunctionDecl.IsSound T)

end

variable {T : Token → Prop}

/-- Whatever is in a well-formed tree is well formed. -/
theorem hereditary_wellFormed :
    Hereditary (Stmt.WellFormed T) (Expr.WellFormed T) (FunctionDecl.IsSound T) where
  block h := Stmt.allWellFormed_iff.mp h
  expression h := h
  var h := h.2
  ifElse {_ _ s'} h := by
    cases s' with
    | none => exact ⟨h.1, h.2, fun _ ht => absurd ht (Option.not_mem_none _)⟩
    | some s' => exact ⟨h.1, h.2.1, fun _ ht => Option.some.inj ht ▸ h.2.2⟩
  loop h := h
  function {f} h := by
    obtain ⟨⟨name, hname, hid⟩, hf⟩ := h
    refine ⟨fun other hother => ?_, hf⟩
    cases (Option.mem_unique hname hother)
    exact hid
  returned h := h
  assign h := h.2
  binary h := h.2
  logical h := h.2
  grouping h := h
  unary h := h.2
  call h := ⟨h.1, Expr.allWellFormed_iff.mp h.2.2⟩
  lambda h := ⟨fun name hname => (nomatch h.1.symm.trans hname), h.2⟩
  body h := h.wellFormed.body

/-! ### Faults and tokens -/

/-- The operators between two numbers. -/
def arithmeticOperators : List TokenKind :=
  [.greater, .greaterEqual, .less, .lessEqual, .minus, .slash, .star, .starStar]

/-- Which token may be blamed for a fault. -/
inductive Fault.Fits : Fault → Token → Prop where
  | numberOperand : t.kind = .minus → Fits .numberOperand t
  | numberOperands : t.kind ∈ arithmeticOperators → Fits .numberOperands t
  | addends : t.kind = .plus → Fits .addends t
  | divisionByZero : t.kind = .slash → Fits .divisionByZero t
  | undefinedVariable : t.kind = .identifier → Fits (.undefinedVariable t.lexeme) t
  | redeclared : t.kind = .identifier → Fits (.redeclared t.lexeme) t
  | notCallable : t.kind = .rightParen → Fits .notCallable t
  | arityMismatch (expected got : Nat) : t.kind = .rightParen → Fits (.arityMismatch expected got) t
  | stackOverflow : t.kind = .rightParen → Fits .stackOverflow t
  | native (message : String) : t.kind = .rightParen → Fits (.native message) t

/-- No token may be blamed for being no operator. -/
theorem Fault.not_fits_unknownOperator (lexeme : String) (t : Token) :
    ¬ (unknownOperator lexeme).Fits t := by
  intro h
  generalize hf : unknownOperator lexeme = f at h
  have front (text : String) : ∃ rest, ("Unknown binary operator '" ++ text ++ "'.").toList =
      'U' :: rest := ⟨_, by rw [String.toList_append, String.toList_append]; rfl⟩
  obtain ⟨rest, hrest⟩ := front lexeme
  cases h with
  | numberOperand | numberOperands | addends =>
    simp only [unknownOperator, Fault.numberOperand, Fault.numberOperands, Fault.addends,
      typeMismatch.injEq] at hf
    rw [hf] at hrest
    exact absurd (List.cons.inj hrest).1 (by decide)
  | _ => contradiction

/-- Whether a runtime error is that of a fault blamed on a token with a property that it fits. -/
def RuntimeError.BlamedOn (T : Token → Prop) (e : RuntimeError) : Prop :=
  ∃ t f, T t ∧ Fault.Fits f t ∧ e = f.atToken t

/-- A binary operator that fails is blamed itself. -/
theorem Operator.blamed_binary {operator : Token} (ht : T operator)
    (hk : operator.kind ∈ binaryOperators) {a b : Value} {e : RuntimeError}
    (h : binary operator a b = .error e) : e.BlamedOn T := by
  unfold binary at h
  split at h
  · next plus =>
    unfold add at h
    split at h
    case h_4 =>
      cases h
      exact ⟨operator, _, ht, .addends plus, rfl⟩
    all_goals contradiction
  · contradiction
  · contradiction
  · next plus equal unequal =>
    have arithmetical : operator.kind ∈ arithmeticOperators := by
      simp only [binaryOperators, arithmeticOperators, List.mem_cons] at hk ⊢
      grind
    split at h
    · unfold arithmetic at h
      split at h
      case h_4 slash =>
        split at h
        · cases h
          exact ⟨operator, _, ht, .divisionByZero slash, rfl⟩
        · contradiction
      case h_9 =>
        simp only [arithmeticOperators, List.mem_cons] at arithmetical
        grind
      all_goals contradiction
    · cases h
      exact ⟨operator, _, ht, .numberOperands arithmetical, rfl⟩

theorem Operator.blamed_unary {operator : Token} (ht : T operator)
    (hk : operator.kind ∈ unaryOperators) {a : Value} {e : RuntimeError}
    (h : unary operator a = .error e) : e.BlamedOn T := by
  unfold unary at h
  split at h
  · contradiction
  · next bang =>
    have minus : operator.kind = .minus :=
      (List.mem_cons.mp hk).elim (fun h => (bang h).elim) List.mem_singleton.mp
    split at h
    · contradiction
    · cases h
      exact ⟨operator, _, ht, .numberOperand minus, rfl⟩

/-! ### Steps and scripts -/

/-- Whether a step fails only with errors that are blamed on a token, whatever the machine. -/
def Step.Blames (T : Token → Prop) (s : Step) : Prop :=
  ∀ m e n, s.run m = .error (.error e) n → e.BlamedOn T

namespace Step

theorem blames_ofExcept {result : Except RuntimeError Value}
    (h : ∀ e, result = .error e → e.BlamedOn T) : (ofExcept result).Blames T := by
  intro m e n failed
  cases result with
  | ok value => contradiction
  | error fault =>
    cases failed
    exact h _ rfl

/-- A variable that is not there is blamed at its name. -/
theorem blames_readVariable {name : Token} (h : name.IsName T) : (readVariable name).Blames T := by
  intro m e n failed
  simp only [run, Lox.readVariable] at failed
  split at failed
  · contradiction
  · cases failed
    exact ⟨name, _, h.1, .undefinedVariable h.2, rfl⟩

theorem blames_declareVariable {name : Token} (h : name.IsName T) (value : Value) :
    (declareVariable name value).Blames T := by
  intro m e n failed
  simp only [run, Lox.declareVariable] at failed
  split at failed
  · contradiction
  · cases failed
    exact ⟨name, _, h.1, .redeclared h.2, rfl⟩

theorem blames_assignVariable {name : Token} (h : name.IsName T) (value : Value) :
    (assignVariable name value).Blames T := by
  intro m e n failed
  simp only [run, Lox.assignVariable] at failed
  split at failed
  · contradiction
  · cases failed
    exact ⟨name, _, h.1, .undefinedVariable h.2, rfl⟩

/-- To make a function blames nothing. -/
theorem blames_makeFunction (f : FunctionDecl) : (makeFunction f).Blames T :=
  fun _ _ _ failed => nomatch failed

section

variable {paren : Token} (ht : T paren) (hk : paren.kind = .rightParen)
include ht hk

/-- A call of what cannot be called is blamed at its closing parenthesis. -/
theorem blames_callee (value : Value) (count : Nat) : (callee value count paren).Blames T := by
  intro m e n failed
  simp only [run, Lox.callee] at failed
  split at failed
  · split at failed
    · split at failed
      · contradiction
      · cases failed
        exact ⟨paren, _, ht, .arityMismatch _ _ hk, rfl⟩
    · cases failed
      exact ⟨paren, _, ht, .notCallable hk, rfl⟩
  · cases failed
    exact ⟨paren, _, ht, .notCallable hk, rfl⟩

theorem blames_performAction (action : Action) (arguments : List Value) :
    (performAction action arguments paren).Blames T := by
  intro m e n failed
  cases action with
  | nothing | clock => contradiction
  | print =>
    simp only [run, Lox.performAction] at failed
    split at failed
    · contradiction
    · cases failed
      exact ⟨paren, _, ht, .native _ hk, rfl⟩

theorem blames_enter : (enter paren).Blames T := by
  intro m e n failed
  rw [run_enter] at failed
  split at failed
  · cases failed
    exact ⟨paren, _, ht, .stackOverflow hk, rfl⟩
  · contradiction

end

end Step

/-- Whether a task is closed by a parenthesis with a property if it is a call. -/
def Task.ClosedBy (T : Token → Prop) : Task → Prop
  | .call _ _ paren => T paren ∧ paren.kind = .rightParen
  | _ => True

/-- Whether whatever the steps of a script fail with is blamed on a token with a property, and the
calls in it are closed by one. -/
def Script.Blames (T : Token → Prop) : Script α → Prop
  | done _ => True
  | step s next => s.Blames T ∧ ∀ a, (next a).Blames T
  | part _ t next => t.ClosedBy T ∧ ∀ a, (next a).Blames T

namespace Script.Blames

/-- A step blames tokens, and so does what is done with its result. -/
theorem step {s : Step} {next : s.Result → Script α} (hs : s.Blames T)
    (hnext : ∀ a, (next a).Blames T) : (step s next).Blames T :=
  ⟨hs, hnext⟩

/-- A part of a script blames the tokens of its task. -/
theorem part {place : Place} {t : Task} {next : t.Result → Script α} (ht : t.ClosedBy T)
    (hnext : ∀ a, (next a).Blames T) : (part place t next).Blames T :=
  ⟨ht, hnext⟩

theorem whole {place : Place} {t : Task} (ht : t.ClosedBy T) : (whole place t).Blames T :=
  part ht fun _ => trivial

theorem effect {s : Step} (hs : s.Blames T) : (effect s).Blames T := step hs fun _ => trivial

/-- The declaration of a function blames its name. -/
private theorem ofFunction {f : FunctionDecl} (hf : ∀ name ∈ f.name, name.IsName T) :
    (ofFunction f).Blames T := by
  unfold Script.ofFunction
  cases hn : f.name with
  | none => trivial
  | some name =>
    exact step (Step.blames_makeFunction f) fun value =>
      effect (Step.blames_declareVariable (hf name hn) value)

/-- A statement blames tokens of its own. -/
private theorem ofStatement {s : Stmt} (hs : s.WellFormed T) : (ofStatement s).Blames T := by
  cases s with
  | block statements => exact whole trivial
  | expression value => exact part trivial fun _ => trivial
  | var name initializer =>
    cases initializer with
    | none => exact effect (Step.blames_declareVariable hs .nil)
    | some value =>
      exact part trivial fun value => effect (Step.blames_declareVariable hs.1 value)
  | ifElse condition thenBranch elseBranch =>
    refine part trivial fun value => ?_
    split
    · exact whole trivial
    · cases elseBranch with
      | none => trivial
      | some elseBranch => exact whole trivial
  | «while» condition body => exact whole trivial
  | function f => exact ofFunction (hereditary_wellFormed.function hs).name
  | «return» value =>
    cases value with
    | none => trivial
    | some value => exact part trivial fun _ => trivial
  | _ => trivial

private theorem ofStatements (ss : List Stmt) : (ofStatements ss).Blames T := by
  cases ss with
  | nil => trivial
  | cons s rest =>
    refine part trivial fun flow => ?_
    cases flow with
    | normal => exact whole trivial
    | _ => trivial

private theorem ofLoop (condition : Expr) (body : Stmt) : (ofLoop condition body).Blames T := by
  refine part trivial fun value => ?_
  split
  · refine ⟨trivial, fun flow => ?_⟩
    cases flow with
    | normal | «continue» => exact whole trivial
    | _ => trivial
  · trivial

/-- An expression blames tokens of its own. -/
private theorem ofExpression {e : Expr} (he : e.WellFormed T) : (ofExpression e).Blames T := by
  cases e with
  | assign name value =>
    exact part trivial fun value => step (Step.blames_assignVariable he.1 value) fun _ => trivial
  | binary left operator right =>
    refine part trivial fun a => part trivial fun b => step ?_ fun _ => trivial
    exact Step.blames_ofExcept fun e failed => Operator.blamed_binary he.1.1 he.1.2 failed
  | logical left operator right =>
    refine part trivial fun value => ?_
    split
    · trivial
    · exact whole trivial
  | grouping inner => exact whole trivial
  | literal value => trivial
  | unary operator operand =>
    refine part trivial fun a => step ?_ fun _ => trivial
    exact Step.blames_ofExcept fun e failed => Operator.blamed_unary he.1.1 he.1.2 failed
  | «variable» name => exact step (Step.blames_readVariable he) fun _ => trivial
  | call function paren arguments =>
    obtain ⟨-, ⟨ht, hk⟩, -⟩ := he
    refine part trivial fun value => part trivial fun values => ?_
    exact step (Step.blames_callee ht hk value _) fun callable => whole ⟨ht, hk⟩
  | lambda f => exact step (Step.blames_makeFunction f) fun _ => trivial

/-- Expressions in a row blame nothing beside what each of them does. -/
private theorem ofExpressions (es : List Expr) : (ofExpressions es).Blames T := by
  cases es with
  | nil => trivial
  | cons e rest => exact part trivial fun _ => part trivial fun _ => trivial

/-- A call blames its closing parenthesis. -/
private theorem ofCall (callable : Callable) (arguments : List Value) {paren : Token}
    (h : T paren ∧ paren.kind = .rightParen) : (ofCall callable arguments paren).Blames T := by
  cases callable with
  | native name arity action =>
    exact step (Step.blames_performAction h.1 h.2 action arguments) fun _ => trivial
  | function f closure =>
    exact step (Step.blames_enter h.1 h.2) fun _ => part trivial fun _ => trivial

/-- A task blames tokens of its own, or the parenthesis that closes it. -/
theorem script {t : Task} (ht : t.WellFormed T) (closed : t.ClosedBy T) : t.script.Blames T := by
  cases t with
  | statement s => exact ofStatement ht
  | statements ss => exact ofStatements ss
  | loop condition body => exact ofLoop condition body
  | expression e => exact ofExpression ht
  | expressions es => exact ofExpressions es
  | call callable arguments paren => exact ofCall callable arguments closed

/-- A program blames nothing beside what its statements do. -/
theorem ofProgram (statements : List Stmt) : (ofProgram statements).Blames T := by
  induction statements with
  | nil => trivial
  | cons s rest ih => exact part trivial fun _ => ih

end Script.Blames

/-! ### Runs -/

/-- Well-formed tasks, on machines with such functions. -/
abbrev wellFormedRuns (T : Token → Prop) : Contract :=
  heredity (Stmt.WellFormed T) (Expr.WellFormed T) (FunctionDecl.IsSound T)

/-- Runs of well-formed trees stay among well-formed trees. -/
theorem sound_wellFormedRuns : (wellFormedRuns T).Sound := hereditary_wellFormed.sound

/-- A script fails as its steps and its parts do. -/
private theorem blamed_script {fuel : Nat}
    (parts : ∀ {t : Task} {m : Machine} {e : RuntimeError} {n : Machine}, t.WellFormed T →
      t.ClosedBy T → (wellFormedRuns T).invariant m → t.run fuel m = .error (.error e) n →
      e.BlamedOn T)
    {Q : α → Prop} {script : Script α} (keeps : script.Keeps (wellFormedRuns T) Q)
    (blames : script.Blames T) {m : Machine} (hm : (wellFormedRuns T).invariant m)
    {e : RuntimeError} {n : Machine} (failed : script.run fuel m = .error (.error e) n) :
    e.BlamedOn T := by
  induction script generalizing m with
  | done a => contradiction
  | step s next ih =>
    obtain ⟨hend, hnext⟩ := keeps m hm
    rw [Script.run_step] at failed
    cases hs : s.run m with
    | error halt k =>
      rw [hs] at failed
      cases failed
      exact blames.1 m e n hs
    | ok a k =>
      rw [hs] at failed hend
      exact ih a (hnext a k hs) (blames.2 a) hend failed
  | part place t next ih =>
    have entered := sound_wellFormedRuns.entered place m hm
    have inside := sound_wellFormedRuns.kept fuel keeps.1 entered
    rw [Script.run_part] at failed
    cases ht : t.run fuel (place.entered m) with
    | error halt k =>
      rw [ht] at failed
      cases failed
      exact parts keeps.1 blames.1 entered ht
    | ok a k =>
      rw [ht] at failed inside
      have left := sound_wellFormedRuns.left place m k hm inside.invariant
      exact ih a (keeps.2 a trivial) (blames.2 a) left failed

/-- A run that fails blames a token that it was given, or one of the functions held. -/
theorem blamed_run (fuel : Nat) {t : Task} {m : Machine} {e : RuntimeError} {n : Machine}
    (ht : t.WellFormed T) (closed : t.ClosedBy T) (hm : (wellFormedRuns T).invariant m)
    (failed : t.run fuel m = .error (.error e) n) : e.BlamedOn T := by
  induction fuel generalizing t m e n with
  | zero =>
    have spent : t.run 0 m = .error .outOfFuel m := by
      rw [t.run_zero]
      rfl
    exact nomatch spent.symm.trans failed
  | succ fuel ih =>
    rw [t.run_succ] at failed
    exact blamed_script ih (sound_wellFormedRuns.script t ht) (.script ht closed) hm failed

/-- A program whose statements are well formed fails with an error that is blamed on one of its
tokens, or on one of the programs before it. -/
theorem blamed_interpret (fuel : Nat) {statements : List Stmt}
    (ht : ∀ s ∈ statements, s.WellFormed T) {m : Machine} (hm : (wellFormedRuns T).invariant m)
    {e : RuntimeError} {n : Machine} (failed : interpret fuel statements m = .error (.error e) n) :
    e.BlamedOn T := by
  rw [Script.run_ofProgram] at failed
  exact blamed_script (blamed_run fuel) (Script.keeps_ofProgram ht) (.ofProgram statements) hm
    failed

/-! ### Sessions -/

/-- Whether a token has been scanned in one of some source texts. -/
def ScannedIn (sources : List String) (t : Token) : Prop :=
  ∃ source ∈ sources, t ∈ (Source.scan source).tokens

/-- The statements of each source text are well formed, of tokens scanned in it. -/
theorem wellFormed_statements {sources : List String} {source : String} (h : source ∈ sources) :
    ∀ s ∈ (parseSource source).statements, s.WellFormed (ScannedIn sources) :=
  Stmt.allWellFormed_iff.mp (parse_gathers fun _ ht => ⟨source, h, ht⟩).1

namespace Machine

/-- What a session of source texts runs and stores is well formed, of tokens scanned in them. -/
theorem wellFormed_session (fuel : Nat) (sink : Sink) (clock : Nat → Nat)
    {sources texts : List String} (h : sources ⊆ texts) :
    (∀ p ∈ sessionTrace fuel sources (initial sink clock),
      (wellFormedRuns (ScannedIn texts)).Allows p) ∧
    ∀ ds n, (initial sink clock).runAll fuel sources = some (ds, n) →
      n.store.FunctionsAre (FunctionDecl.IsSound (ScannedIn texts)) :=
  sound_wellFormedRuns.kept_session fuel (fun _ hsource _ => wellFormed_statements (h hsource))
    .initial

/-- A runtime error of a session is blamed on a token of the text that it has ended, or of one of
those before it. -/
theorem blamed_runAll {fuel : Nat} {sink : Sink} {clock : Nat → Nat} {sources : List String}
    {ds : List Diagnostics} {n : Machine}
    (h : (initial sink clock).runAll fuel sources = some (ds, n)) {i : Nat} {d : Diagnostics}
    (hd : ds[i]? = some d) {e : RuntimeError} (he : d.runtimeError = some e) :
    e.BlamedOn (ScannedIn (sources.take (i + 1))) := by
  obtain ⟨source, earlier, k, k', hsource, hearlier, hrun⟩ := runAll_getElem? h hd
  obtain ⟨-, failed⟩ := (run_eq_some hrun).2.2 e he
  have hmem : source ∈ sources.take (i + 1) := by
    refine List.mem_of_getElem? (i := i) ?_
    rw [List.getElem?_take_of_lt (Nat.lt_succ_self i), hsource]
  have before : sources.take i ⊆ sources.take (i + 1) :=
    (List.take_sublist_take_left (Nat.le_succ i)).subset
  exact blamed_interpret fuel (wellFormed_statements hmem)
    ((wellFormed_session fuel sink clock before).2 earlier k hearlier) failed

end Machine

end Lox
