import Lox.Proofs.Machine.Frame
import Lox.Proofs.Machine.Traces

/-!
# Where a run comes to

A run comes to places in the scripts of its tasks: there are calls in progress, a script
is still to be done, and the machine is in some state. What holds at the start and is
kept by each step, by entering a block or a call and by leaving it again holds wherever
a run comes to. A run ends with an error exactly if it comes to a step that fails with
it.
-/

namespace Lox

/-- The calls in progress in a place, the innermost first, if there are `calls` around it. -/
def Place.calls (calls : List FunctionDecl) : Place → List FunctionDecl
  | call declaration _ _ => declaration :: calls
  | _ => calls

/-- Where a run of a script comes to that starts on `m`: the calls in progress, the fuel that is
left, what is still to be done of the task at hand, and the machine. -/
inductive Visits (fuel : Nat) (program : Script β) (m : Machine) :
    List FunctionDecl → Nat → {α : Type} → Script α → Machine → Prop where
  | start : Visits fuel program m [] fuel program m
  /-- A step has been taken. -/
  | step {s : Step} {next : s.Result → Script α} {a : s.Result} :
      Visits fuel program m calls left (.step s next) n → s.run n = .ok a k →
      Visits fuel program m calls left (next a) k
  /-- A task is begun in its place. -/
  | enter {t : Task} {next : t.Result → Script α} :
      Visits fuel program m calls (left + 1) (.part place t next) n →
      Visits fuel program m (place.calls calls) left t.script (place.entered n)
  /-- A task has been done, and its place is left. -/
  | leave {t : Task} {next : t.Result → Script α} {a : t.Result} :
      Visits fuel program m calls left (.part place t next) n →
      place.run (t.run left) n = .ok a k → Visits fuel program m calls left (next a) k

/-- The machines that a run passes through, with the calls in progress: wherever it comes to, and
where a task has ended, in its place and after its place is left, with a result or without one. -/
inductive Passes (fuel : Nat) (program : Script β) (m : Machine) :
    List FunctionDecl → Machine → Prop where
  | visit {script : Script α} : Visits fuel program m calls left script n →
      Passes fuel program m calls n
  | ended {t : Task} {next : t.Result → Script α} :
      Visits fuel program m calls left (.part place t next) n →
      Passes fuel program m (place.calls calls) (Outcome.machine (t.run left (place.entered n)))
  | left {t : Task} {next : t.Result → Script α} :
      Visits fuel program m calls left (.part place t next) n →
      Passes fuel program m calls (Outcome.machine (place.run (t.run left) n))
  | finish : Passes fuel program m [] (Outcome.machine (program.run fuel m))

/-! ### Errors -/

/-- Whether a run comes to a step that fails with a runtime error. -/
inductive Fails (fuel : Nat) (program : Script β) (m : Machine) (e : RuntimeError) : Prop where
  | at {s : Step} {next : s.Result → Script α} :
      Visits fuel program m calls left (.step s next) n → s.run n = .error (.error e) k →
      Fails fuel program m e

section

variable {fuel : Nat} {program : Script β} {m : Machine}

/-- Nothing catches an error: what a part of a run stops with, the whole of it does. -/
theorem Visits.error {calls : List FunctionDecl} {left : Nat} {script : Script α} {n k : Machine}
    (h : Visits fuel program m calls left script n) {e : Halt}
    (failed : script.run left n = .error e k) : ∃ k', program.run fuel m = .error e k' := by
  induction h generalizing k with
  | start => exact ⟨k, failed⟩
  | step _ hs ih =>
    refine ih (k := k) ?_
    rw [Script.run_step, hs]
    exact failed
  | @enter _ _ _ place n t next _ ih =>
    refine ih (k := place.left n k) ?_
    rw [Script.run_part, t.run_succ, failed]
    rfl
  | leave _ hrun ih =>
    refine ih (k := k) ?_
    rw [Script.run_part, ← Place.run_apply, hrun]
    exact failed

/-- A run that ends with a runtime error has come to a step that fails with it, if each of its parts
has that ends with the error. -/
private theorem fails_of_error_script {e : RuntimeError} {left : Nat}
    (parts : ∀ {calls : List FunctionDecl} {α : Type} {place : Place} {t : Task}
      {next : t.Result → Script α} {n k : Machine},
      Visits fuel program m calls left (.part place t next) n →
      t.run left (place.entered n) = .error (.error e) k → Fails fuel program m e)
    {calls : List FunctionDecl} {script : Script α} {n k : Machine}
    (h : Visits fuel program m calls left script n)
    (failed : script.run left n = .error (.error e) k) : Fails fuel program m e := by
  induction script generalizing n with
  | done a => exact nomatch failed
  | step s next ih =>
    rw [Script.run_step] at failed
    cases hs : s.run n with
    | error halt k' =>
      rw [hs] at failed
      cases failed
      exact .at h hs
    | ok a k' =>
      rw [hs] at failed
      exact ih a (h.step hs) failed
  | part place t next ih =>
    rw [Script.run_part, ← Place.run_apply] at failed
    cases hrun : place.run (t.run left) n with
    | error halt k' =>
      rw [hrun] at failed
      cases failed
      rw [Place.run_apply] at hrun
      cases inside : t.run left (place.entered n) with
      | ok a k' =>
        rw [inside] at hrun
        contradiction
      | error halt k' =>
        rw [inside] at hrun
        cases hrun
        exact parts h inside
    | ok a k' =>
      rw [hrun] at failed
      exact ih a (h.leave hrun) failed

/-- A visit fails where a part of its script does. -/
private theorem fails_of_error_part {e : RuntimeError} {left : Nat} {calls : List FunctionDecl}
    {place : Place} {t : Task} {next : t.Result → Script α} {n k : Machine}
    (h : Visits fuel program m calls left (.part place t next) n)
    (failed : t.run left (place.entered n) = .error (.error e) k) : Fails fuel program m e := by
  induction left generalizing calls α place t n k with
  | zero =>
    have spent : t.run 0 (place.entered n) = .error .outOfFuel (place.entered n) := by
      rw [t.run_zero]
      rfl
    exact nomatch spent.symm.trans failed
  | succ left ih =>
    rw [t.run_succ] at failed
    exact fails_of_error_script (fun h => ih h) h.enter failed

/-- A run ends with a runtime error exactly if it comes to a step that fails with it. -/
theorem error_iff_fails {e : RuntimeError} :
    (∃ k, program.run fuel m = .error (.error e) k) ↔ Fails fuel program m e := by
  constructor
  · rintro ⟨k, failed⟩
    exact fails_of_error_script fails_of_error_part .start failed
  · rintro ⟨h, hs⟩
    exact h.error (by rw [Script.run_step, hs, Outcome.andThen])

end

/-! ### Calls -/

/-- Whether a callable is in the store and takes so many arguments. -/
structure Machine.MayCall (m : Machine) (callable : Callable) (count : Nat) : Prop where
  stored : ∃ ref, m.store.callable? ref = some callable
  arity : count = callable.arity

/-- To check a call changes nothing. -/
theorem machine_callee (value : Value) (count : Nat) (paren : Token) (m : Machine) :
    Outcome.machine (callee value count paren m) = m := by
  cases value with
  | callable ref =>
    simp only [callee]
    cases m.store.callable? ref with
    | none => rfl
    | some callable =>
      by_cases h : count = callable.arity
      · simp only [if_pos h]
        rfl
      · simp only [if_neg h]
        rfl
  | _ => rfl

/-- A value is only ever called that leads to a callable of as many arguments. -/
theorem callee_eq_ok {value : Value} {count : Nat} {paren : Token} {callable : Callable}
    {m n : Machine} (h : callee value count paren m = .ok callable n) :
    n = m ∧ m.MayCall callable count := by
  cases value with
  | callable ref =>
    simp only [callee] at h
    split at h
    · next found hfound =>
      split at h
      · next harity =>
        cases h
        exact ⟨rfl, ⟨ref, hfound⟩, harity⟩
      · contradiction
    · contradiction
  | _ => contradiction

/-- Whether a task is a call. -/
def Task.isCall : Task → Bool
  | call _ _ _ => true
  | _ => false

/-- Whether a place is in the scope of a call. -/
def Place.isCall : Place → Bool
  | call _ _ _ => true
  | _ => false

/-- A step that does not fail for the number of calls in progress, on any machine. -/
def Step.IgnoresDepth (s : Step) : Prop :=
  ∀ m e n, s.run m = .error (.error e) n → e.fault ≠ .stackOverflow

/-- A binary operator never overflows the stack. -/
theorem Operator.ignoresDepth_binary {operator : Token} {a b : Value} {e : RuntimeError}
    (h : binary operator a b = .error e) : e.fault ≠ .stackOverflow := by
  simp only [binary, add, arithmetic] at h
  repeat' split at h
  all_goals cases h
  all_goals exact Fault.noConfusion

theorem Operator.ignoresDepth_unary {operator : Token} {a : Value} {e : RuntimeError}
    (h : unary operator a = .error e) : e.fault ≠ .stackOverflow := by
  simp only [unary] at h
  repeat' split at h
  all_goals cases h
  all_goals exact Fault.noConfusion

namespace Step

theorem ignoresDepth_ofExcept {result : Except RuntimeError Value}
    (h : ∀ e, result = .error e → e.fault ≠ .stackOverflow) : (ofExcept result).IgnoresDepth := by
  intro m e n failed
  cases result with
  | ok value => contradiction
  | error fault =>
    cases failed
    exact h _ rfl

/-- Steps that have no such failure, whatever they are given. -/
def neverTooDeep : Step → Bool
  | ofExcept _ | enter _ => false
  | _ => true

/-- No step but the entrance of a call can overflow the stack. -/
theorem ignoresDepth_of_neverTooDeep {s : Step} (hs : s.neverTooDeep = true) : s.IgnoresDepth := by
  intro m e n failed
  cases s with
  | ofExcept | enter | makeFunction => contradiction
  | readVariable | declareVariable | assignVariable | callee | performAction =>
    simp only [run, Lox.readVariable, Lox.declareVariable, Lox.assignVariable, Lox.callee,
      Lox.performAction] at failed
    repeat' split at failed
    all_goals cases failed
    all_goals exact Fault.noConfusion

end Step

/-- Scripts in which whatever is called has just been found to be callable, and in which no step
fails for the number of calls in progress. -/
inductive Script.Checked : {α : Type} → Script α → Prop where
  | done (a : α) : Checked (.done a)
  | step {s : Step} {next : s.Result → Script α} : s.IgnoresDepth → (∀ a, (next a).Checked) →
      Checked (.step s next)
  | part {place : Place} {t : Task} {next : t.Result → Script α} :
      place.isCall = false → t.isCall = false → (∀ a, (next a).Checked) →
      Checked (.part place t next)
  | call (value : Value) (arguments : List Value) (paren : Token) :
      Checked (.step (.callee value arguments.length paren) fun callable =>
        .part .here (.call callable arguments paren) .done)

namespace Script.Checked

/-- A script that is one task enters no call, if the task is none. -/
theorem whole {place : Place} {t : Task} (hplace : place.isCall = false) (ht : t.isCall = false) :
    (Script.whole place t).Checked :=
  .part hplace ht .done

theorem here {t : Task} {next : t.Result → Script α} (ht : t.isCall = false)
    (hnext : ∀ a, (next a).Checked) : (Script.part .here t next).Checked :=
  .part rfl ht hnext

theorem effect {s : Step} (hs : s.IgnoresDepth) : (Script.effect s).Checked :=
  .step hs fun _ => .done _

private theorem declareVariable (name : Token) (value : Value) :
    (Script.effect (.declareVariable name value)).Checked :=
  .effect (Step.ignoresDepth_of_neverTooDeep rfl)

private theorem ofFunction (declaration : FunctionDecl) :
    (Script.ofFunction declaration).Checked := by
  unfold Script.ofFunction
  split
  · exact .step (Step.ignoresDepth_of_neverTooDeep rfl) fun _ => declareVariable _ _
  · exact .done _

/-- A statement enters calls after a check only. -/
private theorem ofStatement (s : Stmt) : (Script.ofStatement s).Checked := by
  cases s with
  | block statements => exact .whole rfl rfl
  | expression value => exact .here rfl fun _ => .done _
  | var name initializer =>
    cases initializer with
    | none => exact declareVariable name .nil
    | some initializer => exact .here rfl fun _ => declareVariable _ _
  | ifElse condition thenBranch elseBranch =>
    refine .here rfl fun value => ?_
    split
    · exact .whole rfl rfl
    · cases elseBranch with
      | none => exact .done _
      | some elseBranch => exact .whole rfl rfl
  | «while» condition body => exact .whole rfl rfl
  | function declaration => exact ofFunction declaration
  | «return» value =>
    cases value with
    | none => exact .done _
    | some value => exact .here rfl fun _ => .done _
  | _ => exact .done _

private theorem ofStatements (ss : List Stmt) : (Script.ofStatements ss).Checked := by
  cases ss with
  | nil => exact .done _
  | cons statement rest =>
    refine .here rfl fun flow => ?_
    cases flow with
    | normal => exact .whole rfl rfl
    | _ => exact .done _

private theorem ofLoop (condition : Expr) (body : Stmt) :
    (Script.ofLoop condition body).Checked := by
  refine .here rfl fun value => ?_
  split
  · refine .here rfl fun flow => ?_
    cases flow with
    | normal | «continue» => exact .whole rfl rfl
    | _ => exact .done _
  · exact .done _

private theorem ofExpression (e : Expr) : (Script.ofExpression e).Checked := by
  cases e with
  | assign name value =>
    refine .here rfl fun value => ?_
    exact .step (Step.ignoresDepth_of_neverTooDeep rfl) fun _ => .done value
  | binary left operator right =>
    refine .here rfl fun a => .here rfl fun b => .step ?_ .done
    exact Step.ignoresDepth_ofExcept fun e he => Operator.ignoresDepth_binary he
  | logical left operator right =>
    refine .here rfl fun value => ?_
    split
    · exact .done _
    · exact .whole rfl rfl
  | grouping inner => exact .whole rfl rfl
  | literal value => exact .done _
  | unary operator operand =>
    refine .here rfl fun a => .step ?_ .done
    exact Step.ignoresDepth_ofExcept fun e he => Operator.ignoresDepth_unary he
  | «variable» name => exact .step (Step.ignoresDepth_of_neverTooDeep rfl) .done
  | call function paren arguments =>
    exact .here rfl fun value => .here rfl fun values => .call value values paren
  | lambda declaration => exact .step (Step.ignoresDepth_of_neverTooDeep rfl) .done

private theorem ofExpressions (es : List Expr) : (Script.ofExpressions es).Checked := by
  cases es with
  | nil => exact .done _
  | cons expression rest => exact .here rfl fun _ => .here rfl fun _ => .done _

/-- A native enters no call. -/
theorem native (name : String) (arity : Nat) (action : Action) (arguments : List Value)
    (paren : Token) : (Script.ofCall (.native name arity action) arguments paren).Checked :=
  .step (Step.ignoresDepth_of_neverTooDeep rfl) .done

/-- So are the scripts of all tasks but calls. -/
theorem script {t : Task} (ht : t.isCall = false) : t.script.Checked := by
  cases t with
  | statement s => exact ofStatement s
  | statements ss => exact ofStatements ss
  | loop condition body => exact ofLoop condition body
  | expression e => exact ofExpression e
  | expressions es => exact ofExpressions es
  | call callable arguments paren => contradiction

/-- A program enters no calls beside those of its statements. -/
theorem ofProgram (statements : List Stmt) : (Script.ofProgram statements).Checked := by
  induction statements with
  | nil => exact .done _
  | cons statement rest ih => exact .here rfl fun _ => ih

end Script.Checked

/-- What a run comes to: a script in which all calls are checked, or a call that has been. -/
inductive Script.Ready (n : Machine) : {α : Type} → Script α → Prop where
  | checked {script : Script α} : script.Checked → Ready n script
  | called {callable : Callable} {arguments : List Value} {paren : Token} :
      n.MayCall callable arguments.length →
      Ready n (.part .here (.call callable arguments paren) .done)
  /-- The call of a function, before the look at the depth. -/
  | function {f : FunctionDecl} {closure : ScopeId} {arguments : List Value} {paren : Token} :
      n.MayCall (.function f closure) arguments.length →
      Ready n (.step (.enter paren) fun _ =>
        .part (.call f closure arguments) (.statements f.body) fun flow => .done flow.result)
  /-- The call of a function, after the look at the depth. -/
  | body {f : FunctionDecl} {closure : ScopeId} {arguments : List Value} :
      n.MayCall (.function f closure) arguments.length → n.depth < maxDepth →
      Ready n (.part (.call f closure arguments) (.statements f.body) fun flow =>
        .done flow.result)

namespace Script.Ready

variable {n k : Machine}

/-- After a step a script is as ready as before. -/
theorem step {s : Step} {next : s.Result → Script α} {a : s.Result}
    (h : Ready n (.step s next)) (hs : s.run n = .ok a k) : Ready k (next a) := by
  cases h with
  | checked h =>
    cases h with
    | step _ hnext => exact .checked (hnext a)
    | call value arguments paren =>
      obtain ⟨rfl, may⟩ := callee_eq_ok hs
      exact .called may
  | @function f closure arguments paren may =>
    rw [Step.run_enter] at hs
    split at hs
    · contradiction
    · next shallow =>
      cases hs
      exact .body may (Nat.lt_of_not_le shallow)

/-- A task is ready in the place that it is run in. -/
theorem enter {place : Place} {t : Task} {next : t.Result → Script α}
    (h : Ready n (.part place t next)) : Ready (place.entered n) t.script := by
  cases h with
  | checked h =>
    cases h with
    | part _ ht _ => exact .checked (.script ht)
  | @called callable arguments paren may =>
    cases callable with
    | native name arity action => exact .checked (.native name arity action arguments paren)
    | function f closure => exact .function may
  | body => exact .checked (.script rfl)

/-- What follows a part is ready on the machine that the part leaves. -/
theorem leave {place : Place} {t : Task} {next : t.Result → Script α}
    (h : Ready n (.part place t next)) (a : t.Result) : Ready k (next a) := by
  cases h with
  | checked h =>
    cases h with
    | part _ _ hnext => exact .checked (hnext a)
  | called => exact .checked (.done a)
  | body => exact .checked (.done _)

end Script.Ready

/-- Wherever the run of a program comes to, what is called has been checked. -/
theorem Visits.ready {fuel : Nat} {program : Script β} {m : Machine} {calls : List FunctionDecl}
    {left : Nat} {script : Script α} {n : Machine} (checked : program.Checked)
    (h : Visits fuel program m calls left script n) : script.Ready n := by
  induction h with
  | start => exact .checked checked
  | step _ hs ih => exact ih.step hs
  | enter _ ih => exact ih.enter
  | leave _ _ ih => exact ih.leave _

/-! ### Invariants -/

/-- What a run keeps, of the machine and of the calls in progress: each step keeps it, and so do
entering a block, entering the call of a function while there may be one more, and leaving a place
with the frame that it was entered with. -/
structure Invariant (I : List FunctionDecl → Machine → Prop) : Prop where
  step : ∀ {calls m} (s : Step), I calls m → I calls (Outcome.machine (s.run m))
  block : ∀ {calls m}, I calls m → I calls (Place.block.entered m)
  call : ∀ {calls m f closure arguments}, m.MayCall (.function f closure) arguments.length →
    m.depth < maxDepth → I calls m → I (f :: calls) ((Place.call f closure arguments).entered m)
  left : ∀ {calls m n} (place : Place), I calls m → (place.entered m).SameFrame n →
    I (place.calls calls) n → I calls (place.left m n)

/-- The machine after a run is that of its outcome. -/
theorem Run.after_eq_machine (x : Run α) (m : Machine) : x.after m = Outcome.machine (x m) := by
  simp only [Run.after, Outcome.machine]
  cases x m <;> rfl

/-- A step keeps the frame. -/
theorem Step.sameFrame_run (s : Step) (m : Machine) :
    m.SameFrame (Outcome.machine (s.run m)) := by
  rw [← Run.after_eq_machine]
  have steps := Run.RestoresFrame.property
  cases s with
  | ofExcept result => exact steps.ofExcept result m
  | readVariable name => exact steps.readVariable name m
  | declareVariable name value => exact steps.declareVariable name value m
  | assignVariable name value => exact steps.assignVariable name value m
  | makeFunction declaration => exact steps.makeFunction declaration m
  | callee value count paren => exact steps.callee value count paren m
  | performAction action arguments paren => exact steps.performAction action arguments paren m
  | enter paren =>
    rw [Run.after_eq_machine, Step.run_enter]
    split <;> exact .refl m

/-- A task leaves the frame of the machine as it was. -/
theorem Task.sameFrame_run (fuel : Nat) (t : Task) (m : Machine) :
    m.SameFrame (Outcome.machine (t.run fuel m)) := by
  rw [← Run.after_eq_machine]
  have within := Run.RestoresFrame.property.holdsWithin fuel
  cases t with
  | statement s => exact within.execute s m
  | statements ss => exact within.executeAll ss m
  | loop condition body => exact within.repeatWhile condition body m
  | expression e => exact within.evaluate e m
  | expressions es => exact within.evaluateAll es m
  | call callable arguments paren => exact within.call callable arguments paren m

namespace Invariant

variable {I : List FunctionDecl → Machine → Prop} (inv : Invariant I) {calls : List FunctionDecl}
  {m : Machine}
include inv

/-- An invariant holds where a part is entered. -/
theorem entered {place : Place} {t : Task} {next : t.Result → Script α}
    (ready : (Script.part place t next).Ready m) (hm : I calls m) :
    I (place.calls calls) (place.entered m) := by
  cases ready with
  | checked h =>
    cases h with
    | part hplace _ _ =>
      cases place with
      | here => exact hm
      | block => exact inv.block hm
      | call => contradiction
  | called => exact hm
  | body may shallow => exact inv.call may shallow hm

private theorem run_script {fuel : Nat}
    (tasks : ∀ {t : Task} {calls : List FunctionDecl} {m : Machine}, t.script.Ready m →
      I calls m → I calls (Outcome.machine (t.run fuel m)))
    {script : Script α} (ready : script.Ready m) (hm : I calls m) :
    I calls (Outcome.machine (script.run fuel m)) := by
  induction script generalizing m with
  | done a => exact hm
  | step s next ih =>
    have taken := inv.step s hm
    rw [Script.run_step]
    cases hs : s.run m with
    | error e n =>
      rw [hs] at taken
      exact taken
    | ok a n =>
      rw [hs] at taken
      exact ih a (ready.step hs) taken
  | part place t next ih =>
    have inside := tasks ready.enter (inv.entered ready hm)
    have outside := inv.left place hm (t.sameFrame_run fuel _) inside
    rw [Script.run_part]
    cases hrun : t.run fuel (place.entered m) with
    | error e n =>
      rw [hrun] at outside
      exact outside
    | ok a n =>
      rw [hrun] at outside
      exact ih a (ready.leave a) outside

/-- A task keeps an invariant, however it ends. -/
theorem run_task (fuel : Nat) {t : Task} (ready : t.script.Ready m) (hm : I calls m) :
    I calls (Outcome.machine (t.run fuel m)) := by
  induction fuel generalizing t calls m with
  | zero =>
    rw [t.run_zero]
    exact hm
  | succ fuel ih =>
    rw [t.run_succ]
    exact inv.run_script (fun ready hm => ih ready hm) ready hm

/-- An invariant that holds before a task holds in its place, when the task has ended there, and
after its place is left. -/
theorem run_part (fuel : Nat) {place : Place} {t : Task} {next : t.Result → Script α}
    (ready : (Script.part place t next).Ready m) (hm : I calls m) :
    I (place.calls calls) (Outcome.machine (t.run fuel (place.entered m))) ∧
      I calls (Outcome.machine (place.run (t.run fuel) m)) := by
  have inside := inv.run_task fuel ready.enter (inv.entered ready hm)
  refine ⟨inside, ?_⟩
  rw [Place.run_apply, Outcome.machine_onMachine]
  exact inv.left place hm (t.sameFrame_run fuel _) inside

variable {fuel : Nat} {program : Script β} (checked : program.Checked)
include checked

/-- An invariant that holds at the start holds wherever the run comes to. -/
theorem visits (hm : I [] m) {left : Nat} {script : Script α} {n : Machine}
    (h : Visits fuel program m calls left script n) : I calls n := by
  induction h with
  | start => exact hm
  | @step _ _ _ _ _ s _ _ _ hs ih =>
    have taken := inv.step s ih
    rwa [hs] at taken
  | enter h ih => exact inv.entered (h.ready checked) ih
  | @leave _ _ left _ _ _ _ _ _ h hrun ih =>
    obtain ⟨-, outside⟩ := inv.run_part left (h.ready checked) ih
    rwa [hrun] at outside

/-- It holds of every machine that the run passes through. -/
theorem passes (hm : I [] m) {n : Machine} (h : Passes fuel program m calls n) : I calls n := by
  cases h with
  | visit h => exact inv.visits checked hm h
  | ended h => exact (inv.run_part _ (h.ready checked) (inv.visits checked hm h)).1
  | left h => exact (inv.run_part _ (h.ready checked) (inv.visits checked hm h)).2
  | finish =>
    exact inv.run_script (fun ready hm => inv.run_task fuel ready hm) (.checked checked) hm

end Invariant

/-! ### Sessions -/

namespace Machine

/-- The machines between the programs of a session, which starts on a new one: programs are run to
an end, or not at all for their errors, and what has been written may be taken away. -/
inductive InSession (sink : Sink) (clock : Nat → Nat) : Machine → Prop where
  | new : InSession sink clock (initial sink clock)
  | run : InSession sink clock m → m.runParse fuel parse = some (d, n) → InSession sink clock n
  | drain : InSession sink clock m → InSession sink clock m.takeOutput.2

/-- A machine in a session is at rest. -/
theorem InSession.atRest {sink : Sink} {clock : Nat → Nat} {m : Machine}
    (h : InSession sink clock m) : m.AtRest := by
  induction h with
  | new => exact atRest_initial sink clock
  | run _ hrun ih => exact ih.of_sameFrame (sameFrame_runParse hrun)
  | drain _ ih => exact ⟨ih.current, ih.depth⟩

/-- A program of a session ends with a runtime error exactly if it comes to a step that fails
with it. -/
theorem interpret_error_iff {fuel : Nat} {statements : List Stmt} {m : Machine}
    {e : RuntimeError} :
    (∃ n, m.interpret fuel statements = some (some e, n)) ↔
      Fails fuel (.ofProgram statements) m e := by
  rw [← error_iff_fails, ← Script.run_ofProgram]
  simp only [interpret]
  cases Lox.interpret fuel statements m with
  | ok a n => simp
  | error halt n => cases halt <;> simp

end Machine

/-- An invariant that a new machine has, and that does not depend on what has been written, holds
between the programs of a session. -/
theorem Invariant.inSession {I : List FunctionDecl → Machine → Prop} (inv : Invariant I)
    {sink : Sink} {clock : Nat → Nat} (new : I [] (Machine.initial sink clock))
    (drain : ∀ m, I [] m → I [] m.takeOutput.2) {m : Machine}
    (h : Machine.InSession sink clock m) : I [] m := by
  induction h with
  | new => exact new
  | @run m fuel parse d n _ hrun ih =>
    rcases Machine.runParse_cases hrun with rfl | ⟨-, rfl⟩
    · exact ih
    · rw [Run.after_eq_machine, Script.run_ofProgram]
      exact inv.passes (.ofProgram parse.statements) ih .finish
  | drain _ ih => exact drain _ ih

end Lox
