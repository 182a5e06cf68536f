import Lox.Proofs.Machine.Visits

/-!
# How deep calls go

At every moment the machine knows how many calls of functions of the program are in
progress. There may be so many and no more: one call more ends the run, blamed on its
closing parenthesis, unless it is no call at all, for want of a callable or of the right
number of arguments. Native functions do not count.
-/

namespace Lox

/-- Whether the machine counts the calls in progress, and there are no more than there may be. -/
def CountsCalls (calls : List FunctionDecl) (m : Machine) : Prop :=
  m.depth = calls.length ∧ m.depth ≤ maxDepth

/-- The depth is the number of calls in progress, throughout a run. -/
theorem invariant_countsCalls : Invariant CountsCalls where
  step {calls m} s h := by
    rw [CountsCalls, (s.sameFrame_run m).depth]
    exact h
  block h := h
  call _ shallow h := ⟨by rw [List.length_cons, ← h.1]; rfl, shallow⟩
  left place h _ h' := by
    cases place with
    | here | block => exact h'
    | call f closure arguments =>
      -- The call that is taken off the count has been added to it.
      obtain ⟨counted, bounded⟩ := h'
      rw [Place.calls, List.length_cons] at counted
      refine ⟨?_, Nat.le_trans (Nat.sub_le _ 1) bounded⟩
      simp only [Place.left, counted, Nat.add_sub_cancel]

/-- What a native function does has nothing to do with the number of calls in progress. -/
theorem call_native_depth (fuel : Nat) (name : String) (arity : Nat) (action : Action)
    (arguments : List Value) (paren : Token) (m : Machine) (depth : Nat) :
    call fuel (.native name arity action) arguments paren { m with depth := depth } =
      Outcome.onMachine (fun n => { n with depth := depth })
        (call fuel (.native name arity action) arguments paren m) := by
  cases fuel with
  | zero =>
    rw [call]
    rfl
  | succ fuel =>
    rw [call]
    cases action with
    | nothing | clock => rfl
    | print =>
      simp only [performAction]
      cases (m.sink.printFirst arguments).1 <;> rfl

namespace Machine

/-- What there is to say of calls when a program runs on a machine. -/
structure CountsExactly (m : Machine) (fuel : Nat) (statements : List Stmt) : Prop where
  /-- At every moment the count is the number of calls in progress. -/
  counts : ∀ calls n, Passes fuel (.ofProgram statements) m calls n →
    n.depth = calls.length ∧ n.depth ≤ maxDepth
  /-- One call too many, of a function of the program with as many arguments as it takes, ends the
  run at its parenthesis, and nothing else ends it so. -/
  overflow : ∀ line, (∃ n, m.interpret fuel statements = some (some ⟨.stackOverflow, line⟩, n)) ↔
    ∃ calls left f closure arguments paren n,
      Visits fuel (.ofProgram statements) m calls left
        (Task.call (.function f closure) arguments paren).script n ∧
      arguments.length = f.arity ∧ calls.length = maxDepth ∧ paren.line = line
  /-- What cannot be called is never too much, however many calls are in progress. -/
  notCallable : ∀ {α : Type} calls left value count paren (next : Callable → Script α) n,
    Visits fuel (.ofProgram statements) m calls left (.step (.callee value count paren) next) n →
    (∀ ref, value = .callable ref → n.store.callable? ref = none) →
    ∃ k, m.interpret fuel statements = some (some ⟨.notCallable, paren.line⟩, k)
  /-- Nor is a call with another number of arguments. -/
  arityMismatch : ∀ {α : Type} calls left ref count paren (next : Callable → Script α) n callable,
    Visits fuel (.ofProgram statements) m calls left
      (.step (.callee (.callable ref) count paren) next) n →
    n.store.callable? ref = some callable → count ≠ callable.arity →
    ∃ k, m.interpret fuel statements =
      some (some ⟨.arityMismatch callable.arity count, paren.line⟩, k)
  /-- A native function does the same whatever the count is, and leaves it as it is. -/
  native : ∀ left name arity action arguments paren n depth,
    call left (.native name arity action) arguments paren { n with depth := depth } =
      Outcome.onMachine (fun k => { k with depth := depth })
        (call left (.native name arity action) arguments paren n)
  /-- A call that has ended, with an error or without one, is taken off the count that it was added
  to. -/
  unwinds : ∀ {α : Type} calls left f closure arguments (t : Task) (next : t.Result → Script α) n,
    Visits fuel (.ofProgram statements) m calls left (.part (.call f closure arguments) t next) n →
    0 < (Outcome.machine (t.run left ((Place.call f closure arguments).entered n))).depth ∧
      (Outcome.machine ((Place.call f closure arguments).run (t.run left) n)).depth = n.depth
  /-- No call is in progress before the program, and none after it. -/
  starts : m.depth = 0
  ends : ∀ e n, m.interpret fuel statements = some (e, n) → n.depth = 0

section

variable {m : Machine} {fuel : Nat} {statements : List Stmt} {calls : List FunctionDecl}
  {left : Nat} {n : Machine}

/-- A run that comes to the call of a function while there are as many calls as there may be ends
there. -/
theorem fails_of_visits_call (counted : CountsCalls [] m) {f : FunctionDecl} {closure : ScopeId}
    {arguments : List Value} {paren : Token}
    (h : Visits fuel (.ofProgram statements) m calls left
      (Task.call (.function f closure) arguments paren).script n)
    (full : calls.length = maxDepth) :
    Fails fuel (.ofProgram statements) m (Fault.stackOverflow.atToken paren) := by
  have counts := invariant_countsCalls.visits (.ofProgram statements) counted h
  have deep : maxDepth ≤ n.depth := Nat.le_of_eq (full.symm.trans counts.1.symm)
  refine .at h (k := n) ?_
  rw [Step.run_enter, if_pos deep]
  rfl

/-- Only there a run ends for the number of calls in progress. -/
theorem visits_call_of_fails (counted : CountsCalls [] m) {e : RuntimeError}
    (h : Fails fuel (.ofProgram statements) m e) (he : e.fault = .stackOverflow) :
    ∃ calls left f closure arguments paren n,
      Visits fuel (.ofProgram statements) m calls left
        (Task.call (.function f closure) arguments paren).script n ∧
      arguments.length = f.arity ∧ calls.length = maxDepth ∧ paren.line = e.line := by
  obtain @⟨_, calls, left, n, k, s, next, h, failed⟩ := h
  have ready := h.ready (.ofProgram statements)
  cases ready with
  | checked checked =>
    cases checked with
    | step ignores _ => exact absurd he (ignores _ _ _ failed)
    | call value arguments paren =>
      exact absurd he (Step.ignoresDepth_of_neverTooDeep rfl _ _ _ failed)
  | @function f closure arguments paren may =>
    have counts := invariant_countsCalls.visits (.ofProgram statements) counted h
    rw [Step.run_enter] at failed
    split at failed
    · next deep =>
      cases failed
      have full : calls.length = maxDepth :=
        counts.1.symm.trans (Nat.le_antisymm counts.2 deep)
      exact ⟨calls, left, f, closure, arguments, paren, n, h, may.arity, full, rfl⟩
    · contradiction

end

/-- On any machine of a session, whatever has been run on it before, calls are counted exactly. -/
theorem InSession.countsExactly {sink : Sink} {clock : Nat → Nat} {m : Machine}
    (h : InSession sink clock m) (fuel : Nat) (statements : List Stmt) :
    m.CountsExactly fuel statements := by
  have atRest : m.depth = 0 := h.atRest.depth
  have counted : CountsCalls [] m := ⟨atRest, atRest ▸ Nat.zero_le _⟩
  have counts (calls : List FunctionDecl) (n : Machine)
      (hn : Passes fuel (.ofProgram statements) m calls n) : CountsCalls calls n :=
    invariant_countsCalls.passes (.ofProgram statements) counted hn
  constructor
  case counts => exact counts
  case overflow =>
    intro line
    rw [interpret_error_iff]
    constructor
    · exact fun failed => visits_call_of_fails counted failed rfl
    · rintro ⟨calls, left, f, closure, arguments, paren, n, hn, -, full, rfl⟩
      exact fails_of_visits_call counted hn full
  case notCallable =>
    intro α calls left value count paren next n hn none
    refine interpret_error_iff.mpr (.at hn (k := n) ?_)
    cases value with
    | callable ref => simp only [Step.run, callee, none ref rfl, Fault.atToken]
    | _ => rfl
  case arityMismatch =>
    intro α calls left ref count paren next n callable hn found wrong
    refine interpret_error_iff.mpr (.at hn (k := n) ?_)
    simp only [Step.run, callee, found, if_neg wrong, Fault.atToken]
  case native => exact fun left name arity action arguments paren n depth =>
    call_native_depth left name arity action arguments paren n depth
  case unwinds =>
    intro α calls left f closure arguments t next n hn
    have inside := (counts _ _ (.ended hn)).1
    have before := (counts _ _ (.visit hn)).1
    have after := (counts _ _ (.left hn)).1
    rw [Place.calls, List.length_cons] at inside
    exact ⟨inside ▸ Nat.succ_pos _, after.trans before.symm⟩
  case starts => exact atRest
  case ends =>
    intro e n ended
    have last := counts [] _ .finish
    rw [← Script.run_ofProgram] at last
    simp only [interpret] at ended
    cases hrun : Lox.interpret fuel statements m with
    | ok a k =>
      rw [hrun] at ended last
      cases ended
      exact last.1
    | error halt k =>
      rw [hrun] at ended last
      cases halt <;> cases ended
      exact last.1

/-- A session in which a call has failed, and then a function calls itself. -/
theorem InSession.countsExactly_recursion :
    ∃ d n, (initial .unlimited id).run 30 "fun f(a) \x7b a(); \x7d f(nil);" = some (d, n) ∧
      d.runtimeError = some ⟨.notCallable, 1⟩ ∧ InSession .unlimited id n ∧
      n.CountsExactly 300 (Grammar.parseSource "fun g() \x7b g(); \x7d g();").statements := by
  have failed : ((initial .unlimited id).run 30 "fun f(a) \x7b a(); \x7d f(nil);").map
      (·.1.runtimeError) = some (some ⟨.notCallable, 1⟩) := by decide +kernel
  obtain ⟨⟨d, n⟩, hrun, hd⟩ := Option.map_eq_some_iff.mp failed
  have session : InSession .unlimited id n := .run .new hrun
  exact ⟨d, n, hrun, hd, session, session.countsExactly 300 _⟩

end Machine

end Lox
