import Lox.Proofs.Machine.Likeness
import Lox.Proofs.Machine.Lockstep

/-!
# Running alike programs

No program can tell on which line it is. Alike trees run alike on alike machines: with
the same values, the same output and the same bindings, and if they fail, then with the
same fault, at tokens that correspond.
-/

namespace Lox

/-- Reasons to stop that blame the same fault on tokens that correspond. -/
inductive Halt.Alike (R : Token → Token → Prop) : Halt → Halt → Prop where
  | error (f : Fault) : R t t' → Halt.Alike R (.error (f.atToken t)) (.error (f.atToken t'))
  | outOfFuel : Halt.Alike R .outOfFuel .outOfFuel

/-- Two runs end alike: both with results that stand in a relation, or both for alike reasons. -/
inductive Run.EndsAlike (R : Token → Token → Prop) (Q : α → β → Prop) :
    EStateM.Result Halt Machine α → EStateM.Result Halt Machine β → Prop where
  | ok : Q a b → m.Alike R m' → Run.EndsAlike R Q (.ok a m) (.ok b m')
  | error : e.Alike R e' → m.Alike R m' → Run.EndsAlike R Q (.error e m) (.error e' m')

/-- Two runs that end alike on alike machines. -/
def Run.Uniform (R : Token → Token → Prop) (Q : α → β → Prop) (x : Run α) (y : Run β) : Prop :=
  ∀ m m' : Machine, m.Alike R m' → Run.EndsAlike R Q (x m) (y m')

/-- Like callables are called in step. -/
theorem Callable.Alike.inStep {R : Token → Token → Prop} {c c' : Callable} (h : c.Alike R c') :
    c.InStep R (fun _ => True) (fun _ => True) c' := by
  cases h with
  | @function f _ _ hf =>
    exact .function hf (f.literalsAre_of_forall fun _ => trivial) trivial
  | native => exact .native _ _ _

namespace Run.Uniform

variable {R : Token → Token → Prop}

section

variable {Q : α → β → Prop} {S : γ → δ → Prop} {x : Run α} {y : Run β}

/-- Related results are given uniformly. -/
theorem pure {a : α} {b : β} (h : Q a b) : Run.Uniform R Q (Pure.pure a) (Pure.pure b) :=
  fun _ _ hm => .ok h hm

theorem bind {f : α → Run γ} {g : β → Run δ} (h : Run.Uniform R Q x y)
    (hf : ∀ a b, Q a b → Run.Uniform R S (f a) (g b)) :
    Run.Uniform R S (x >>= f) (y >>= g) := by
  intro m m' hm
  have first := h m m' hm
  simp only [Bind.bind, EStateM.bind]
  generalize x m = r at first
  generalize y m' = r' at first
  cases first with
  | ok ha hn => exact hf _ _ ha _ _ hn
  | error he hn => exact .error he hn

/-- What follows does the same once it has seen the machine. -/
theorem get_bind {f : Machine → Run γ} {g : Machine → Run δ}
    (h : ∀ m m', m.Alike R m' → Run.Uniform R S (f m) (g m')) :
    Run.Uniform R S (get >>= f) (get >>= g) :=
  fun m m' hm => h m m' hm m m' hm

/-- A scope is entered and left uniformly. -/
theorem withScope (scope : ScopeId) (h : Run.Uniform R Q x y) :
    Run.Uniform R Q (withScope scope x) (withScope scope y) := by
  intro m m' hm
  have inside := h { m with current := scope } { m' with current := scope }
    ⟨hm.store, rfl, hm.depth, hm.sink, hm.clock, hm.readings⟩
  simp only [Lox.withScope]
  generalize x { m with current := scope } = r at inside
  generalize y { m' with current := scope } = r' at inside
  cases inside with
  | ok ha hn => exact .ok ha ⟨hn.store, hm.current, hn.depth, hn.sink, hn.clock, hn.readings⟩
  | error he hn => exact .error he ⟨hn.store, hm.current, hn.depth, hn.sink, hn.clock, hn.readings⟩

theorem withBlockScope (h : Run.Uniform R Q x y) :
    Run.Uniform R Q (withBlockScope x) (withBlockScope y) := by
  intro m m' hm
  simp only [Lox.withBlockScope, hm.store.nextScope, hm.current]
  exact h.withScope _ _ _
    ⟨hm.store.addScope _, rfl, hm.depth, hm.sink, hm.clock, hm.readings⟩

theorem withCall (h : Run.Uniform R Q x y) : Run.Uniform R Q (withCall x) (withCall y) := by
  intro m m' hm
  have inside := h { m with depth := m.depth + 1 } { m' with depth := m'.depth + 1 }
    ⟨hm.store, hm.current, by simp only [hm.depth], hm.sink, hm.clock, hm.readings⟩
  simp only [Lox.withCall]
  generalize x { m with depth := m.depth + 1 } = r at inside
  generalize y { m' with depth := m'.depth + 1 } = r' at inside
  cases inside with
  | ok ha hn =>
    exact .ok ha ⟨hn.store, hn.current, by simp only [hn.depth], hn.sink, hn.clock, hn.readings⟩
  | error he hn =>
    exact .error he ⟨hn.store, hn.current, by simp only [hn.depth], hn.sink, hn.clock, hn.readings⟩

end

section

variable (hR : Relabels R)
include hR

theorem withCallScope {Q : α → β → Prop} {x : Run α} {y : Run β} {f f' : FunctionDecl}
    (hf : FunctionDecl.Alike R f f') (closure : ScopeId) (arguments : List Value)
    (h : Run.Uniform R Q x y) :
    Run.Uniform R Q (withCallScope f closure arguments x)
      (withCallScope f' closure arguments y) := by
  intro m m' hm
  have hstore := (hm.store.addScope (some closure)).bindParameters hR m.store.nextScope hf.params
    arguments
  simp only [Lox.withCallScope, hm.store.nextScope]
  exact (h.withScope _).withCall _ _
    ⟨hstore, hm.current, hm.depth, hm.sink, hm.clock, hm.readings⟩

omit hR in
/-- Faults are raised uniformly, at related tokens. -/
theorem fault (f : Fault) {t t' : Token} (ht : R t t') {Q : α → β → Prop} :
    Run.Uniform R Q (fault f t) (fault f t') := fun _ _ hm => .error (.error f ht) hm

theorem readVariable {name name' : Token} (hn : R name name') :
    Run.Uniform R Eq (readVariable name) (readVariable name') := by
  intro m m' hm
  simp only [Lox.readVariable, hm.store.lookup, hm.current, hR.lexeme hn]
  cases m.store.lookup m.current name.lexeme with
  | some value => exact .ok rfl hm
  | none => exact .error (.error _ hn) hm

theorem declareVariable {name name' : Token} (hn : R name name') (value : Value) :
    Run.Uniform R Eq (declareVariable name value) (declareVariable name' value) := by
  intro m m' hm
  simp only [Lox.declareVariable, Store.declare?, hm.store.binding?, hm.current, hR.lexeme hn]
  by_cases hb : (m.store.binding? m.current name.lexeme).isSome
  · rw [if_pos hb, if_pos hb]
    exact .error (.error _ hn) hm
  · rw [if_neg hb, if_neg hb]
    exact .ok rfl ⟨hm.store.define _ _ value, rfl, hm.depth, hm.sink, hm.clock, hm.readings⟩

theorem assignVariable {name name' : Token} (hn : R name name') (value : Value) :
    Run.Uniform R Eq (assignVariable name value) (assignVariable name' value) := by
  intro m m' hm
  simp only [Lox.assignVariable, Store.assign?, hm.store.owner?, hm.current, hR.lexeme hn]
  cases m.store.owner? m.current name.lexeme with
  | some owner =>
    exact .ok rfl ⟨hm.store.define owner _ value, rfl, hm.depth, hm.sink, hm.clock, hm.readings⟩
  | none => exact .error (.error _ hn) hm

theorem makeFunction {f f' : FunctionDecl} (hf : FunctionDecl.Alike R f f') :
    Run.Uniform R Eq (makeFunction f) (makeFunction f') := by
  intro m m' hm
  have hcallable : (Callable.function f m.current).Alike R (.function f' m.current) := .function hf
  simp only [Lox.makeFunction, hm.current, hm.store.nextRef hR hcallable]
  exact .ok rfl ⟨hm.store.addCallable hcallable, rfl, hm.depth, hm.sink, hm.clock, hm.readings⟩

omit hR in
/-- What is called is found uniformly, and is in step. -/
theorem callee (value : Value) (count : Nat) {paren paren' : Token} (hp : R paren paren') :
    Run.Uniform R (Callable.InStep R (fun _ => True) (fun _ => True)) (callee value count paren)
      (callee value count paren') := by
  intro m m' hm
  cases value with
  | callable ref =>
    have found := hm.store.callable? ref
    simp only [Lox.callee]
    generalize m.store.callable? ref = c at found
    generalize m'.store.callable? ref = c' at found
    cases found with
    | none => exact .error (.error _ hp) hm
    | some hc =>
      simp only [hc.arity]
      split
      · exact .ok hc.inStep hm
      · exact .error (.error _ hp) hm
  | _ => exact .error (.error _ hp) hm

omit hR in
theorem performAction (action : Action) (arguments : List Value) {paren paren' : Token}
    (hp : R paren paren') :
    Run.Uniform R Eq (performAction action arguments paren)
      (performAction action arguments paren') := by
  intro m m' hm
  cases action with
  | nothing => exact .ok rfl hm
  | clock =>
    simp only [Lox.performAction, hm.clock, hm.readings]
    exact .ok rfl ⟨hm.store, hm.current, hm.depth, hm.sink, rfl, rfl⟩
  | print =>
    simp only [Lox.performAction, hm.sink]
    have same : Machine.Alike R { m with sink := (m.sink.printFirst arguments).2 }
        { m' with sink := (m.sink.printFirst arguments).2 } :=
      ⟨hm.store, hm.current, hm.depth, rfl, hm.clock, hm.readings⟩
    cases (m.sink.printFirst arguments).1 with
    | ok => exact .ok rfl same
    | error message => exact .error (.error _ hp) same

end

end Run.Uniform

/-- Results of an operator: the same value, or the same fault at tokens that correspond. -/
inductive Operator.Agrees (R : Token → Token → Prop) :
    Except RuntimeError Value → Except RuntimeError Value → Prop where
  | ok (value : Value) : Operator.Agrees R (.ok value) (.ok value)
  | error (f : Fault) : R t t' →
      Operator.Agrees R (.error (f.atToken t)) (.error (f.atToken t'))

namespace Operator

variable {R : Token → Token → Prop} {operator operator' : Token}

/-- Related operators add alike. -/
theorem agrees_add (h : R operator operator') (a b : Value) :
    Agrees R (add operator a b) (add operator' a b) := by
  unfold add
  split
  · exact .ok _
  · exact .ok _
  · exact .ok _
  · exact .error _ h

theorem agrees_arithmetic (hR : Relabels R) (h : R operator operator') (x y : Float) :
    Agrees R (arithmetic operator x y) (arithmetic operator' x y) := by
  simp only [arithmetic, hR.kind h, hR.lexeme h]
  split
  case h_4 =>
    by_cases hy : (y == 0.0) = true
    · rw [if_pos hy, if_pos hy]
      exact .error _ h
    · rw [if_neg hy, if_neg hy]
      exact .ok _
  case h_9 => exact .error _ h
  all_goals exact .ok _

/-- Related binary operators give the same value or like errors. -/
theorem agrees_binary (hR : Relabels R) (h : R operator operator') (a b : Value) :
    Agrees R (binary operator a b) (binary operator' a b) := by
  simp only [binary, hR.kind h]
  split
  · exact agrees_add h a b
  · exact .ok _
  · exact .ok _
  · split
    · exact agrees_arithmetic hR h _ _
    · exact .error _ h

theorem agrees_unary (hR : Relabels R) (h : R operator operator') (a : Value) :
    Agrees R (unary operator a) (unary operator' a) := by
  simp only [unary, hR.kind h]
  split
  · exact .ok _
  · split
    · exact .ok _
    · exact .error _ h

end Operator

/-- Results that agree are given uniformly. -/
theorem Run.Uniform.ofExcept {R : Token → Token → Prop} {x y : Except RuntimeError Value}
    (h : Operator.Agrees R x y) : Run.Uniform R Eq (Run.ofExcept x) (Run.ofExcept y) := by
  intro m m' hm
  cases h with
  | ok value => exact .ok rfl hm
  | error f ht => exact .error (.error f ht) hm

/-- The steps of alike trees are uniform, so their runs are. -/
theorem Run.Uniform.lockstep {R : Token → Token → Prop} (hR : Relabels R) :
    Lockstep R Eq (fun _ => True) (fun _ => True) (fun Q x y => Run.Uniform R Q x y) where
  nil := rfl
  literal _ := rfl
  isTruthy h := congrArg Value.isTruthy h.symm
  kind := hR.kind
  pure h := .pure h
  bind h hf := h.bind hf
  outOfFuel _ _ hm := .error .outOfFuel hm
  binary ht ha hb := by
    subst ha hb
    exact .ofExcept (Operator.agrees_binary hR ht _ _)
  unary ht ha := by
    subst ha
    exact .ofExcept (Operator.agrees_unary hR ht _)
  readVariable := Run.Uniform.readVariable hR
  declareVariable ht hv := by
    subst hv
    exact Run.Uniform.declareVariable hR ht _
  assignVariable ht hv := by
    subst hv
    exact Run.Uniform.assignVariable hR ht _
  makeFunction hf _ := Run.Uniform.makeFunction hR hf
  callee count hv hp := by
    subst hv
    exact Run.Uniform.callee _ count hp
  performAction action has hp := by
    rw [List.forall₂_eq_eq_eq] at has
    subst has
    exact Run.Uniform.performAction action _ hp
  withBlockScope h := Run.Uniform.withBlockScope h
  enter {f f' closure as as' p p' x y} hf _ has hp h := by
    rw [List.forall₂_eq_eq_eq] at has
    subst has
    have inside := Run.Uniform.withCallScope hR hf closure as h
    refine Run.Uniform.get_bind fun m m' hm => ?_
    rw [hm.depth]
    by_cases hdepth : maxDepth ≤ m.depth
    · rw [if_pos hdepth, if_pos hdepth]
      exact Run.Uniform.fault _ hp
    · rw [if_neg hdepth, if_neg hdepth]
      exact inside.bind fun _ _ hflow => .pure (hflow.result rfl)

/-- Alike programs run alike. -/
theorem uniform_interpret {R : Token → Token → Prop} (hR : Relabels R) (fuel : Nat)
    {ss ss' : List Stmt} (h : Stmt.AllAlike R ss ss') :
    Run.Uniform R Eq (interpret fuel ss) (interpret fuel ss') :=
  (Run.Uniform.lockstep hR).interpret fuel h (Stmt.allLiteralsAre_of_forall (fun _ => trivial) ss)

end Lox
