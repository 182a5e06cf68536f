import Lox.Machine.Evaluation
import Lox.Proofs.Tree.Likeness
import Lox.Proofs.Tree.Literals

/-!
# Two runs in step

Two runs of alike trees take the same steps as long as values that correspond are decided
on in the same way. A relation of runs that the steps are in and that sequencing keeps is
a relation of the runs of all alike trees, with any fuel.
-/

namespace Lox

/-- The same way to end, up to the value that is returned. -/
inductive Flow.Rel (V : Value → Value → Prop) : Flow → Flow → Prop where
  | normal : Flow.Rel V .normal .normal
  | break : Flow.Rel V .break .break
  | continue : Flow.Rel V .continue .continue
  | return : V v v' → Flow.Rel V (.return v) (.return v')

/-- Related flows have related results. -/
theorem Flow.Rel.result {V : Value → Value → Prop} (hnil : V .nil .nil) {flow flow' : Flow}
    (h : flow.Rel V flow') : V flow.result flow'.result := by
  cases h with
  | «return» hv => exact hv
  | _ => exact hnil

/-- Flows are related for a wider relation of values. -/
theorem Flow.Rel.mono {V W : Value → Value → Prop} (hV : ∀ v v', V v v' → W v v')
    {flow flow' : Flow} (h : flow.Rel V flow') : flow.Rel W flow' := by
  cases h with
  | normal => exact .normal
  | «break» => exact .break
  | «continue» => exact .continue
  | «return» hv => exact .return (hV _ _ hv)

/-- The same native function, or alike functions with the same closure; that the closure is in a set
of scopes, and that the literals of the function have a property. -/
inductive Callable.InStep (R : Token → Token → Prop) (L : Value → Prop) (I : ScopeId → Prop) :
    Callable → Callable → Prop where
  | function {closure : ScopeId} : FunctionDecl.Alike R f f' → f.LiteralsAre L → I closure →
      Callable.InStep R L I (.function f closure) (.function f' closure)
  | native (name : String) (arity : Nat) (action : Action) :
      Callable.InStep R L I (.native name arity action) (.native name arity action)

/-- What has to be shown of a relation of runs, up to a relation of their results, for the runs of
alike trees to be in it: `R` relates tokens, `V` values, `L` holds of literals, `I` of closures. -/
structure Lockstep (R : Token → Token → Prop) (V : Value → Value → Prop) (L : Value → Prop)
    (I : ScopeId → Prop) (K : ∀ {α β : Type}, (α → β → Prop) → Run α → Run β → Prop) : Prop where
  nil : V .nil .nil
  literal : ∀ {v}, L v → V v v
  isTruthy : ∀ {v v'}, V v v' → v'.isTruthy = v.isTruthy
  kind : ∀ {t t'}, R t t' → t'.kind = t.kind
  pure : ∀ {α β : Type} {Q : α → β → Prop} {a b}, Q a b → K Q (Pure.pure a) (Pure.pure b)
  bind : ∀ {α β γ δ : Type} {Q : α → β → Prop} {S : γ → δ → Prop} {x : Run α} {y : Run β}
    {f : α → Run γ} {g : β → Run δ}, K Q x y → (∀ a b, Q a b → K S (f a) (g b)) →
    K S (x >>= f) (y >>= g)
  outOfFuel : ∀ {α β : Type} {Q : α → β → Prop}, K Q (throw .outOfFuel) (throw .outOfFuel)
  binary : ∀ {t t' a a' b b'}, R t t' → V a a' → V b b' →
    K V (Run.ofExcept (Operator.binary t a b)) (Run.ofExcept (Operator.binary t' a' b'))
  unary : ∀ {t t' a a'}, R t t' → V a a' →
    K V (Run.ofExcept (Operator.unary t a)) (Run.ofExcept (Operator.unary t' a'))
  readVariable : ∀ {t t'}, R t t' → K V (readVariable t) (readVariable t')
  declareVariable : ∀ {t t' v v'}, R t t' → V v v' →
    K Eq (declareVariable t v) (declareVariable t' v')
  assignVariable : ∀ {t t' v v'}, R t t' → V v v' →
    K Eq (assignVariable t v) (assignVariable t' v')
  makeFunction : ∀ {f f'}, FunctionDecl.Alike R f f' → f.LiteralsAre L →
    K V (makeFunction f) (makeFunction f')
  callee : ∀ {v v' p p'} (count : Nat), V v v' → R p p' →
    K (Callable.InStep R L I) (callee v count p) (callee v' count p')
  performAction : ∀ {as as' p p'} (action : Action), List.Forall₂ V as as' → R p p' →
    K V (performAction action as p) (performAction action as' p')
  withBlockScope : ∀ {x y : Run Flow}, K (Flow.Rel V) x y →
    K (Flow.Rel V) (withBlockScope x) (withBlockScope y)
  /-- The depth is looked at before the scope of a call is made. -/
  enter : ∀ {f f' closure as as' p p'} {x y : Run Flow}, FunctionDecl.Alike R f f' → I closure →
    List.Forall₂ V as as' → R p p' → K (Flow.Rel V) x y →
    K V (do
        if maxDepth ≤ (← get).depth then fault .stackOverflow p
        else
          let flow ← withCallScope f closure as x
          return flow.result : Run Value)
      (do
        if maxDepth ≤ (← get).depth then fault .stackOverflow p'
        else
          let flow ← withCallScope f' closure as' y
          return flow.result : Run Value)

/-- With so much fuel, the runs of alike trees are in a relation. -/
structure InStepWithin (R : Token → Token → Prop) (V : Value → Value → Prop) (L : Value → Prop)
    (I : ScopeId → Prop) (K : ∀ {α β : Type}, (α → β → Prop) → Run α → Run β → Prop) (fuel : Nat) :
    Prop where
  execute : ∀ {s s'}, Stmt.Alike R s s' → s.LiteralsAre L →
    K (Flow.Rel V) (execute fuel s) (execute fuel s')
  executeAll : ∀ {ss ss'}, Stmt.AllAlike R ss ss' → Stmt.AllLiteralsAre L ss →
    K (Flow.Rel V) (executeAll fuel ss) (executeAll fuel ss')
  repeatWhile : ∀ {c c' b b'}, Expr.Alike R c c' → c.LiteralsAre L → Stmt.Alike R b b' →
    b.LiteralsAre L → K (Flow.Rel V) (repeatWhile fuel c b) (repeatWhile fuel c' b')
  evaluate : ∀ {e e'}, Expr.Alike R e e' → e.LiteralsAre L →
    K V (evaluate fuel e) (evaluate fuel e')
  evaluateAll : ∀ {es es'}, List.Forall₂ (Expr.Alike R) es es' → Expr.AllLiteralsAre L es →
    K (List.Forall₂ V) (evaluateAll fuel es) (evaluateAll fuel es')
  call : ∀ {c c' : Callable} {as as' p p'}, c.InStep R L I c' → List.Forall₂ V as as' → R p p' →
    K V (call fuel c as p) (call fuel c' as' p')

namespace Lockstep

variable {R : Token → Token → Prop} {V : Value → Value → Prop} {L : Value → Prop}
  {I : ScopeId → Prop} {K : ∀ {α β : Type}, (α → β → Prop) → Run α → Run β → Prop}
  (k : Lockstep R V L I K) {fuel : Nat}
include k

/-- Where one value decides which branch is taken, so does the other. -/
private theorem branch {α β : Type} {Q : α → β → Prop} {v v' : Value} (hv : V v v')
    {x x' : Run α} {y y' : Run β} (hx : K Q x y) (hx' : K Q x' y') :
    K Q (if v.isTruthy then x else x') (if v'.isTruthy then y else y') := by
  rw [k.isTruthy hv]
  by_cases htruthy : v.isTruthy
  · rw [if_pos htruthy, if_pos htruthy]
    exact hx
  · rw [if_neg htruthy, if_neg htruthy]
    exact hx'

/-- Related operators decide alike on related values. -/
private theorem decides {t t' : Token} {v v' : Value} (ht : R t t') (hv : V v v') :
    Operator.decides t' v' = Operator.decides t v := by
  simp only [Operator.decides, k.kind ht, k.isTruthy hv]

/-- Functions that are alike are declared in step. -/
private theorem declareFunction {f f' : FunctionDecl} (hf : FunctionDecl.Alike R f f')
    (hl : f.LiteralsAre L) : K Eq (declareFunction f) (declareFunction f') := by
  have made := k.makeFunction hf hl
  cases hf with
  | mk hname _ _ =>
    cases hname with
    | none => exact k.pure rfl
    | some hname => exact k.bind made fun _ _ hv => k.declareVariable hname hv

/-- Statements that are alike are executed in step, with one unit of fuel more. -/
private theorem execute_succ (ih : InStepWithin R V L I K fuel) {s s' : Stmt}
    (h : Stmt.Alike R s s') (hl : s.LiteralsAre L) :
    K (Flow.Rel V) (execute (fuel + 1) s) (execute (fuel + 1) s') := by
  cases h with
  | block hbody => exact k.withBlockScope (ih.executeAll hbody hl)
  | expression hvalue => exact k.bind (ih.evaluate hvalue hl) fun _ _ _ => k.pure .normal
  | var hname hvalue =>
    cases hvalue with
    | none => exact k.bind (k.declareVariable hname k.nil) fun _ _ _ => k.pure .normal
    | some hvalue =>
      exact k.bind (ih.evaluate hvalue hl) fun _ _ hv =>
        k.bind (k.declareVariable hname hv) fun _ _ _ => k.pure .normal
  | ifElse hcondition hthen helse =>
    cases helse with
    | none =>
      exact k.bind (ih.evaluate hcondition hl.1) fun _ _ hv =>
        k.branch hv (ih.execute hthen hl.2) (k.pure .normal)
    | some helse =>
      exact k.bind (ih.evaluate hcondition hl.1) fun _ _ hv =>
        k.branch hv (ih.execute hthen hl.2.1) (ih.execute helse hl.2.2)
  | «while» hcondition hbody => exact ih.repeatWhile hcondition hl.1 hbody hl.2
  | function hf => exact k.bind (k.declareFunction hf hl) fun _ _ _ => k.pure .normal
  | «return» hvalue =>
    cases hvalue with
    | none => exact k.pure (.return k.nil)
    | some hvalue => exact k.bind (ih.evaluate hvalue hl) fun _ _ hv => k.pure (.return hv)
  | «break» => exact k.pure .break
  | «continue» => exact k.pure .continue
  | empty => exact k.pure .normal

private theorem executeAll_succ (ih : InStepWithin R V L I K fuel) {ss ss' : List Stmt}
    (h : Stmt.AllAlike R ss ss') (hl : Stmt.AllLiteralsAre L ss) :
    K (Flow.Rel V) (executeAll (fuel + 1) ss) (executeAll (fuel + 1) ss') := by
  cases h with
  | nil => exact k.pure .normal
  | cons hs hrest =>
    refine k.bind (ih.execute hs hl.1) fun flow flow' hflow => ?_
    cases hflow with
    | normal => exact ih.executeAll hrest hl.2
    | «break» => exact k.pure .break
    | «continue» => exact k.pure .continue
    | «return» hv => exact k.pure (.return hv)

private theorem repeatWhile_succ (ih : InStepWithin R V L I K fuel) {c c' : Expr} {b b' : Stmt}
    (hc : Expr.Alike R c c') (hlc : c.LiteralsAre L) (hb : Stmt.Alike R b b')
    (hlb : b.LiteralsAre L) :
    K (Flow.Rel V) (repeatWhile (fuel + 1) c b) (repeatWhile (fuel + 1) c' b') := by
  refine k.bind (ih.evaluate hc hlc) fun _ _ hv => k.branch hv ?_ (k.pure .normal)
  refine k.bind (ih.execute hb hlb) fun flow flow' hflow => ?_
  cases hflow with
  | normal | «continue» => exact ih.repeatWhile hc hlc hb hlb
  | «break» => exact k.pure .normal
  | «return» hv => exact k.pure (.return hv)

/-- Expressions that are alike are evaluated in step, with one unit of fuel more. -/
private theorem evaluate_succ (ih : InStepWithin R V L I K fuel) {e e' : Expr}
    (h : Expr.Alike R e e') (hl : e.LiteralsAre L) :
    K V (evaluate (fuel + 1) e) (evaluate (fuel + 1) e') := by
  cases h with
  | assign hname hvalue =>
    exact k.bind (ih.evaluate hvalue hl) fun _ _ hv =>
      k.bind (k.assignVariable hname hv) fun _ _ _ => k.pure hv
  | binary hleft hoperator hright =>
    exact k.bind (ih.evaluate hleft hl.1) fun _ _ ha =>
      k.bind (ih.evaluate hright hl.2) fun _ _ hb => k.binary hoperator ha hb
  | logical hleft hoperator hright =>
    refine k.bind (ih.evaluate hleft hl.1) fun left left' hv => ?_
    simp only [k.decides hoperator hv]
    split
    · exact k.pure hv
    · exact ih.evaluate hright hl.2
  | grouping hinner => exact ih.evaluate hinner hl
  | literal => exact k.pure (k.literal hl)
  | unary hoperator hoperand =>
    exact k.bind (ih.evaluate hoperand hl) fun _ _ hv => k.unary hoperator hv
  | «variable» hname => exact k.readVariable hname
  | call hfunction hparen harguments =>
    refine k.bind (ih.evaluate hfunction hl.1) fun _ _ hv => ?_
    refine k.bind (ih.evaluateAll harguments hl.2) fun as as' has => ?_
    rw [← has.length_eq]
    exact k.bind (k.callee _ hv hparen) fun _ _ hc => ih.call hc has hparen
  | lambda hf => exact k.makeFunction hf hl

private theorem evaluateAll_succ (ih : InStepWithin R V L I K fuel) {es es' : List Expr}
    (h : List.Forall₂ (Expr.Alike R) es es') (hl : Expr.AllLiteralsAre L es) :
    K (List.Forall₂ V) (evaluateAll (fuel + 1) es) (evaluateAll (fuel + 1) es') := by
  cases h with
  | nil => exact k.pure .nil
  | cons he hrest =>
    exact k.bind (ih.evaluate he hl.1) fun _ _ hv =>
      k.bind (ih.evaluateAll hrest hl.2) fun _ _ hvs => k.pure (.cons hv hvs)

/-- Callables in step are called in step. -/
private theorem call_succ (ih : InStepWithin R V L I K fuel) {c c' : Callable}
    {as as' : List Value} {p p' : Token} (hc : c.InStep R L I c') (has : List.Forall₂ V as as')
    (hp : R p p') : K V (call (fuel + 1) c as p) (call (fuel + 1) c' as' p') := by
  cases hc with
  | native name arity action => exact k.performAction action has hp
  | function hf hl hclosure =>
    exact k.enter hf hclosure has hp (ih.executeAll hf.body hl.body)

/-- Alike trees whose literals have the property run in step, with any fuel. -/
theorem within (fuel : Nat) : InStepWithin R V L I K fuel := by
  induction fuel with
  | zero => constructor <;> intros <;> exact k.outOfFuel
  | succ fuel ih =>
    exact ⟨k.execute_succ ih, k.executeAll_succ ih, k.repeatWhile_succ ih, k.evaluate_succ ih,
      k.evaluateAll_succ ih, k.call_succ ih⟩

/-- So do alike programs. -/
theorem interpret (fuel : Nat) {ss ss' : List Stmt} (h : Stmt.AllAlike R ss ss')
    (hl : Stmt.AllLiteralsAre L ss) : K Eq (interpret fuel ss) (interpret fuel ss') := by
  induction h with
  | nil => exact k.pure rfl
  | cons hs _ ih => exact k.bind ((k.within fuel).execute hs hl.1) fun _ _ _ => ih hl.2

end Lockstep

end Lox
