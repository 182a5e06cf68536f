import Lox.Proofs.Grammar.Acceptance
import Lox.Proofs.Tree.Likeness

/-!
# Parsing alike tokens

The parser looks at the kinds of tokens, and puts the tokens into the tree. So alike
tokens are parsed alike: into alike trees, with alike errors, and by the same steps. A
second parser may be allowed to nest deeper than the first; it ends in the same way
wherever the first does not give up for that.
-/

namespace Lox.Grammar

/-- A relation of tokens that differ in nothing but their lines, and one of errors that is between
errors at such tokens. -/
structure Relates (R : Token → Token → Prop) (E : SyntaxError → SyntaxError → Prop) : Prop extends
    Relabels R where
  error : ∀ {t t'}, R t t' → ∀ message, E (.atToken t message) (.atToken t' message)

/-- Errors at related tokens are alike. -/
theorem Relates.of_relabels {R : Token → Token → Prop} (hR : Relabels R) :
    Relates R SyntaxError.Alike :=
  ⟨hR, fun h message => SyntaxError.alike_atToken hR h message⟩

/-- Equal tokens are related, and their errors equal. -/
theorem relates_eq : Relates Eq Eq :=
  ⟨⟨congrArg _ ∘ Eq.symm, congrArg _ ∘ Eq.symm, congrArg _ ∘ Eq.symm⟩, fun h _ => by rw [h]⟩

/-- Two places in alike tokens, come to with alike errors. -/
structure State.Alike (R : Token → Token → Prop) (E : SyntaxError → SyntaxError → Prop)
    (s s' : State) : Prop where
  rest : List.Forall₂ R s.rest s'.rest
  eof : R s.eof s'.eof
  errors : List.Forall₂ E s.errors.toList s'.errors.toList
  loops : s'.loops = s.loops
  functions : s'.functions = s.functions

/-- A second parser ends as a first one does: both with results that stand in a relation, or both
with alike errors. If the first gives up for the bound on nesting, the second may end in any way. -/
inductive EndsAlike (R : Token → Token → Prop) (E : SyntaxError → SyntaxError → Prop)
    (Q : α → β → Prop) :
    EStateM.Result Failure State α → EStateM.Result Failure State β → Prop where
  | ok : Q a b → s.Alike R E s' → EndsAlike R E Q (.ok a s) (.ok b s')
  | unexpected : E error error' → s.Alike R E s' →
      EndsAlike R E Q (.error (.unexpected error) s) (.error (.unexpected error') s')
  | tooDeep : EndsAlike R E Q (.error .tooDeep s) result

/-- From alike places, a second parser ends as a first one does. -/
def Uniform (R : Token → Token → Prop) (E : SyntaxError → SyntaxError → Prop) (Q : α → β → Prop)
    (p : Parser α) (q : Parser β) : Prop :=
  ∀ s s' : State, s.Alike R E s' → EndsAlike R E Q (p s) (q s')

namespace State.Alike

variable {R : Token → Token → Prop} {E : SyntaxError → SyntaxError → Prop} {s s' : State}

/-- The tokens under the cursor are related. -/
theorem peek (h : s.Alike R E s') : R s.peek s'.peek := by
  have hrest := h.rest
  unfold State.peek
  generalize s.rest = ts at hrest
  generalize s'.rest = ts' at hrest
  cases hrest with
  | nil => exact h.eof
  | cons ht _ => exact ht

theorem isAt (hR : Relates R E) (h : s.Alike R E s') (kind : TokenKind) :
    s'.isAt kind = s.isAt kind := by
  have hrest := h.rest
  unfold State.isAt
  generalize s.rest = ts at hrest
  generalize s'.rest = ts' at hrest
  cases hrest with
  | nil => rfl
  | cons ht _ => simp only [List.head?_cons, Option.any_some, hR.kind ht]

/-- One state is at its end if the other is. -/
theorem isEmpty (h : s.Alike R E s') : s'.rest.isEmpty = s.rest.isEmpty := by
  have hrest := h.rest
  generalize s.rest = ts at hrest
  generalize s'.rest = ts' at hrest
  cases hrest <;> rfl

/-- States stay alike when like errors are reported. -/
theorem report (h : s.Alike R E s') {error error' : SyntaxError} (he : E error error') :
    State.Alike R E { s with errors := s.errors.push error }
      { s' with errors := s'.errors.push error' } := by
  refine ⟨h.rest, h.eof, ?_, h.loops, h.functions⟩
  simpa only [Array.toList_push] using List.rel_append h.errors (.cons he .nil)

end State.Alike

namespace Uniform

variable {R : Token → Token → Prop} {E : SyntaxError → SyntaxError → Prop}

section

variable {Q : α → β → Prop} {S : γ → δ → Prop} {p : Parser α} {q : Parser β}

/-- Related results are given uniformly. -/
theorem pure {a : α} {b : β} (h : Q a b) : Uniform R E Q (Pure.pure a) (Pure.pure b) :=
  fun _ _ hs => .ok h hs

theorem bind {f : α → Parser γ} {g : β → Parser δ} (h : Uniform R E Q p q)
    (hf : ∀ a b, Q a b → Uniform R E S (f a) (g b)) : Uniform R E S (p >>= f) (q >>= g) := by
  intro s s' hs
  have first := h s s' hs
  simp only [Bind.bind, EStateM.bind]
  generalize p s = r at first
  generalize q s' = r' at first
  cases first with
  | ok ha ht => exact hf _ _ ha _ _ ht
  | unexpected he ht => exact .unexpected he ht
  | tooDeep => exact .tooDeep

/-- Results may be changed into related ones. -/
theorem map {f : α → γ} {g : β → δ} (h : Uniform R E Q p q) (hf : ∀ a b, Q a b → S (f a) (g b)) :
    Uniform R E S (f <$> p) (g <$> q) := by
  rw [map_eq_pure_bind, map_eq_pure_bind]
  exact h.bind fun a b hab => pure (hf a b hab)

/-- A parser between changes of the state that keep places alike. -/
theorem bracket {enter : State → State} {leave : State → State → State}
    (henter : ∀ s s', s.Alike R E s' → (enter s).Alike R E (enter s'))
    (hleave : ∀ s s' t t', s.Alike R E s' → t.Alike R E t' → (leave s t).Alike R E (leave s' t'))
    (h : Uniform R E Q p q) : Uniform R E Q (bracket enter leave p) (bracket enter leave q) := by
  intro s s' hs
  have inside := h _ _ (henter s s' hs)
  simp only [Grammar.bracket]
  generalize p (enter s) = r at inside
  generalize q (enter s') = r' at inside
  cases inside with
  | ok ha ht => exact .ok ha (hleave _ _ _ _ hs ht)
  | unexpected he ht => exact .unexpected he (hleave _ _ _ _ hs ht)
  | tooDeep => exact .tooDeep

/-- A loop around both parsers makes no difference between them. -/
theorem withinLoop (h : Uniform R E Q p q) : Uniform R E Q (withinLoop p) (withinLoop q) :=
  h.bracket (fun _ _ hs => ⟨hs.rest, hs.eof, hs.errors, by simp only [hs.loops], hs.functions⟩)
    fun _ _ _ _ _ ht => ⟨ht.rest, ht.eof, ht.errors, by simp only [ht.loops], ht.functions⟩

/-- A function around both makes none. -/
theorem withinFunction (h : Uniform R E Q p q) :
    Uniform R E Q (withinFunction p) (withinFunction q) :=
  h.bracket (fun _ _ hs => ⟨hs.rest, hs.eof, hs.errors, rfl, by simp only [hs.functions]⟩)
    fun _ _ _ _ hs ht => ⟨ht.rest, ht.eof, ht.errors, hs.loops, by simp only [ht.functions]⟩

/-- Repetitions, the second one with no less of a bound. -/
theorem repeatStep {step : α → Parser (α ⊕ γ)} {step' : β → Parser (β ⊕ δ)}
    (hstep : ∀ a b, Q a b → Uniform R E (Sum.LiftRel Q S) (step a) (step' b))
    {bound bound' : List Token} (hbound : bound.length ≤ bound'.length) {a : α} {b : β}
    (hab : Q a b) :
    Uniform R E S (repeatStep step bound a) (repeatStep step' bound' b) := by
  induction bound generalizing bound' a b with
  | nil =>
    unfold Grammar.repeatStep
    refine (hstep a b hab).bind fun r r' hr => ?_
    cases hr with
    | inl h => exact fun s s' hs => .tooDeep
    | inr h => exact pure h
  | cons token bound ih =>
    cases bound' with
    | nil => exact absurd hbound (Nat.not_succ_le_zero _)
    | cons token' bound' =>
      rw [Grammar.repeatStep, Grammar.repeatStep]
      refine (hstep a b hab).bind fun r r' hr => ?_
      cases hr with
      | inl h => exact ih (Nat.le_of_succ_le_succ hbound) h
      | inr h => exact pure h

/-- Repeated steps are uniform if a step is, from related beginnings. -/
theorem iterate {step : α → Parser (α ⊕ γ)} {step' : β → Parser (β ⊕ δ)}
    (hstep : ∀ a b, Q a b → Uniform R E (Sum.LiftRel Q S) (step a) (step' b)) {a : α} {b : β}
    (hab : Q a b) : Uniform R E S (iterate a step) (iterate b step') :=
  fun s s' hs => repeatStep hstep (Nat.le_of_eq hs.rest.length_eq) hab s s' hs

end

section

variable (hR : Relates R E) {Q : α → β → Prop}
include hR

theorem acceptAny? (kinds : List TokenKind) :
    Uniform R E (Option.Rel R) (acceptAny? kinds) (acceptAny? kinds) := by
  intro s s' hs
  unfold Grammar.acceptAny?
  have hrest := hs.rest
  generalize s.rest = ts at hrest
  generalize s'.rest = ts' at hrest
  cases hrest with
  | nil => exact .ok .none hs
  | cons ht hts =>
    simp only [hR.kind ht]
    split
    · exact .ok (.some ht) ⟨hts, hs.eof, hs.errors, hs.loops, hs.functions⟩
    · exact .ok .none hs

theorem accept? (kind : TokenKind) :
    Uniform R E (Option.Rel R) (accept? kind) (accept? kind) := acceptAny? hR [kind]

theorem failHere (message : String) :
    Uniform R E Q (failHere message) (failHere message) := fun _ _ hs =>
  .unexpected (hR.error hs.peek message) hs

theorem expect (kind : TokenKind) (message : String) :
    Uniform R E R (expect kind message) (expect kind message) := by
  refine (accept? hR kind).bind fun a b hab => ?_
  cases hab with
  | none => exact failHere hR message
  | some h => exact pure h

/-- Errors at related tokens are reported uniformly. -/
theorem report {token token' : Token} (h : R token token') (message : String) :
    Uniform R E (fun _ _ => True) (report token message) (report token' message) := fun _ _ hs =>
  .ok trivial (hs.report (hR.error h message))

theorem reportIf {wrong : State → Bool} (hw : ∀ s s', s.Alike R E s' → wrong s' = wrong s)
    {token token' : Token} (h : R token token') (message : String) :
    Uniform R E (fun _ _ => True) (reportIf wrong token message)
      (reportIf wrong token' message) := by
  intro s s' hs
  unfold Grammar.reportIf
  rw [hw s s' hs]
  cases wrong s with
  | true => exact report hR h message s s' hs
  | false => exact .ok trivial hs

theorem reportExcess (limit count : Nat) (message : String) :
    Uniform R E (fun _ _ => True) (reportExcess limit count message)
      (reportExcess limit count message) := by
  intro s s' hs
  unfold Grammar.reportExcess
  by_cases h : limit ≤ count
  · rw [if_pos h, if_pos h]
    exact report hR hs.peek message s s' hs
  · rw [if_neg h, if_neg h]
    exact .ok trivial hs

/-- A choice by the token ahead is the same choice in both. -/
theorem unlessAt (kind : TokenKind) {a : α} {b : β} (hab : Q a b) {p : Parser α} {q : Parser β}
    (h : Uniform R E Q p q) : Uniform R E Q (unlessAt kind a p) (unlessAt kind b q) := by
  intro s s' hs
  simp only [Grammar.unlessAt, Bind.bind, EStateM.bind, Grammar.isAt, hs.isAt hR kind]
  split
  · exact .ok hab hs
  · exact h s s' hs

/-- Items that are alike, one by one. -/
theorem commaSeparated (limit : Nat) (message : String) {item : Parser α} {item' : Parser β}
    (h : Uniform R E Q item item') :
    Uniform R E (List.Forall₂ Q) (commaSeparated limit message item)
      (commaSeparated limit message item') := by
  let Q' : Array α → Array β → Prop := fun items items' =>
    List.Forall₂ Q items.toList items'.toList
  have step (items : Array α) (items' : Array β) (hitems : Q' items items') :
      Uniform R E (Sum.LiftRel Q' Q') (separatedStep limit message item items)
        (separatedStep limit message item' items') := by
    have hsize : items'.size = items.size := by
      rw [← Array.length_toList, ← Array.length_toList, hitems.length_eq]
    unfold separatedStep
    rw [hsize]
    refine (reportExcess hR limit items.size message).bind fun _ _ _ => h.bind fun a b hab => ?_
    have hpush : Q' (items.push a) (items'.push b) := by
      simpa only [Q', Array.toList_push] using List.rel_append hitems (.cons hab .nil)
    refine (accept? hR .comma).bind fun c c' hc => ?_
    cases hc with
    | none => exact pure (.inr hpush)
    | some _ => exact pure (.inl hpush)
  exact (iterate step .nil).bind fun items items' hitems => pure hitems

end

end Uniform

/-- Nested parsers that parse alike tokens alike. -/
structure Inner.IsUniform (R : Token → Token → Prop) (E : SyntaxError → SyntaxError → Prop)
    (inner inner' : Inner) : Prop where
  expression : Uniform R E (Expr.Alike R) inner.expression inner'.expression
  statement : Uniform R E (Stmt.Alike R) inner.statement inner'.statement
  block : Uniform R E (Stmt.AllAlike R) inner.block inner'.block

section

variable {R : Token → Token → Prop} {E : SyntaxError → SyntaxError → Prop} (hR : Relates R E)
include hR

/-- The parameters are related one by one. -/
theorem uniform_parameters : Uniform R E (List.Forall₂ R) parameters parameters := by
  refine (Uniform.expect hR _ _).bind fun _ _ _ => ?_
  refine (Uniform.unlessAt hR _ .nil (.commaSeparated hR _ _ (.expect hR _ _))).bind ?_
  intro params params' hparams
  exact (Uniform.expect hR _ _).bind fun _ _ _ => .pure hparams

/-- Related tokens denote the same value. -/
theorem constantValue_eq {token token' : Token} (ht : R token token') :
    constantValue token' = constantValue token := by
  simp only [constantValue, literalValue, hR.kind ht, hR.literal ht]

/-- Operations of a level that groups to the left. -/
theorem uniform_leftAssociative {make : Expr → Token → Expr → Expr} {operators : List TokenKind}
    (hmake : ∀ {left left' operator operator' right right'}, Expr.Alike R left left' →
      R operator operator' → Expr.Alike R right right' →
      Expr.Alike R (make left operator right) (make left' operator' right'))
    {operand operand' : Parser Expr} (ho : Uniform R E (Expr.Alike R) operand operand') :
    Uniform R E (Expr.Alike R) (leftAssociative make operators operand)
      (leftAssociative make operators operand') := by
  refine ho.bind fun e e' he => .iterate ?_ he
  intro left left' hleft
  refine (Uniform.acceptAny? hR _).bind fun token token' htoken => ?_
  cases htoken with
  | none => exact .pure (.inr hleft)
  | some ht => exact ho.bind fun _ _ hright => .pure (.inl (hmake hleft ht hright))

variable {inner inner' : Inner} (h : inner.IsUniform R E inner')
include h

theorem uniform_function {name name' : Option Token} (hname : Option.Rel R name name') :
    Uniform R E (FunctionDecl.Alike R) (function inner name) (function inner' name') := by
  refine (uniform_parameters hR).bind fun params params' hparams => ?_
  have body : Uniform R E (Stmt.AllAlike R) (functionBody inner) (functionBody inner') :=
    (Uniform.expect hR _ _).bind fun _ _ _ => h.block.withinFunction
  exact body.bind fun body body' hbody => .pure (.mk hname hparams hbody)

theorem uniform_primary : Uniform R E (Expr.Alike R) (primary inner) (primary inner') := by
  refine (Uniform.acceptAny? hR _).bind fun token token' htoken => ?_
  cases htoken with
  | none => exact .failHere hR _
  | some ht =>
    simp only [hR.kind ht]
    split
    · exact .pure (.variable ht)
    · exact (uniform_function hR h .none).bind fun _ _ hf => .pure (.lambda hf)
    · refine h.expression.bind fun e e' he => ?_
      exact (Uniform.expect hR _ _).bind fun _ _ _ => .pure (.grouping he)
    · rw [constantValue_eq hR ht]
      exact .pure .literal

theorem uniform_finishCall {callee callee' : Expr} (hcallee : Expr.Alike R callee callee') :
    Uniform R E (Expr.Alike R) (finishCall inner callee) (finishCall inner' callee') := by
  refine (Uniform.unlessAt hR _ .nil (.commaSeparated hR _ _ h.expression)).bind ?_
  intro arguments arguments' harguments
  exact (Uniform.expect hR _ _).bind fun _ _ hparen => .pure (.call hcallee hparen harguments)

theorem uniform_call : Uniform R E (Expr.Alike R) (call inner) (call inner') := by
  refine (uniform_primary hR h).bind fun e e' he => .iterate ?_ he
  intro callee callee' hcallee
  refine (Uniform.accept? hR _).bind fun token token' htoken => ?_
  cases htoken with
  | none => exact .pure (.inr hcallee)
  | some _ => exact (uniform_finishCall hR h hcallee).bind fun _ _ he => .pure (.inl he)

/-- Prefix operators are read alike, with their operands. -/
theorem uniform_unary : Uniform R E (Expr.Alike R) (unary inner) (unary inner') := by
  let Q : Array Token → Array Token → Prop := fun operators operators' =>
    List.Forall₂ R operators.toList operators'.toList
  have step (operators operators' : Array Token) (ho : Q operators operators') :
      Uniform R E (Sum.LiftRel Q Q) (unaryStep operators) (unaryStep operators') := by
    refine (Uniform.acceptAny? hR _).bind fun token token' htoken => ?_
    cases htoken with
    | none => exact .pure (.inr ho)
    | some ht =>
      refine .pure (.inl ?_)
      simpa only [Q, Array.toList_push] using List.rel_append ho (.cons ht .nil)
  refine (Uniform.iterate step .nil).bind fun operators operators' ho => ?_
  refine (uniform_call hR h).bind fun e e' he => .pure ?_
  rw [← Array.foldr_toList, ← Array.foldr_toList]
  exact List.rel_foldr (fun _ _ ht _ _ he => .unary ht he) he ho

theorem uniform_power : Uniform R E (Expr.Alike R) (power inner) (power inner') := by
  let Base : Expr × Token → Expr × Token → Prop := fun x y => Expr.Alike R x.1 y.1 ∧ R x.2 y.2
  let Q : Array (Expr × Token) → Array (Expr × Token) → Prop := fun bases bases' =>
    List.Forall₂ Base bases.toList bases'.toList
  let S : Array (Expr × Token) × Expr → Array (Expr × Token) × Expr → Prop := fun r r' =>
    Q r.1 r'.1 ∧ Expr.Alike R r.2 r'.2
  have step (bases bases' : Array (Expr × Token)) (hbases : Q bases bases') :
      Uniform R E (Sum.LiftRel Q S) (powerStep inner bases) (powerStep inner' bases') := by
    refine (uniform_unary hR h).bind fun e e' he => ?_
    refine (Uniform.accept? hR _).bind fun token token' htoken => ?_
    cases htoken with
    | none => exact .pure (.inr ⟨hbases, he⟩)
    | some ht =>
      refine .pure (.inl ?_)
      simpa only [Q, Array.toList_push] using List.rel_append hbases (.cons ⟨he, ht⟩ .nil)
  refine (Uniform.iterate step .nil).bind fun (bases, e) (bases', e') hr => .pure ?_
  rw [← Array.foldr_toList, ← Array.foldr_toList]
  exact List.rel_foldr (fun _ _ hb _ _ he => .binary hb.1 hb.2 he) hr.2 hr.1

theorem uniform_disjunction :
    Uniform R E (Expr.Alike R) (disjunction inner) (disjunction inner') := by
  have factor : Uniform R E (Expr.Alike R) (factor inner) (factor inner') :=
    uniform_leftAssociative hR .binary (uniform_power hR h)
  have term : Uniform R E (Expr.Alike R) (term inner) (term inner') :=
    uniform_leftAssociative hR .binary factor
  have comparison : Uniform R E (Expr.Alike R) (comparison inner) (comparison inner') :=
    uniform_leftAssociative hR .binary term
  have equality : Uniform R E (Expr.Alike R) (equality inner) (equality inner') :=
    uniform_leftAssociative hR .binary comparison
  have conjunction : Uniform R E (Expr.Alike R) (conjunction inner) (conjunction inner') :=
    uniform_leftAssociative hR .logical equality
  exact uniform_leftAssociative hR .logical conjunction

theorem uniform_assignment : Uniform R E (Expr.Alike R) (assignment inner) (assignment inner') := by
  refine (uniform_disjunction hR h).bind fun target target' htarget => ?_
  refine (Uniform.accept? hR _).bind fun token token' htoken => ?_
  cases htoken with
  | none => exact .pure htarget
  | some ht =>
    refine h.expression.bind fun value value' hvalue => ?_
    cases htarget with
    | «variable» hname => exact .pure (.assign hname hvalue)
    | _ =>
      refine (Uniform.report hR ht _).bind fun _ _ _ => .pure ?_
      constructor <;> assumption

theorem uniform_expressionStatement :
    Uniform R E (Stmt.Alike R) (expressionStatement inner) (expressionStatement inner') := by
  refine h.expression.bind fun e e' he => ?_
  exact (Uniform.expect hR _ _).bind fun _ _ _ => .pure (.expression he)

theorem uniform_varDeclaration :
    Uniform R E (Stmt.Alike R) (varDeclaration inner) (varDeclaration inner') := by
  have value :
      Uniform R E (Option.Rel (Expr.Alike R)) (initialValue inner) (initialValue inner') := by
    refine (Uniform.accept? hR _).bind fun token token' htoken => ?_
    cases htoken with
    | none => exact .pure .none
    | some _ => exact h.expression.bind fun _ _ he => .pure (.some he)
  refine (Uniform.expect hR _ _).bind fun name name' hname => value.bind fun _ _ hvalue => ?_
  exact (Uniform.expect hR _ _).bind fun _ _ _ => .pure (.var hname hvalue)

theorem uniform_functionDeclaration :
    Uniform R E (Stmt.Alike R) (functionDeclaration inner) (functionDeclaration inner') := by
  refine (Uniform.expect hR _ _).bind fun name name' hname => ?_
  exact (uniform_function hR h (.some hname)).bind fun _ _ hf => .pure (.function hf)

omit h in
/-- Jumps out of a loop are read alike, related tokens being blamed. -/
theorem uniform_loopControl {keyword keyword' : Token} (hk : R keyword keyword') (word : String) :
    Uniform R E (fun _ _ => True) (loopControl keyword word) (loopControl keyword' word) := by
  refine (Uniform.reportIf hR (fun s s' hs => by rw [hs.loops]) hk _).bind fun _ _ _ => ?_
  exact (Uniform.expect hR _ _).bind fun _ _ _ => .pure trivial

theorem uniform_expressionBefore (stop : TokenKind) :
    Uniform R E (Option.Rel (Expr.Alike R)) (expressionBefore inner stop)
      (expressionBefore inner' stop) :=
  Uniform.unlessAt hR stop .none (h.expression.map fun _ _ he => .some he)

omit hR h in
/-- What loops with three clauses stand for is alike if their clauses are. -/
theorem alike_forLoop {initializer initializer' : Option Stmt}
    {condition condition' increment increment' : Option Expr} {body body' : Stmt}
    (hi : Option.Rel (Stmt.Alike R) initializer initializer')
    (hc : Option.Rel (Expr.Alike R) condition condition')
    (hs : Option.Rel (Expr.Alike R) increment increment') (hb : Stmt.Alike R body body') :
    Stmt.Alike R (forLoop initializer condition increment body)
      (forLoop initializer' condition' increment' body') := by
  have condition : Expr.Alike R (condition.getD (.literal (.bool true)))
      (condition'.getD (.literal (.bool true))) := by
    cases hc with
    | none => exact .literal
    | some hc => exact hc
  have loop {body body' : Stmt} (hb : Stmt.Alike R body body') := Stmt.Alike.while condition hb
  cases hi with
  | none =>
    cases hs with
    | none => exact loop hb
    | some hs => exact loop (.block (.cons hb (.cons (.expression hs) .nil)))
  | some hi =>
    cases hs with
    | none => exact .block (.cons hi (.cons (loop hb) .nil))
    | some hs =>
      exact .block (.cons hi (.cons (loop (.block (.cons hb (.cons (.expression hs) .nil)))) .nil))

theorem uniform_forInitializer :
    Uniform R E (Option.Rel (Stmt.Alike R)) (forInitializer inner) (forInitializer inner') := by
  refine (Uniform.acceptAny? hR _).bind fun token token' htoken => ?_
  cases htoken with
  | none => exact (uniform_expressionStatement hR h).bind fun _ _ hs => .pure (.some hs)
  | some ht =>
    simp only [hR.kind ht]
    split
    · exact .pure .none
    · exact (uniform_varDeclaration hR h).bind fun _ _ hs => .pure (.some hs)

theorem uniform_forStatement :
    Uniform R E (Stmt.Alike R) (forStatement inner) (forStatement inner') := by
  refine (Uniform.expect hR _ _).bind fun _ _ _ => ?_
  refine (uniform_forInitializer hR h).bind fun initializer initializer' hi => ?_
  refine (uniform_expressionBefore hR h _).bind fun condition condition' hc => ?_
  refine (Uniform.expect hR _ _).bind fun _ _ _ => ?_
  refine (uniform_expressionBefore hR h _).bind fun increment increment' hs => ?_
  refine (Uniform.expect hR _ _).bind fun _ _ _ => ?_
  exact h.statement.withinLoop.bind fun body body' hb => .pure (alike_forLoop hi hc hs hb)

theorem uniform_ifStatement :
    Uniform R E (Stmt.Alike R) (ifStatement inner) (ifStatement inner') := by
  refine (Uniform.expect hR _ _).bind fun _ _ _ => h.expression.bind fun _ _ hc => ?_
  refine (Uniform.expect hR _ _).bind fun _ _ _ => h.statement.bind fun _ _ hthen => ?_
  refine (Uniform.accept? hR _).bind fun token token' htoken => ?_
  cases htoken with
  | none => exact .pure (.ifElse hc hthen .none)
  | some _ => exact h.statement.bind fun _ _ helse => .pure (.ifElse hc hthen (.some helse))

theorem uniform_returnStatement {keyword keyword' : Token} (hk : R keyword keyword') :
    Uniform R E (Stmt.Alike R) (returnStatement inner keyword)
      (returnStatement inner' keyword') := by
  refine (Uniform.reportIf hR (fun s s' hs => by rw [hs.functions]) hk _).bind fun _ _ _ => ?_
  refine (uniform_expressionBefore hR h _).bind fun value value' hv => ?_
  exact (Uniform.expect hR _ _).bind fun _ _ _ => .pure (.return hv)

theorem uniform_whileStatement :
    Uniform R E (Stmt.Alike R) (whileStatement inner) (whileStatement inner') := by
  refine (Uniform.expect hR _ _).bind fun _ _ _ => h.expression.bind fun _ _ hc => ?_
  refine (Uniform.expect hR _ _).bind fun _ _ _ => ?_
  exact h.statement.withinLoop.bind fun _ _ hb => .pure (.while hc hb)

theorem uniform_statement : Uniform R E (Stmt.Alike R) (statement inner) (statement inner') := by
  refine (Uniform.acceptAny? hR _).bind fun token token' htoken => ?_
  cases htoken with
  | none => exact uniform_expressionStatement hR h
  | some ht =>
    simp only [hR.kind ht]
    split
    · exact (uniform_loopControl hR ht _).bind fun _ _ _ => .pure .break
    · exact (uniform_loopControl hR ht _).bind fun _ _ _ => .pure .continue
    · exact uniform_forStatement hR h
    · exact uniform_ifStatement hR h
    · exact uniform_returnStatement hR h ht
    · exact h.block.bind fun _ _ hb => .pure (.block hb)
    · exact uniform_whileStatement hR h

omit h in
/-- Skipping goes by the kinds of tokens alone. -/
theorem alike_skipStatement {ts ts' : List Token} (hts : List.Forall₂ R ts ts') :
    List.Forall₂ R (skipStatement ts) (skipStatement ts') := by
  induction hts with
  | nil => exact .nil
  | @cons t t' rest rest' ht hrest ih =>
    have hahead : rest'.head?.any (isStatementStart ·.kind) =
        rest.head?.any (isStatementStart ·.kind) := by
      cases hrest with
      | nil => rfl
      | cons hu _ => simp only [List.head?_cons, Option.any_some, hR.kind hu]
    rw [skipStatement, skipStatement, hR.kind ht, hahead]
    split
    · exact hrest
    · split
      · exact hrest
      · exact ih

/-- Declarations are read alike, and recover alike. -/
theorem uniform_declaration :
    Uniform R E (Stmt.Alike R) (declaration inner) (declaration inner') := by
  have read : Uniform R E (Stmt.Alike R) (declarationOrFail inner) (declarationOrFail inner') := by
    refine (Uniform.acceptAny? hR _).bind fun token token' htoken => ?_
    cases htoken with
    | none => exact h.statement
    | some ht =>
      simp only [hR.kind ht]
      split
      · exact uniform_functionDeclaration hR h
      · exact uniform_varDeclaration hR h
  intro s s' hs
  have ends := read s s' hs
  simp only [declaration, recovering]
  generalize declarationOrFail inner s = r at ends
  generalize declarationOrFail inner' s' = r' at ends
  cases ends with
  | ok ha ht => exact .ok ha ht
  | tooDeep => exact .tooDeep
  | unexpected he ht =>
    have reported := ht.report he
    exact .ok .empty ⟨alike_skipStatement hR ht.rest, ht.eof, reported.errors, ht.loops,
      ht.functions⟩

/-- What two repetitions have found, the second one after some statements that were there before. -/
def FoundAfter (R : Token → Token → Prop) (before : List Stmt) (found found' : Array Stmt) :
    Prop :=
  ∃ rest, found'.toList = before ++ rest ∧ Stmt.AllAlike R found.toList rest

/-- Repetitions up to a place that alike places agree on. -/
theorem uniform_declarationStep {stop : State → Bool}
    (hstop : ∀ s s', s.Alike R E s' → stop s' = stop s) (before : List Stmt)
    (found found' : Array Stmt) (hfound : FoundAfter R before found found') :
    Uniform R E (Sum.LiftRel (FoundAfter R before) (FoundAfter R before))
      (declarationStep inner stop found) (declarationStep inner' stop found') := by
  intro s s' hs
  rw [declarationStep_apply, declarationStep_apply, hstop s s' hs]
  cases stop s with
  | true => exact .ok (.inr hfound) hs
  | false =>
    refine (uniform_declaration hR h).map (fun d d' hd => .inl ?_) s s' hs
    obtain ⟨rest, hrest, hlike⟩ := hfound
    refine ⟨rest ++ [d'], ?_, ?_⟩
    · rw [Array.toList_push, hrest, List.append_assoc]
    · rw [Array.toList_push]
      exact List.rel_append hlike (.cons hd .nil)

/-- Declarations up to a stop are read alike, if like states stop together. -/
theorem uniform_declarations {stop : State → Bool}
    (hstop : ∀ s s', s.Alike R E s' → stop s' = stop s) :
    Uniform R E (Stmt.AllAlike R) (declarations inner stop) (declarations inner' stop) := by
  have start : FoundAfter R [] #[] #[] := ⟨[], rfl, .nil⟩
  refine (Uniform.iterate (uniform_declarationStep hR h hstop []) start).bind ?_
  rintro found found' ⟨rest, hrest, hlike⟩
  rw [hrest]
  exact .pure hlike

theorem uniform_block : Uniform R E (Stmt.AllAlike R) (block inner) (block inner') := by
  refine (uniform_declarations hR h fun s s' hs => ?_).bind fun body body' hb => ?_
  · rw [hs.isAt hR, hs.isEmpty]
  · exact (Uniform.expect hR _ _).bind fun _ _ _ => .pure hb

end

/-- The parsers of what may be nested deeper do what those of what may be nested less deep do. -/
theorem Inner.isUniform_within {R : Token → Token → Prop} {E : SyntaxError → SyntaxError → Prop}
    (hR : Relates R E) {depth depth' : Nat} (hdepth : depth ≤ depth') :
    (Inner.within depth).IsUniform R E (Inner.within depth') := by
  induction depth generalizing depth' with
  | zero => exact ⟨fun _ _ _ => .tooDeep, fun _ _ _ => .tooDeep, fun _ _ _ => .tooDeep⟩
  | succ depth ih =>
    cases depth' with
    | zero => exact absurd hdepth (Nat.not_succ_le_zero depth)
    | succ depth' =>
      have inner := ih (Nat.le_of_succ_le_succ hdepth)
      exact ⟨uniform_assignment hR inner, uniform_statement hR inner, uniform_block hR inner⟩

/-- Alike tokens are parsed into alike programs, with alike errors. -/
theorem parse_alike {R : Token → Token → Prop} (hR : Relabels R) {ts ts' : List Token}
    {eof eof' : Token} (hts : List.Forall₂ R ts ts') (heof : R eof eof')
    (hnone : ∀ t ∈ ts, t.kind ≠ .eof) (hend : eof.kind = .eof) :
    Stmt.AllAlike R (parse (ts ++ [eof])).statements (parse (ts' ++ [eof'])).statements ∧
      List.Forall₂ SyntaxError.Alike (parse (ts ++ [eof])).errors
        (parse (ts' ++ [eof'])).errors := by
  have hnone' : ∀ t ∈ ts', t.kind ≠ .eof := by
    clear heof hend
    induction hts with
    | nil => exact hnone
    | cons ht _ ih =>
      obtain ⟨hfirst, hrest⟩ := List.forall_mem_cons.mp hnone
      exact List.forall_mem_cons.mpr ⟨hR.kind ht ▸ hfirst, ih hrest⟩
  have start : State.Alike R SyntaxError.Alike ⟨ts, eof, #[], 0, 0⟩ ⟨ts', eof', #[], 0, 0⟩ :=
    ⟨hts, heof, .nil, rfl, rfl⟩
  have relates := Relates.of_relabels hR
  have nested := Inner.isUniform_within relates (Nat.le_refl (depthBound ts.length))
  have ends := uniform_declarations relates nested (fun s s' hs => hs.isEmpty) _ _ start
  obtain ⟨statements, t, read, -⟩ :=
    declarations_ok (s := ⟨ts, eof, #[], 0, 0⟩) (Nat.le_refl ts.length)
  simp only [parse, State.ofTokens_append hnone hend,
    State.ofTokens_append hnone' ((hR.kind heof).trans hend), ← hts.length_eq, read]
  rw [read] at ends
  generalize declarations (.within (depthBound ts.length)) (·.rest.isEmpty)
    ⟨ts', eof', #[], 0, 0⟩ = r' at ends
  cases ends with
  | ok hs ht => exact ⟨hs, ht.errors⟩

end Lox.Grammar
