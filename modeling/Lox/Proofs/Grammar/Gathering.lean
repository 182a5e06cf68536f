import Lox.Proofs.Grammar.Soundness
import Lox.Proofs.Tree.WellFormed

/-!
# What is read of any tokens

Whatever the tokens are, and whether or not something is wrong with them, the trees that are
parsed are well formed and hold only tokens that have been read, and every error is located at one
of the tokens or at the end. Each way of composing parsers keeps this, and so does recovering from
an error.
-/

namespace Lox

/-- Whether an error is located at a token with a property, or at the end of the input. -/
def SyntaxError.LocatedAt (T : Token → Prop) (eof : Token) (e : SyntaxError) : Prop :=
  ∃ token message, (T token ∨ token = eof) ∧ e = .atToken token message

namespace Grammar

/-- Whether the tokens ahead have a property, a given token is at the end, and the errors so far are
located at such tokens. -/
structure State.Holds (T : Token → Prop) (eof : Token) (s : State) : Prop where
  rest : ∀ t ∈ s.rest, T t
  ends : s.eof = eof
  errors : ∀ e ∈ s.errors, e.LocatedAt T eof

/-- Whether a parser gives only what has a property, where the tokens have one, and locates its
errors at them. -/
def Gathers (T : Token → Prop) (eof : Token) (P : α → Prop) (p : Parser α) : Prop :=
  ∀ s : State, s.Holds T eof →
    match p s with
    | .ok a t => P a ∧ t.Holds T eof
    | .error failure t =>
      (∀ error, failure = .unexpected error → error.LocatedAt T eof) ∧ t.Holds T eof

variable {T : Token → Prop} {eof : Token}

namespace State.Holds

variable {s : State}

/-- The token under the cursor is one of the tokens ahead or the end. -/
theorem peek (h : s.Holds T eof) : T s.peek ∨ s.peek = eof := by
  unfold State.peek
  cases hr : s.rest with
  | nil => exact .inr h.ends
  | cons token rest => exact .inl (h.rest token (hr ▸ List.mem_cons_self))

/-- Tokens may be left out, and errors added that are located at others. -/
theorem note (h : s.Holds T eof) {error : SyntaxError} (he : error.LocatedAt T eof)
    {rest : List Token} (hrest : rest ⊆ s.rest) :
    State.Holds T eof { s with rest := rest, errors := s.errors.push error } where
  rest t ht := h.rest t (hrest ht)
  ends := h.ends
  errors e hmem := by
    rcases Array.mem_push.mp hmem with hmem | rfl
    · exact h.errors e hmem
    · exact he

end State.Holds

namespace Gathers

variable {P : α → Prop} {Q : β → Prop} {p : Parser α}

theorem mono {P' : α → Prop} (h : Gathers T eof P p) (hP : ∀ a, P a → P' a) :
    Gathers T eof P' p := by
  intro s hs
  have hp := h s hs
  cases hr : p s with
  | ok a t =>
    rw [hr] at hp
    exact ⟨hP a hp.1, hp.2⟩
  | error failure t =>
    rw [hr] at hp
    exact hp

theorem pure {a : α} (h : P a) : Gathers T eof P (Pure.pure a) := fun _ hs => ⟨h, hs⟩

/-- In a row each parser is looked at for the results of the one before. -/
theorem bind {f : α → Parser β} (hp : Gathers T eof P p)
    (hf : ∀ a, P a → Gathers T eof Q (f a)) : Gathers T eof Q (p >>= f) := by
  intro s hs
  have first := hp s hs
  simp only [Bind.bind, EStateM.bind]
  cases hr : p s with
  | ok a t =>
    rw [hr] at first
    exact hf a first.1 t first.2
  | error failure t =>
    rw [hr] at first
    exact first

theorem map {f : α → β} (hp : Gathers T eof P p) (hf : ∀ a, P a → Q (f a)) :
    Gathers T eof Q (f <$> p) := by
  rw [← bind_pure_comp]
  exact hp.bind fun a ha => pure (hf a ha)

theorem failHere (message : String) : Gathers T eof P (failHere message) := by
  refine fun s hs => ⟨?_, hs⟩
  rintro _ ⟨⟩
  exact ⟨s.peek, message, hs.peek, rfl⟩

/-- Nothing is blamed on a token where nothing is left of the bound on nesting. -/
theorem tooDeep : Gathers T eof P (throw .tooDeep) := by
  refine fun s hs => ⟨fun error h => ?_, hs⟩
  cases h

/-- A token that is accepted is one of those ahead and of a kind asked for. -/
theorem acceptAny? (kinds : List TokenKind) :
    Gathers T eof (fun found => ∀ token ∈ found, T token ∧ token.kind ∈ kinds)
      (acceptAny? kinds) := by
  intro s hs
  unfold Grammar.acceptAny?
  cases hr : s.rest with
  | nil => exact ⟨fun _ h => absurd h (Option.not_mem_none _), hs⟩
  | cons token rest =>
    simp only
    by_cases hk : token.kind ∈ kinds
    · rw [if_pos hk]
      have hrest := hr ▸ hs.rest
      refine ⟨?_, fun t ht => hrest t (List.mem_cons_of_mem token ht), hs.ends, hs.errors⟩
      rintro _ ⟨⟩
      exact ⟨hrest token List.mem_cons_self, hk⟩
    · rw [if_neg hk]
      exact ⟨fun _ h => absurd h (Option.not_mem_none _), hs⟩

/-- What follows depends on whether a token of some kinds is ahead, which is then read. -/
theorem acceptAny?_bind {kinds : List TokenKind} {f : Option Token → Parser α}
    (found : ∀ token, T token → token.kind ∈ kinds → Gathers T eof P (f (some token)))
    (missing : Gathers T eof P (f none)) :
    Gathers T eof P (Grammar.acceptAny? kinds >>= f) := by
  refine (acceptAny? kinds).bind fun token? htoken => ?_
  cases token? with
  | none => exact missing
  | some token => exact found token (htoken token rfl).1 (htoken token rfl).2

/-- What is done with an accepted token is looked at apart from what is done without it. -/
theorem accept?_bind {kind : TokenKind} {f : Option Token → Parser α}
    (found : ∀ token, T token → token.kind = kind → Gathers T eof P (f (some token)))
    (missing : Gathers T eof P (f none)) : Gathers T eof P (Grammar.accept? kind >>= f) :=
  acceptAny?_bind (fun token ht hk => found token ht (List.mem_singleton.mp hk)) missing

/-- A token that is expected and found is one of those ahead, of its kind. -/
theorem expect (kind : TokenKind) (message : String) :
    Gathers T eof (fun token => T token ∧ token.kind = kind) (expect kind message) :=
  accept?_bind (fun _ ht hk => pure ⟨ht, hk⟩) (failHere message)

/-- An error may be reported at one of the tokens or at the end. -/
theorem report {token : Token} (ht : T token ∨ token = eof) (message : String) :
    Gathers T eof (fun _ => True) (report token message) := fun _ hs =>
  ⟨trivial, hs.note ⟨token, message, ht, rfl⟩ (List.Subset.refl _)⟩

theorem reportIf (wrong : State → Bool) {token : Token} (ht : T token) (message : String) :
    Gathers T eof (fun _ => True) (reportIf wrong token message) := by
  intro s hs
  unfold Grammar.reportIf
  cases wrong s with
  | true => exact report (.inl ht) message s hs
  | false => exact ⟨trivial, hs⟩

/-- Too many items are reported at the token under the cursor. -/
theorem reportExcess (limit count : Nat) (message : String) :
    Gathers T eof (fun _ => True) (reportExcess limit count message) := by
  intro s hs
  unfold Grammar.reportExcess
  by_cases excess : limit ≤ count
  · rw [if_pos excess]
    exact report hs.peek message s hs
  · rw [if_neg excess]
    exact ⟨trivial, hs⟩

/-- Either the given result stands or what is parsed in its place. -/
theorem unlessAt (kind : TokenKind) {otherwise : α} (ho : P otherwise) (hp : Gathers T eof P p) :
    Gathers T eof P (unlessAt kind otherwise p) := by
  refine bind (P := fun _ => True) (fun s hs => ⟨trivial, hs⟩) fun ahead _ => ?_
  split
  · exact pure ho
  · exact hp

/-- What is open around a place has nothing to do with what is read there. -/
theorem bracket {enter : State → State} {leave : State → State → State}
    (henter : ∀ s, s.Holds T eof → (enter s).Holds T eof)
    (hleave : ∀ s t, t.Holds T eof → (leave s t).Holds T eof) (hp : Gathers T eof P p) :
    Gathers T eof P (bracket enter leave p) := by
  intro s hs
  have inside := hp (enter s) (henter s hs)
  simp only [Grammar.bracket]
  cases hr : p (enter s) with
  | ok a t =>
    rw [hr] at inside
    exact ⟨inside.1, hleave s t inside.2⟩
  | error failure t =>
    rw [hr] at inside
    exact ⟨inside.1, hleave s t inside.2⟩

/-- The count of open loops does not matter to what is gathered. -/
theorem withinLoop (hp : Gathers T eof P p) : Gathers T eof P (withinLoop p) :=
  bracket (fun _ hs => ⟨hs.rest, hs.ends, hs.errors⟩)
    (fun _ _ ht => ⟨ht.rest, ht.ends, ht.errors⟩) hp

theorem withinFunction (hp : Gathers T eof P p) : Gathers T eof P (withinFunction p) :=
  bracket (fun _ hs => ⟨hs.rest, hs.ends, hs.errors⟩)
    (fun _ _ ht => ⟨ht.rest, ht.ends, ht.errors⟩) hp

/-- A repetition gives what each step keeps or comes to. -/
theorem iterate {step : α → Parser (α ⊕ β)}
    (hstep : ∀ a, P a → Gathers T eof (Sum.elim P Q) (step a)) {start : α} (hstart : P start) :
    Gathers T eof Q (iterate start step) := by
  have repeated (bound : List Token) {a : α} (ha : P a) :
      Gathers T eof Q (repeatStep step bound a) := by
    induction bound generalizing a with
    | nil =>
      rw [repeatStep]
      refine (hstep a ha).bind fun r hr => ?_
      cases r with
      | inl next => exact tooDeep
      | inr result => exact pure hr
    | cons token bound ih =>
      rw [repeatStep]
      refine (hstep a ha).bind fun r hr => ?_
      cases r with
      | inl next => exact ih hr
      | inr result => exact pure hr
  exact fun s hs => repeated s.rest hstart s hs

/-- One more item is added to items that all have a property. -/
theorem forall_mem_push {items : Array α} {last : α} (hitems : ∀ a ∈ items, P a) (hlast : P last) :
    ∀ a ∈ items.push last, P a := by
  intro a ha
  rcases Array.mem_push.mp ha with ha | rfl
  · exact hitems a ha
  · exact hlast

/-- The items of a list have whatever each of them has when it is parsed. -/
theorem commaSeparated (limit : Nat) (message : String) (hp : Gathers T eof P p) :
    Gathers T eof (fun items => ∀ a ∈ items, P a) (commaSeparated limit message p) := by
  refine bind (P := fun items : Array α => ∀ a ∈ items, P a) ?_ fun items hitems =>
    pure fun a ha => hitems a (Array.mem_toList_iff.mp ha)
  refine iterate (P := fun items : Array α => ∀ a ∈ items, P a) (fun items hitems => ?_)
    fun a ha => absurd ha (Array.not_mem_empty a)
  refine (reportExcess limit items.size message).bind fun _ _ => hp.bind fun last hlast => ?_
  exact accept?_bind (fun _ _ _ => pure (forall_mem_push hitems hlast))
    (pure (forall_mem_push hitems hlast))

end Gathers

/-- Nested parsers that give well-formed trees. -/
structure Inner.Gathers (T : Token → Prop) (eof : Token) (inner : Inner) : Prop where
  expression : Grammar.Gathers T eof (Expr.WellFormed T) inner.expression
  statement : Grammar.Gathers T eof (Stmt.WellFormed T) inner.statement
  block : Grammar.Gathers T eof (Stmt.AllWellFormed T) inner.block

/-! ### Expressions -/

section

variable {inner : Inner}

/-- Parameters are names among the tokens. -/
theorem gathers_parameters :
    Gathers T eof (fun params => ∀ name ∈ params, name.IsName T) parameters := by
  have listed : Gathers T eof (fun params : List Token => ∀ name ∈ params, name.IsName T)
      (unlessAt .rightParen [] <| commaSeparated maxArity "Can't have more than 255 parameters."
        (expect .identifier "Expect parameter name.")) :=
    .unlessAt _ (List.forall_mem_nil _) (.commaSeparated _ _ (.expect _ _))
  exact (Gathers.expect _ _).bind fun _ _ => listed.bind fun params hparams =>
    (Gathers.expect _ _).bind fun _ _ => .pure hparams

/-- A function has names for parameters and a well-formed body. -/
theorem gathers_function (h : inner.Gathers T eof) (name : Option Token) :
    Gathers T eof (fun f => f.name = name ∧ f.WellFormed T) (function inner name) := by
  have body : Gathers T eof (Stmt.AllWellFormed T) (functionBody inner) :=
    (Gathers.expect _ _).bind fun _ _ => .withinFunction h.block
  exact gathers_parameters.bind fun params hparams => body.bind fun body hbody =>
    .pure ⟨rfl, hparams, hbody⟩

/-- A token that is an expression by itself denotes no callable. -/
theorem madeOf_constantValue {token : Token} (ht : T token) :
    (constantValue token).MadeOf T := by
  have literal : (literalValue token).MadeOf T := by
    unfold literalValue
    split
    · next value hvalue => exact ⟨token, ht, hvalue⟩
    · next text htext => exact ⟨token, ht, htext⟩
    · trivial
  unfold constantValue
  split
  · trivial
  · trivial
  · trivial
  · exact literal

/-- A primary expression is made of the tokens. -/
theorem gathers_primary (h : inner.Gathers T eof) :
    Gathers T eof (Expr.WellFormed T) (primary inner) := by
  refine .acceptAny?_bind (fun token ht _ => ?_) (.failHere _)
  simp only
  split
  · next hk => exact .pure ⟨ht, hk⟩
  · exact (gathers_function h none).bind fun f hf => .pure hf
  · refine h.expression.bind fun value hvalue => (Gathers.expect _ _).bind fun _ _ => .pure ?_
    exact hvalue
  · exact .pure (madeOf_constantValue ht)

/-- A call that is finished has a well-formed callee and well-formed arguments. -/
theorem gathers_finishCall (h : inner.Gathers T eof) {callee : Expr}
    (hcallee : callee.WellFormed T) :
    Gathers T eof (Expr.WellFormed T) (finishCall inner callee) := by
  have listed : Gathers T eof (Expr.AllWellFormed T)
      (unlessAt .rightParen [] <|
        commaSeparated maxArity "Can't have more than 255 arguments." inner.expression) :=
    .unlessAt _ trivial <|
      (Gathers.commaSeparated _ _ h.expression).mono fun _ => Expr.allWellFormed_iff.mpr
  exact listed.bind fun arguments harguments => (Gathers.expect _ _).bind fun paren hparen =>
    .pure ⟨hcallee, hparen, harguments⟩

theorem gathers_call (h : inner.Gathers T eof) :
    Gathers T eof (Expr.WellFormed T) (call inner) := by
  refine (gathers_primary h).bind fun callee hcallee => ?_
  refine .iterate (fun callee hcallee => ?_) hcallee
  exact .accept?_bind (fun _ _ _ => (gathers_finishCall h hcallee).bind fun _ he => .pure he)
    (.pure hcallee)

/-- Prefix operators stand before well-formed operands and are among the tokens. -/
theorem gathers_unary (h : inner.Gathers T eof) :
    Gathers T eof (Expr.WellFormed T) (unary inner) := by
  let P (operator : Token) : Prop := T operator ∧ operator.kind ∈ unaryOperators
  have operators : Gathers T eof (fun operators : Array Token => ∀ o ∈ operators.toList, P o)
      (iterate #[] unaryStep) := by
    refine .iterate (P := fun operators : Array Token => ∀ o ∈ operators.toList, P o)
      (fun operators hoperators => ?_) (List.forall_mem_nil _)
    refine .acceptAny?_bind (fun operator ht hk => .pure ?_) (.pure hoperators)
    simp only [Sum.elim_inl, Array.toList_push, List.forall_mem_append, List.forall_mem_singleton]
    exact ⟨hoperators, ht, hk⟩
  refine operators.bind fun operators hoperators => (gathers_call h).bind fun operand he => .pure ?_
  rw [← Array.foldr_toList]
  generalize operators.toList = before at hoperators ⊢
  induction before with
  | nil => exact he
  | cons operator rest ih =>
    obtain ⟨ho, hrest⟩ := List.forall_mem_cons.mp hoperators
    exact ⟨ho, ih hrest⟩

theorem gathers_power (h : inner.Gathers T eof) :
    Gathers T eof (Expr.WellFormed T) (power inner) := by
  let P (base : Expr × Token) : Prop := base.1.WellFormed T ∧ T base.2 ∧ base.2.kind = .starStar
  have operands : Gathers T eof
      (fun r : Array (Expr × Token) × Expr => (∀ b ∈ r.1.toList, P b) ∧ r.2.WellFormed T)
      (iterate #[] (powerStep inner)) := by
    refine .iterate (P := fun bases : Array (Expr × Token) => ∀ b ∈ bases.toList, P b)
      (fun bases hbases => ?_) (List.forall_mem_nil _)
    refine (gathers_unary h).bind fun operand he => ?_
    refine .accept?_bind (fun operator ht hk => .pure ?_) (.pure ⟨hbases, he⟩)
    simp only [Sum.elim_inl, Array.toList_push, List.forall_mem_append, List.forall_mem_singleton]
    exact ⟨hbases, he, ht, hk⟩
  refine operands.bind fun (bases, exponent) ⟨hbases, he⟩ => .pure ?_
  simp only at hbases he ⊢
  rw [← Array.foldr_toList]
  have hlevel : TokenKind.starStar ∈ binaryOperators := by decide
  generalize bases.toList = before at hbases ⊢
  induction before with
  | nil => exact he
  | cons base rest ih =>
    obtain ⟨⟨hbase, ht, hk⟩, hrest⟩ := List.forall_mem_cons.mp hbases
    exact ⟨⟨ht, hk ▸ hlevel⟩, hbase, ih hrest⟩

/-- Operators of one level join well-formed operands to a well-formed expression. -/
theorem gathers_leftAssociative {make : Expr → Token → Expr → Expr} {operators : List TokenKind}
    {operand : Parser Expr} (hoperand : Gathers T eof (Expr.WellFormed T) operand)
    (hmake : ∀ left operator right, left.WellFormed T → T operator → operator.kind ∈ operators →
      right.WellFormed T → (make left operator right).WellFormed T) :
    Gathers T eof (Expr.WellFormed T) (leftAssociative make operators operand) := by
  refine hoperand.bind fun first hfirst => .iterate (fun left hleft => ?_) hfirst
  refine .acceptAny?_bind (fun operator ht hk => ?_) (.pure hleft)
  exact hoperand.bind fun right hright => .pure (hmake left operator right hleft ht hk hright)

/-- The binary operators make well-formed expressions. -/
theorem gathers_binary {operators : List TokenKind} {operand : Parser Expr}
    (hoperators : operators ⊆ binaryOperators)
    (hoperand : Gathers T eof (Expr.WellFormed T) operand) :
    Gathers T eof (Expr.WellFormed T) (leftAssociative .binary operators operand) :=
  gathers_leftAssociative hoperand fun _ _ _ hleft ht hk hright =>
    ⟨⟨ht, hoperators hk⟩, hleft, hright⟩

/-- The logical operators make well-formed expressions of well-formed operands. -/
theorem gathers_logical {operators : List TokenKind} {operand : Parser Expr}
    (hoperators : operators ⊆ logicalOperators)
    (hoperand : Gathers T eof (Expr.WellFormed T) operand) :
    Gathers T eof (Expr.WellFormed T) (leftAssociative .logical operators operand) :=
  gathers_leftAssociative hoperand fun _ _ _ hleft ht hk hright =>
    ⟨⟨ht, hoperators hk⟩, hleft, hright⟩

/-- Everything from a power to an `or` is well formed. -/
theorem gathers_disjunction (h : inner.Gathers T eof) :
    Gathers T eof (Expr.WellFormed T) (disjunction inner) := by
  have factor : Gathers T eof (Expr.WellFormed T) (factor inner) :=
    gathers_binary (by decide) (gathers_power h)
  have term : Gathers T eof (Expr.WellFormed T) (term inner) := gathers_binary (by decide) factor
  have comparison : Gathers T eof (Expr.WellFormed T) (comparison inner) :=
    gathers_binary (by decide) term
  have equality : Gathers T eof (Expr.WellFormed T) (equality inner) :=
    gathers_binary (by decide) comparison
  have conjunction : Gathers T eof (Expr.WellFormed T) (conjunction inner) :=
    gathers_logical (by decide) equality
  exact gathers_logical (by decide) conjunction

/-- A well-formed expression is assigned to a name among the tokens. -/
theorem gathers_assignment (h : inner.Gathers T eof) :
    Gathers T eof (Expr.WellFormed T) (assignment inner) := by
  refine (gathers_disjunction h).bind fun target htarget => ?_
  refine .accept?_bind (fun equals ht _ => ?_) (.pure htarget)
  refine h.expression.bind fun value hvalue => ?_
  split
  · exact .pure ⟨htarget, hvalue⟩
  · exact (Gathers.report (.inl ht) _).bind fun _ _ => .pure htarget

/-! ### Statements -/

theorem gathers_expressionStatement (h : inner.Gathers T eof) :
    Gathers T eof (Stmt.WellFormed T) (expressionStatement inner) :=
  h.expression.bind fun _ he => (Gathers.expect _ _).bind fun _ _ => .pure he

theorem gathers_varDeclaration (h : inner.Gathers T eof) :
    Gathers T eof (Stmt.WellFormed T) (varDeclaration inner) := by
  have value : Gathers T eof (fun value => ∀ e ∈ value, e.WellFormed T) (initialValue inner) := by
    refine .accept?_bind (fun _ _ _ => ?_) (.pure fun _ h => absurd h (Option.not_mem_none _))
    exact h.expression.bind fun e he => .pure fun _ h => Option.some.inj h ▸ he
  refine (Gathers.expect _ _).bind fun name hname => value.bind fun value hvalue => ?_
  refine (Gathers.expect _ _).bind fun _ _ => .pure ?_
  cases value with
  | none => exact hname
  | some e => exact ⟨hname, hvalue e rfl⟩

/-- The declaration of a function has a name and a well-formed function. -/
theorem gathers_functionDeclaration (h : inner.Gathers T eof) :
    Gathers T eof (Stmt.WellFormed T) (functionDeclaration inner) := by
  refine (Gathers.expect _ _).bind fun name hname => ?_
  exact (gathers_function h (some name)).bind fun f hf => .pure ⟨⟨name, hf.1, hname⟩, hf.2⟩

/-- A jump out of a loop blames its own keyword. -/
theorem gathers_loopControl {keyword : Token} (ht : T keyword) (word : String) :
    Gathers T eof (fun _ => True) (loopControl keyword word) :=
  (Gathers.reportIf _ ht _).bind fun _ _ => (Gathers.expect _ _).bind fun _ _ => .pure trivial

/-- An expression that may be missing is well formed where there is one. -/
theorem gathers_expressionBefore (h : inner.Gathers T eof) (stop : TokenKind) :
    Gathers T eof (fun value => ∀ e ∈ value, e.WellFormed T) (expressionBefore inner stop) :=
  .unlessAt _ (fun _ h => absurd h (Option.not_mem_none _)) <|
    h.expression.map fun _ he _ h => Option.some.inj h ▸ he

theorem gathers_forInitializer (h : inner.Gathers T eof) :
    Gathers T eof (fun clause => ∀ s ∈ clause, s.WellFormed T) (forInitializer inner) := by
  refine .acceptAny?_bind (fun token _ _ => ?_) ?_
  · simp only
    split
    · exact .pure fun _ h => absurd h (Option.not_mem_none _)
    · exact (gathers_varDeclaration h).bind fun s hs => .pure fun _ h => Option.some.inj h ▸ hs
  · exact (gathers_expressionStatement h).bind fun s hs => .pure fun _ h => Option.some.inj h ▸ hs

/-- What a loop with three clauses stands for is well formed if its parts are. -/
theorem wellFormed_forLoop {initializer : Option Stmt} {condition increment : Option Expr}
    {body : Stmt} (hi : ∀ s ∈ initializer, s.WellFormed T) (hc : ∀ e ∈ condition, e.WellFormed T)
    (hs : ∀ e ∈ increment, e.WellFormed T) (hb : body.WellFormed T) :
    (forLoop initializer condition increment body).WellFormed T := by
  cases initializer <;> cases condition <;> cases increment <;>
    simp_all [forLoop, Stmt.WellFormed, Stmt.AllWellFormed, Expr.WellFormed, Value.MadeOf]

/-- A `for` is read as a well-formed tree, although it stands for other statements. -/
theorem gathers_forStatement (h : inner.Gathers T eof) :
    Gathers T eof (Stmt.WellFormed T) (forStatement inner) := by
  refine (Gathers.expect _ _).bind fun _ _ => ?_
  refine (gathers_forInitializer h).bind fun initializer hinitializer => ?_
  refine (gathers_expressionBefore h _).bind fun condition hcondition => ?_
  refine (Gathers.expect _ _).bind fun _ _ => ?_
  refine (gathers_expressionBefore h _).bind fun increment hincrement => ?_
  refine (Gathers.expect _ _).bind fun _ _ => ?_
  exact (Gathers.withinLoop h.statement).bind fun body hbody =>
    .pure (wellFormed_forLoop hinitializer hcondition hincrement hbody)

/-- A `while` has a well-formed condition and body. -/
theorem gathers_whileStatement (h : inner.Gathers T eof) :
    Gathers T eof (Stmt.WellFormed T) (whileStatement inner) := by
  refine (Gathers.expect _ _).bind fun _ _ => h.expression.bind fun condition hcondition => ?_
  refine (Gathers.expect _ _).bind fun _ _ => ?_
  exact (Gathers.withinLoop h.statement).bind fun body hbody => .pure ⟨hcondition, hbody⟩

/-- An `if` has a well-formed condition and branches. -/
theorem gathers_ifStatement (h : inner.Gathers T eof) :
    Gathers T eof (Stmt.WellFormed T) (ifStatement inner) := by
  refine (Gathers.expect _ _).bind fun _ _ => h.expression.bind fun condition hcondition => ?_
  refine (Gathers.expect _ _).bind fun _ _ => h.statement.bind fun thenBranch hthen => ?_
  refine .accept?_bind (fun _ _ _ => ?_) (.pure ⟨hcondition, hthen⟩)
  exact h.statement.bind fun elseBranch helse => .pure ⟨hcondition, hthen, helse⟩

/-- A return has a well-formed value, if any, and blames its own keyword. -/
theorem gathers_returnStatement (h : inner.Gathers T eof) {keyword : Token} (ht : T keyword) :
    Gathers T eof (Stmt.WellFormed T) (returnStatement inner keyword) := by
  refine (Gathers.reportIf _ ht _).bind fun _ _ => ?_
  refine (gathers_expressionBefore h _).bind fun value hvalue => ?_
  refine (Gathers.expect _ _).bind fun _ _ => .pure ?_
  cases value with
  | none => trivial
  | some e => exact hvalue e rfl

/-- A statement is well formed whatever its first token is. -/
theorem gathers_statement (h : inner.Gathers T eof) :
    Gathers T eof (Stmt.WellFormed T) (statement inner) := by
  refine .acceptAny?_bind (fun keyword ht _ => ?_) (gathers_expressionStatement h)
  simp only
  split
  · exact (gathers_loopControl ht _).bind fun _ _ => .pure trivial
  · exact (gathers_loopControl ht _).bind fun _ _ => .pure trivial
  · exact gathers_forStatement h
  · exact gathers_ifStatement h
  · exact gathers_returnStatement h ht
  · exact h.block.bind fun _ hbody => .pure hbody
  · exact gathers_whileStatement h

/-- What is left after a statement that is skipped was ahead before. -/
theorem skipStatement_subset (tokens : List Token) : skipStatement tokens ⊆ tokens := by
  obtain ⟨skipped, hskipped, -⟩ := skipStatement_drops tokens
  intro t ht
  rw [hskipped]
  exact List.mem_append_right skipped ht

/-- Where a declaration is given up, a statement is missing, and the error is noted. -/
theorem gathers_declaration (h : inner.Gathers T eof) :
    Gathers T eof (Stmt.WellFormed T) (declaration inner) := by
  have declared : Gathers T eof (Stmt.WellFormed T) (declarationOrFail inner) := by
    refine .acceptAny?_bind (fun keyword _ _ => ?_) h.statement
    simp only
    split
    · exact gathers_functionDeclaration h
    · exact gathers_varDeclaration h
  intro s hs
  have read := declared s hs
  simp only [declaration, recovering]
  cases hr : declarationOrFail inner s with
  | ok parsed t =>
    rw [hr] at read
    exact read
  | error failure t =>
    rw [hr] at read
    cases failure with
    | unexpected error =>
      exact ⟨trivial, read.2.note (read.1 error rfl) (skipStatement_subset t.rest)⟩
    | tooDeep => exact read

/-- Declarations are well formed, those that are replaced after an error too. -/
theorem gathers_declarations (h : inner.Gathers T eof) (stop : State → Bool) :
    Gathers T eof (Stmt.AllWellFormed T) (declarations inner stop) := by
  refine Gathers.bind (P := fun found : Array Stmt => ∀ s ∈ found, s.WellFormed T) ?_
    fun found hfound => .pure ?_
  · refine .iterate (P := fun found : Array Stmt => ∀ s ∈ found, s.WellFormed T)
      (fun found hfound s hs => ?_) fun s hs => absurd hs (Array.not_mem_empty s)
    rw [declarationStep_apply]
    by_cases ended : stop s
    · rw [if_pos ended]
      exact ⟨hfound, hs⟩
    · rw [if_neg ended]
      exact (gathers_declaration h).map (fun d hd => Gathers.forall_mem_push hfound hd) s hs
  · exact Stmt.allWellFormed_iff.mpr fun s hs => hfound s (Array.mem_toList_iff.mp hs)

/-- The statements of a block are well formed. -/
theorem gathers_block (h : inner.Gathers T eof) :
    Gathers T eof (Stmt.AllWellFormed T) (block inner) :=
  (gathers_declarations h _).bind fun _ hbody => (Gathers.expect _ _).bind fun _ _ => .pure hbody

end

/-- Parsers of any depth gather from the tokens: the induction is on the bound on nesting. -/
theorem Inner.gathers_within (depth : Nat) : (Inner.within depth).Gathers T eof := by
  induction depth with
  | zero =>
    exact ⟨.tooDeep, .tooDeep, .tooDeep⟩
  | succ depth ih =>
    exact ⟨fun s hs => gathers_assignment ih s hs, fun s hs => gathers_statement ih s hs,
      fun s hs => gathers_block ih s hs⟩

/-- The token at which tokens end: the first of them that says so, or one more after the last. -/
def endOfTokens (tokens : List Token) : Token := (State.ofTokens tokens).eof

/-- The trees of any tokens are well formed, and made of these tokens. Each error is located at one
of them or at their end. -/
theorem parse_gathers {tokens : List Token} (hT : ∀ t ∈ tokens, T t) :
    Stmt.AllWellFormed T (parse tokens).statements ∧
      ∀ e ∈ (parse tokens).errors, e.LocatedAt T (endOfTokens tokens) := by
  have start : (State.ofTokens tokens).Holds T (endOfTokens tokens) :=
    ⟨fun t ht => hT t ((List.takeWhile_sublist _).subset ht), rfl,
      fun e he => absurd he (Array.not_mem_empty e)⟩
  have nested : (Inner.within (depthBound (State.ofTokens tokens).rest.length)).Gathers T
      (endOfTokens tokens) := Inner.gathers_within _
  have read := gathers_declarations nested (·.rest.isEmpty) _ start
  unfold parse
  simp only
  split
  · next statements s hr =>
    rw [hr] at read
    exact ⟨read.1, fun e he => read.2.errors e (Array.mem_toList_iff.mp he)⟩
  · next failure s hr =>
    rw [hr] at read
    exact ⟨trivial, fun e he => read.2.errors e (Array.mem_toList_iff.mp he)⟩

end Grammar

end Lox
