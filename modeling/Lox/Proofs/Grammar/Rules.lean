import Lox.Proofs.Grammar.Nesting

/-!
# The rules of the grammar

All parsers of the grammar, as one family. Each of them comes to an end from every place, at a
place that is not before it and with nothing else open around it: with what it has read, or with
an error at the token that it has come to.
-/

namespace Lox.Grammar

/-- A token that has a kind is the first one left. -/
theorem State.rest_of_isAt {s : State} {kind : TokenKind} (h : s.isAt kind = true) :
    ∃ rest, s.rest = s.peek :: rest := by
  cases hr : s.rest with
  | nil => simp [State.isAt, hr] at h
  | cons token rest => exact ⟨rest, by simp [State.peek, hr]⟩

/-- A token is accepted if it is of one of the kinds, and then passed. -/
theorem acceptAny?_apply (kinds : List TokenKind) (s : State) :
    acceptAny? kinds s =
      if kinds.any s.isAt then .ok (some s.peek) { s with rest := s.rest.tail }
      else .ok none s := by
  cases hr : s.rest with
  | nil => simp [acceptAny?, State.isAt, hr]
  | cons token rest => simp [acceptAny?, State.isAt, State.peek, hr]

/-- A token is passed if it is the expected one, and otherwise blamed. -/
theorem expect_apply (kind : TokenKind) (message : String) (s : State) :
    expect kind message s =
      if s.isAt kind then .ok s.peek { s with rest := s.rest.tail }
      else .error (.unexpected (.atToken s.peek message)) s := by
  simp only [expect, accept?, Bind.bind, EStateM.bind, acceptAny?_apply, List.any_cons,
    List.any_nil, Bool.or_false]
  cases s.isAt kind <;> rfl

/-- The parsers of the grammar by what they give, each with what it is given besides the tokens. -/
inductive Rule : Type → Type where
  | accept (kinds : List TokenKind) : Rule (Option Token)
  | expect (kind : TokenKind) (message : String) : Rule Token
  | parameters : Rule (List Token)
  | functionBody : Rule (List Stmt)
  | function (name : Option Token) : Rule FunctionDecl
  | primary : Rule Expr
  | finishCall (callee : Expr) : Rule Expr
  | call : Rule Expr
  | unary : Rule Expr
  | power : Rule Expr
  | factor : Rule Expr
  | term : Rule Expr
  | comparison : Rule Expr
  | equality : Rule Expr
  | conjunction : Rule Expr
  | disjunction : Rule Expr
  | assignment : Rule Expr
  | expressionStatement : Rule Stmt
  | varDeclaration : Rule Stmt
  | functionDeclaration : Rule Stmt
  | loopControl (keyword : Token) (word : String) : Rule Unit
  | loopBody : Rule Stmt
  | forInitializer : Rule (Option Stmt)
  | expressionBefore (stop : TokenKind) : Rule (Option Expr)
  | forStatement : Rule Stmt
  | ifStatement : Rule Stmt
  | returnStatement (keyword : Token) : Rule Stmt
  | whileStatement : Rule Stmt
  | statement : Rule Stmt
  | declarationOrFail : Rule Stmt
  | declaration : Rule Stmt
  | block : Rule (List Stmt)
  | program : Rule (List Stmt)

/-- The parser of a rule, with no bound on nesting. -/
def Rule.parser : Rule α → Parser α
  | .accept kinds => acceptAny? kinds
  | .expect kind message => Grammar.expect kind message
  | .parameters => Grammar.parameters
  | .functionBody => Grammar.functionBody .unbounded
  | .function name => Grammar.function .unbounded name
  | .primary => Grammar.primary .unbounded
  | .finishCall callee => Grammar.finishCall .unbounded callee
  | .call => Grammar.call .unbounded
  | .unary => Grammar.unary .unbounded
  | .power => Grammar.power .unbounded
  | .factor => Grammar.factor .unbounded
  | .term => Grammar.term .unbounded
  | .comparison => Grammar.comparison .unbounded
  | .equality => Grammar.equality .unbounded
  | .conjunction => Grammar.conjunction .unbounded
  | .disjunction => Grammar.disjunction .unbounded
  | .assignment => Grammar.assignment .unbounded
  | .expressionStatement => Grammar.expressionStatement .unbounded
  | .varDeclaration => Grammar.varDeclaration .unbounded
  | .functionDeclaration => Grammar.functionDeclaration .unbounded
  | .loopControl keyword word => Grammar.loopControl keyword word
  | .loopBody => Grammar.loopBody .unbounded
  | .forInitializer => Grammar.forInitializer .unbounded
  | .expressionBefore stop => Grammar.expressionBefore .unbounded stop
  | .forStatement => Grammar.forStatement .unbounded
  | .ifStatement => Grammar.ifStatement .unbounded
  | .returnStatement keyword => Grammar.returnStatement .unbounded keyword
  | .whileStatement => Grammar.whileStatement .unbounded
  | .statement => Grammar.statement .unbounded
  | .declarationOrFail => Grammar.declarationOrFail .unbounded
  | .declaration => Grammar.declaration .unbounded
  | .block => Grammar.block .unbounded
  | .program => Grammar.declarations .unbounded (·.rest.isEmpty)

/-- How a parser ends that started at `s`: it has moved on to `t`, and gives what it has read or
gives up with an error at the token there. -/
structure EndsAt (s : State) (result : EStateM.Result Failure State α) (t : State) : Prop where
  moves : ∃ tokens, s.Moves t tokens
  ends : (∃ a, result = .ok a t) ∨
    ∃ message, result = .error (.unexpected (.atToken t.peek message)) t

/-- A state after a result is the only one. -/
theorem EndsAt.eq_of_ok {s t t' : State} {result : EStateM.Result Failure State α} {a : α}
    (h : EndsAt s result t') (hr : result = .ok a t) : t = t' := by
  subst hr
  obtain ⟨_, heq⟩ | ⟨_, heq⟩ := h.ends
  · exact (EStateM.Result.ok.inj heq).2
  · cases heq

/-- A parser that comes to an end wherever it starts, and never goes back. -/
def Forward (p : Parser α) : Prop := ∀ s, ∃ t, EndsAt s (p s) t

/-- What reaches a place has come to an end there. -/
theorem State.Reaches.endsAt {s : State} {least : α → Nat} {R : Reading α}
    {result : EStateM.Result Failure State α} (h : s.Reaches least R result) :
    ∃ t, EndsAt s result t := by
  cases result with
  | ok a t =>
    obtain ⟨ts, moves, -⟩ := h
    exact ⟨t, ⟨ts, moves⟩, .inl ⟨a, rfl⟩⟩
  | error e t =>
    obtain ⟨⟨message, rfl⟩, ts, moves⟩ := h
    exact ⟨t, ⟨ts, moves⟩, .inr ⟨message, rfl⟩⟩

/-- What reads tokens goes forward. -/
theorem Parses.forward {least : α → Nat} {p : Parser α} {R : Reading α}
    (h : ∀ n, Parses n least p R) : Forward p := fun s =>
  (h s.rest.length s (Nat.le_refl _)).endsAt

/-- The next parser goes on where the first has come to. -/
theorem Forward.bind {p : Parser α} {f : α → Parser β} (hp : Forward p)
    (hf : ∀ a, Forward (f a)) : Forward (p >>= f) := by
  intro s
  obtain ⟨t, ⟨ts, moves⟩, ⟨a, ha⟩ | ⟨message, he⟩⟩ := hp s
  · obtain ⟨u, ⟨us, moves'⟩, ends⟩ := hf a t
    simp only [Bind.bind, EStateM.bind, ha]
    exact ⟨u, ⟨ts ++ us, moves.trans moves'⟩, ends⟩
  · simp only [Bind.bind, EStateM.bind, he]
    exact ⟨t, ⟨ts, moves⟩, .inr ⟨message, rfl⟩⟩

theorem forward_pure (a : α) : Forward (pure a) := fun s =>
  ⟨s, ⟨[], .refl s⟩, .inl ⟨a, rfl⟩⟩

theorem forward_acceptAny? (kinds : List TokenKind) : Forward (acceptAny? kinds) := by
  intro s
  rw [acceptAny?_apply]
  split
  · next hat =>
    obtain ⟨kind, -, hkind⟩ := List.any_eq_true.mp hat
    obtain ⟨rest, hr⟩ := State.rest_of_isAt hkind
    exact ⟨_, ⟨_, .advance (by rw [hr, List.tail_cons])⟩, .inl ⟨_, rfl⟩⟩
  · exact ⟨s, ⟨[], .refl s⟩, .inl ⟨none, rfl⟩⟩

theorem forward_expect (kind : TokenKind) (message : String) : Forward (expect kind message) :=
  Parses.forward fun _ => .expect_self kind message

theorem forward_reportIf (wrong : State → Bool) (token : Token) (message : String) :
    Forward (reportIf wrong token message) := by
  intro s
  unfold reportIf
  cases wrong s with
  | true => exact ⟨_, ⟨[], .report s _⟩, .inl ⟨(), rfl⟩⟩
  | false => exact ⟨s, ⟨[], .refl s⟩, .inl ⟨(), rfl⟩⟩

/-- A parser that recovers has moved on over what was skipped as well. -/
theorem forward_recovering {p : Parser Stmt} (hp : Forward p) : Forward (recovering p) := by
  intro s
  unfold recovering
  obtain ⟨t, ⟨ts, moves⟩, ⟨a, ha⟩ | ⟨message, he⟩⟩ := hp s
  · rw [ha]
    exact ⟨t, ⟨ts, moves⟩, .inl ⟨a, rfl⟩⟩
  · rw [he]
    obtain ⟨skipped, hskipped, -⟩ := skipStatement_drops t.rest
    have skips : t.Moves { t with
        errors := t.errors.push (.atToken t.peek message), rest := skipStatement t.rest } skipped :=
      ⟨hskipped, rfl, rfl, rfl, [.atToken t.peek message], by simp⟩
    exact ⟨_, ⟨ts ++ skipped, moves.trans skips⟩, .inl ⟨.empty, rfl⟩⟩

/-- The parsers without a bound on nesting read what the grammar derives. -/
private theorem sound (n : Nat) : Inner.unbounded.Sound (2 * n + 3) := Inner.sound_unbounded _

theorem forward_expressionBefore (stop : TokenKind) :
    Forward (expressionBefore .unbounded stop) :=
  Parses.forward fun n => parses_expressionBefore (sound n) (by omega) stop

/-- A declaration goes forward, whether or not it fails. -/
theorem forward_declarationOrFail : Forward (declarationOrFail .unbounded) :=
  Parses.forward fun n => parses_declarationOrFail (sound n) (by omega)

/-- Every parser of the grammar comes to an end wherever it starts, and never goes back. -/
theorem Rule.forward (rule : Rule α) : Forward rule.parser := by
  have power (n : Nat) := parses_power (sound n) (n := n) (by omega)
  have factor (n : Nat) := parses_leftAssociative (l := .factor) (by decide) (power n)
  have term (n : Nat) := parses_leftAssociative (l := .term) (by decide) (factor n)
  have comparison (n : Nat) := parses_leftAssociative (l := .comparison) (by decide) (term n)
  have equality (n : Nat) := parses_leftAssociative (l := .equality) (by decide) (comparison n)
  have conjunction (n : Nat) := parses_leftAssociative (l := .conjunction) (by decide) (equality n)
  cases rule with
  | accept kinds => exact forward_acceptAny? kinds
  | expect kind message => exact forward_expect kind message
  | parameters => exact Parses.forward fun n => parses_parameters (n := n)
  | functionBody =>
    exact (forward_expect _ _).bind fun _ =>
      Parses.forward fun n => .withinFunction ((sound n).block n (by omega))
  | function name => exact Parses.forward fun n => parses_function (sound n) (by omega) name
  | primary => exact Parses.forward fun n => parses_primary (sound n) (by omega)
  | finishCall callee => exact Parses.forward fun n => parses_finishCall (sound n) (by omega) callee
  | call => exact Parses.forward fun n => parses_call (sound n) (by omega)
  | unary => exact Parses.forward fun n => parses_unary (sound n) (by omega)
  | power => exact Parses.forward power
  | factor => exact Parses.forward factor
  | term => exact Parses.forward term
  | comparison => exact Parses.forward comparison
  | equality => exact Parses.forward equality
  | conjunction => exact Parses.forward conjunction
  | disjunction => exact Parses.forward fun n => parses_disjunction (sound n) (by omega)
  | assignment => exact Parses.forward fun n => parses_assignment (sound n) (by omega)
  | expressionStatement =>
    exact Parses.forward fun n => parses_expressionStatement (sound n) (by omega)
  | varDeclaration => exact Parses.forward fun n => parses_varDeclaration (sound n) (by omega)
  | functionDeclaration =>
    exact Parses.forward fun n => parses_functionDeclaration (sound n) (by omega)
  | loopControl keyword word =>
    exact Parses.forward fun n => parses_loopControl (n := n) keyword word
  | loopBody => exact Parses.forward fun n => parses_loopBody (sound n) (by omega)
  | forInitializer => exact Parses.forward fun n => parses_forInitializer (sound n) (by omega)
  | expressionBefore stop => exact forward_expressionBefore stop
  | forStatement => exact Parses.forward fun n => parses_forStatement (sound n) (by omega)
  | ifStatement => exact Parses.forward fun n => parses_ifStatement (sound n) (by omega)
  | returnStatement keyword =>
    -- Whatever the token is that an error would be noted at.
    refine (forward_reportIf _ _ _).bind fun _ => (forward_expressionBefore _).bind fun _ => ?_
    exact (forward_expect _ _).bind fun _ => forward_pure _
  | whileStatement => exact Parses.forward fun n => parses_whileStatement (sound n) (by omega)
  | statement => exact Parses.forward fun n => parses_statement (sound n) (by omega)
  | declarationOrFail => exact forward_declarationOrFail
  | declaration => exact forward_recovering forward_declarationOrFail
  | block => exact Parses.forward fun n => parses_block (sound n) (by omega)
  | program =>
    exact Parses.forward fun n => parses_declarations (sound n) (by omega) fun s hs => by
      rw [hs, List.isEmpty_nil]

/-- A declaration is read, or something is skipped for it: it moves past a token, if there is
one. -/
theorem declaration_progress {s : State} (hne : s.rest ≠ []) :
    ∃ d t ts, declaration .unbounded s = .ok d t ∧ s.Moves t ts ∧ 1 ≤ ts.length := by
  have read := parses_declarationOrFail (sound s.rest.length) (by omega) s (Nat.le_refl _)
  have reached := reaches_recovering hne read
  cases hr : recovering (declarationOrFail .unbounded) s with
  | ok d t =>
    obtain ⟨ts, moves, hts, -⟩ := hr ▸ reached
    exact ⟨d, t, ts, hr, moves, hts⟩
  | error failure t =>
    obtain ⟨⟨message, rfl⟩, -⟩ := hr ▸ reached
    exact absurd hr (recovers_recovering _ s _ t)

end Lox.Grammar
