import Lox.Grammar.Program
import Lox.Proofs.Grammar.Reading

/-!
# What is parsed is in the grammar

If the parser reports nothing, then the tokens are a program of the grammar, all of
them and in their order, and the statements are its tree. Every parser is shown to
read a phrase of the grammar, given that the parsers nested in it do; the bound on
nesting is large enough for every list of tokens.
-/

namespace Lox.Grammar

/-- What is known of tokens that have been read as a statement: if an `else` followed, it would have
been read as well. -/
def statementReading : Reading Stmt := fun c ts s next =>
  ∃ dangling, DerivesStmt c dangling ts s [] ∧
    (dangling = true → ∀ t ∈ next.head?, t.kind ≠ .elseWord)

/-- Nested parsers read phrases, on as many tokens as the bound on nesting allows: every second
level moves past a token. -/
structure Inner.Sound (inner : Inner) (depth : Nat) : Prop where
  expression : ∀ n, 2 * n + 1 ≤ depth →
    Parses n (fun _ => 1) inner.expression fun _ ts e _ => DerivesExpr .assignment ts e []
  statement : ∀ n, 2 * n + 2 ≤ depth →
    Parses n (fun _ => 1) inner.statement statementReading
  block : ∀ n, 2 * n + 3 ≤ depth →
    Parses n (fun _ => 1) inner.block fun c ts body _ =>
      ∃ us closing, ts = us ++ [closing] ∧ closing.kind = .rightBrace ∧ DerivesDecls c us body []

section

variable {inner : Inner} {depth n : Nat}

/-- Parameters that are read are names with commas between them, in parentheses. -/
theorem parses_parameters :
    Parses n (fun _ => 2) parameters fun _ ts params _ =>
      ∃ opening us closing, ts = opening :: (us ++ [closing]) ∧ opening.kind = .leftParen ∧
        closing.kind = .rightParen ∧
        Listed "Can't have more than 255 parameters." Parameter us params [] := by
  refine .expect fun opening ho _ => ?_
  have listed : Parses (n - 1) (fun _ => 0)
      (unlessAt .rightParen [] (commaSeparated maxArity "Can't have more than 255 parameters."
        (expect .identifier "Expect parameter name.")))
      fun _ ts params _ =>
        Listed "Can't have more than 255 parameters." Parameter ts params [] := by
    have item : Parses (n - 1) (fun _ => 1) (expect .identifier "Expect parameter name.")
        fun _ ts name _ => Parameter ts name [] :=
      (Parses.expect_self _ _).implies fun _ ts name _ h => h.1 ▸ .name h.2
    have items := Parses.commaSeparated "Can't have more than 255 parameters." item
    exact .unlessAt _ (items.mono (Nat.le_refl _) (fun _ => Nat.zero_le 1) fun _ _ _ _ h => h) rfl
      (fun _ _ => .none) fun _ _ _ _ h => .some h
  refine listed.bind fun params _ => .expect fun closing hc _ => .pure rfl fun c next us hus => ?_
  exact ⟨opening, us, closing, rfl, ho, hc, hus⟩

/-- A function that is read is derived. -/
theorem parses_function (h : inner.Sound depth) (hn : 2 * n ≤ depth) (name : Option Token) :
    Parses n (fun _ => 4) (function inner name) fun _ ts f _ =>
      ∃ params body, f = .mk name params body ∧ DerivesFunction ts (params, body) [] := by
  refine parses_parameters.bind fun params hp => ?_
  simp only [functionBody, bind_assoc]
  refine .expect fun leftBrace hl hm => ?_
  refine (Parses.withinFunction (h.block (n - 2 - 1) (by omega))).bind fun body _ => .pure rfl ?_
  rintro c next _ ⟨us, closing, rfl, hclosing, hbody⟩ _ ⟨opening, vs, hp, rfl, ho, hps, hparams⟩
  refine ⟨params, body, rfl, ?_⟩
  simpa using DerivesFunction.mk ho hparams hps hl hbody hclosing

/-- A token that starts a primary expression and nothing longer denotes its value. -/
private theorem denotes_constantValue {token : Token} (h : token.kind ∈ primaryStarts)
    (hi : token.kind ≠ .identifier) (hf : token.kind ≠ .funWord) (hp : token.kind ≠ .leftParen) :
    Denotes token (constantValue token) := by
  simp only [primaryStarts, List.mem_cons, List.not_mem_nil, or_false] at h
  rcases h with h | h | h | h | h | h | h | h
  · simpa only [constantValue, h] using Denotes.falseWord h
  · simpa only [constantValue, h] using Denotes.trueWord h
  · simpa only [constantValue, h] using Denotes.nilWord h
  · simpa only [constantValue, h] using Denotes.number h
  · simpa only [constantValue, h] using Denotes.string h
  · exact absurd h hi
  · exact absurd h hf
  · exact absurd h hp

/-- A primary expression that is read is derived. -/
theorem parses_primary (h : inner.Sound depth) (hn : 2 * n ≤ depth) :
    Parses n (fun _ => 1) (primary inner) fun _ ts e _ => DerivesExpr .primary ts e [] := by
  refine .acceptAny? (fun token htoken _ => ?_) (.failHere _)
  simp only
  split
  · next hk => exact .pure rfl fun _ _ => .variable hk
  · next hk =>
    refine (parses_function h (by omega) none).bind fun f _ => .pure rfl ?_
    rintro c next ts ⟨params, body, rfl, hts⟩
    simpa only [List.append_nil] using DerivesExpr.lambda hk hts
  · next hk =>
    refine (h.expression (n - 1) (by omega)).bind fun inner _ => ?_
    exact .expect fun closing hc _ => .pure rfl fun c next ts hts => .grouping hk hts hc
  · next hi hf hp => exact .pure rfl fun _ _ => .literal (denotes_constantValue htoken hi hf hp)

theorem parses_finishCall (h : inner.Sound depth) (hn : 2 * n + 1 ≤ depth) (callee : Expr) :
    Parses n (fun _ => 1) (finishCall inner callee) fun _ ts e _ =>
      ∃ us closing arguments, ts = us ++ [closing] ∧ e = .call callee closing arguments ∧
        closing.kind = .rightParen ∧
        Listed "Can't have more than 255 arguments." (DerivesExpr .assignment) us arguments [] := by
  have items := Parses.commaSeparated "Can't have more than 255 arguments." (h.expression n hn)
  have listed : Parses n (fun _ => 0)
      (unlessAt .rightParen [] (commaSeparated maxArity "Can't have more than 255 arguments."
        inner.expression))
      fun _ ts arguments _ =>
        Listed "Can't have more than 255 arguments." (DerivesExpr .assignment) ts arguments [] :=
    .unlessAt _ (items.mono (Nat.le_refl _) (fun _ => Nat.zero_le 1) fun _ _ _ _ h => h) rfl
      (fun _ _ => .none) fun _ _ _ _ h => .some h
  refine listed.bind fun arguments _ => ?_
  refine .expect fun closing hc _ => .pure rfl fun c next us hus => ?_
  exact ⟨us, closing, arguments, rfl, rfl, hc, hus⟩

/-- A call that is read is derived. -/
theorem parses_call (h : inner.Sound depth) (hn : 2 * n ≤ depth) :
    Parses n (fun _ => 1) (call inner) fun _ ts e _ => DerivesExpr .call ts e [] := by
  refine (parses_primary h hn).bind fun callee _ => ?_
  refine (Parses.iterate (I := fun _ ts e _ => DerivesExpr .call ts e [])
    (R := fun _ ts e _ => DerivesExpr .call ts e []) (fun e => ?_) callee).implies ?_
  · refine .accept? (fun opening ho _ => ?_) (.pure rfl fun c next _ us hI => ?_)
    · refine (parses_finishCall h (by omega) e).bind fun e' _ => .pure rfl ?_
      rintro c next _ ⟨us, closing, arguments, rfl, rfl, hc, hargs⟩ vs hI
      simpa using DerivesExpr.call hI ho hargs hc
    · simpa only [List.append_nil] using hI
  · exact fun c ts e next h us hus => h us (.tighter (by decide) hus)

/-- Prefix operators that are read are derived, with their operand. -/
theorem parses_unary (h : inner.Sound depth) (hn : 2 * n ≤ depth) :
    Parses n (fun _ => 1) (unary inner) fun _ ts e _ => DerivesExpr .unary ts e [] := by
  -- The operators read so far make a unary expression of one that follows them.
  let I : Reading (Array Token) := fun _ us operators _ => ∀ ts e,
    DerivesExpr .unary ts e [] → DerivesExpr .unary (us ++ ts) (operators.foldr .unary e) []
  have operators : Parses n (fun _ => 0) (iterate #[] unaryStep) I := by
    refine Parses.iterate_start (I := I) (fun operators => ?_) fun _ _ ts e he => by simpa using he
    refine .acceptAny? (fun operator ho _ => .pure rfl ?_) (.pure rfl ?_)
    · intro c next us hI ts e he
      simpa using hI _ _ (.unary ho he)
    · intro c next _ us hI
      simpa only [List.append_nil] using hI
  refine operators.bind fun operators _ => (parses_call h hn).bind fun operand _ => .pure rfl ?_
  intro c next ts hts us hI
  simpa only [List.append_nil] using hI ts operand (.tighter (by decide) hts)

/-- Powers that are read are derived, from the left. -/
theorem parses_power (h : inner.Sound depth) (hn : 2 * n ≤ depth) :
    Parses n (fun _ => 1) (power inner) fun _ ts e _ => DerivesExpr .power ts e [] := by
  -- The bases read so far make a power of an exponent that follows them.
  let I : Reading (Array (Expr × Token)) := fun _ us bases _ => ∀ ts e,
    DerivesExpr .power ts e [] → DerivesExpr .power (us ++ ts)
      (bases.foldr raise e) []
  have operands : Parses n (fun _ => 1) (iterate #[] (powerStep inner)) fun _ us r _ =>
      DerivesExpr .power us (r.1.foldr raise r.2) [] := by
    refine Parses.iterate_start (I := I) (fun bases => ?_) fun _ _ ts e he => by simpa using he
    refine ((parses_unary h hn).mono (Nat.le_refl _) (fun _ => Nat.le_refl _)
      fun _ _ _ _ h => h).bind fun operand _ => ?_
    refine .accept? (fun operator ho _ => .pure rfl ?_) (.pure rfl ?_)
    · intro c next us hus vs hI ts e he
      simpa [raise] using hI _ _ (.power hus ho he)
    · intro c next _ us hus vs hI
      simpa using hI us operand (.tighter (by decide) hus)
  exact operands.bind fun (bases, exponent) _ => .pure rfl fun c next us hus => by
    simpa only [List.append_nil] using hus

/-- Operands of the level that binds tighter, with the operators of a level between them. -/
theorem parses_leftAssociative {l : Level} (hl : l ≠ .primary) {operand : Parser Expr}
    (hoperand : Parses n (fun _ => 1) operand fun _ ts e _ => DerivesExpr l.tighter ts e []) :
    Parses n (fun _ => 1) (leftAssociative l.operation l.leftOperators operand)
      fun _ ts e _ => DerivesExpr l ts e [] := by
  refine hoperand.bind fun first _ => ?_
  refine (Parses.iterate (I := fun _ ts e _ => DerivesExpr l ts e [])
    (R := fun _ ts e _ => DerivesExpr l ts e []) (fun left => ?_) first).implies ?_
  · refine .acceptAny? (fun operator ho _ => ?_) (.pure rfl fun c next _ us hI => ?_)
    · refine (hoperand.mono (by omega) (fun _ => Nat.le_refl _) fun _ _ _ _ h => h).bind
        fun right _ => .pure rfl ?_
      intro c next us hus vs hI
      simpa using DerivesExpr.operation hI ho hus
    · simpa only [List.append_nil] using hI
  · exact fun c ts e next h us hus => h us (.tighter hl hus)

/-- Operators that are read are derived with their operands, down to the loosest of them. -/
theorem parses_disjunction (h : inner.Sound depth) (hn : 2 * n ≤ depth) :
    Parses n (fun _ => 1) (disjunction inner) fun _ ts e _ => DerivesExpr .disjunction ts e [] := by
  have factor := parses_leftAssociative (l := .factor) (by decide) (parses_power h hn)
  have term := parses_leftAssociative (l := .term) (by decide) factor
  have comparison := parses_leftAssociative (l := .comparison) (by decide) term
  have equality := parses_leftAssociative (l := .equality) (by decide) comparison
  have conjunction := parses_leftAssociative (l := .conjunction) (by decide) equality
  exact parses_leftAssociative (l := .disjunction) (by decide) conjunction

theorem parses_assignment (h : inner.Sound depth) (hn : 2 * n ≤ depth) :
    Parses n (fun _ => 1) (assignment inner) fun _ ts e _ => DerivesExpr .assignment ts e [] := by
  refine (parses_disjunction h hn).bind fun target _ => ?_
  refine .accept? (fun equals he hm => ?_) (.pure rfl fun c next _ us hus => ?_)
  · refine (h.expression (n - 1 - 1) (by omega)).bind fun value _ => ?_
    split
    · next name =>
      refine .pure rfl fun c next ts hts us hus => ?_
      obtain ⟨rfl, hname⟩ := hus.of_variable rfl
      simpa using DerivesExpr.assign hname he hts
    · exact (Parses.report _ _).bind fun _ _ => .pure rfl fun c next us hus => hus.elim
  · rw [List.append_nil]
    exact .tighter (by decide) hus

theorem parses_expressionStatement (h : inner.Sound depth) (hn : 2 * n + 1 ≤ depth) :
    Parses n (fun _ => 1) (expressionStatement inner) fun _ ts s _ =>
      ∃ us semicolon e, ts = us ++ [semicolon] ∧ s = .expression e ∧
        DerivesExpr .assignment us e [] ∧ semicolon.kind = .semicolon := by
  refine (h.expression n hn).bind fun e _ => .expect fun semicolon hs _ => .pure rfl ?_
  exact fun c next us hus => ⟨us, semicolon, e, rfl, rfl, hus, hs⟩

theorem parses_varDeclaration (h : inner.Sound depth) (hn : 2 * n ≤ depth) :
    Parses n (fun _ => 2) (varDeclaration inner) fun _ ts s _ => DerivesVar ts s [] := by
  refine .expect fun name hname hm => ?_
  have value : Parses (n - 1) (fun _ => 0) (initialValue inner) fun _ ts value _ =>
      match value with
      | none => ts = []
      | some e => ∃ equals us, ts = equals :: us ∧ equals.kind = .equal ∧
        DerivesExpr .assignment us e [] := by
    refine .accept? (fun equals he hm' => ?_) (.pure rfl fun _ _ _ => rfl)
    refine ((h.expression (n - 1 - 1) (by omega)).mono (Nat.le_refl _) (fun _ => Nat.zero_le 1)
      fun _ _ _ _ h => h).bind fun e _ => .pure rfl fun c next us hus => ?_
    exact ⟨equals, us, by rw [List.append_nil], he, hus⟩
  refine value.bind fun value _ => .expect fun semicolon hs _ => .pure rfl ?_
  intro c next us hus
  cases value with
  | none =>
    cases hus
    exact .plain hname hs
  | some e =>
    obtain ⟨equals, vs, rfl, he, hvs⟩ := hus
    exact .initialized hname he hvs hs

/-- The declaration of a function that is read is derived, with its name. -/
theorem parses_functionDeclaration (h : inner.Sound depth) (hn : 2 * n ≤ depth) :
    Parses n (fun _ => 5) (functionDeclaration inner) fun _ ts s _ =>
      ∃ name us params body, ts = name :: us ∧ s = .function (.mk (some name) params body) ∧
        name.kind = .identifier ∧ DerivesFunction us (params, body) [] := by
  refine .expect fun name hname hm => ?_
  refine (parses_function h (by omega) (some name)).bind fun f _ => .pure rfl ?_
  rintro c next us ⟨params, body, rfl, hus⟩
  exact ⟨name, us, params, body, by rw [List.append_nil], rfl, hname, hus⟩

/-- A jump out of a loop is read without an error in a loop only. -/
theorem parses_loopControl (keyword : Token) (word : String) :
    Parses n (fun _ => 1) (loopControl keyword word) fun c ts _ _ =>
      c.inLoop = true ∧ ∃ semicolon, ts = [semicolon] ∧ semicolon.kind = .semicolon := by
  refine .reportIf (.expect fun semicolon hs _ => .pure rfl ?_)
  rintro c next ⟨s, rfl, hw⟩
  exact ⟨by simpa [State.context] using hw, semicolon, rfl, hs⟩

/-- The body of a loop is read as a statement in one loop more. -/
theorem parses_loopBody (h : inner.Sound depth) (hn : 2 * n + 2 ≤ depth) :
    Parses n (fun _ => 1) (loopBody inner) fun c ts s next => statementReading c.loop ts s next :=
  .withinLoop (h.statement n hn)

/-- An expression that may be missing is derived if it is there. -/
theorem parses_expressionBefore (h : inner.Sound depth) (hn : 2 * n + 1 ≤ depth)
    (stop : TokenKind) :
    Parses n (fun _ => 0) (expressionBefore inner stop) fun _ ts e _ =>
      Optional (DerivesExpr .assignment) ts e [] := by
  have present : Parses n (fun _ => 0) (some <$> inner.expression) fun _ ts e _ =>
      Optional (DerivesExpr .assignment) ts e [] :=
    (h.expression n hn).map (fun _ => Nat.zero_le _) fun _ _ _ _ h => .present h
  exact .unlessAt stop present rfl (fun _ _ => .absent) fun _ _ _ _ h => h

theorem parses_forInitializer (h : inner.Sound depth) (hn : 2 * n + 1 ≤ depth) :
    Parses n (fun _ => 1) (forInitializer inner) fun _ ts clause _ =>
      DerivesFirstClause ts clause [] := by
  refine .acceptAny? (fun token htoken _ => ?_) ?_
  · simp only
    split
    · next hs => exact .pure rfl fun _ _ => .absent hs
    · next hs =>
      have hvar : token.kind = .varWord := by simpa [hs] using htoken
      refine ((parses_varDeclaration h (by omega)).mono (Nat.le_refl _) (fun _ => Nat.zero_le 2)
        fun _ _ _ _ h => h).bind fun s _ => .pure rfl fun c next us hus => ?_
      simpa only [List.append_nil] using .var hvar hus
  · refine (parses_expressionStatement h hn).bind fun s _ => .pure rfl ?_
    rintro c next _ ⟨us, semicolon, e, rfl, rfl, hus, hs⟩ _
    simpa only [List.append_nil] using .expression hus hs

/-- The rest of a statement of some kind, after the word that tells its kind. -/
def statementAfter (kind : TokenKind) : Reading Stmt := fun c ts s next =>
  ∀ keyword : Token, keyword.kind = kind → statementReading c (keyword :: ts) s next

/-- A `for` that is read is derived, as what it stands for. -/
theorem parses_forStatement (h : inner.Sound depth) (hn : 2 * n + 2 ≤ depth) :
    Parses n (fun _ => 0) (forStatement inner) (statementAfter .forWord) := by
  refine .expect fun opening ho _ => ?_
  refine (parses_forInitializer h (by omega)).bind fun initializer _ => ?_
  refine (parses_expressionBefore h (by omega) _).bind fun condition _ => ?_
  refine .expect fun semicolon hs _ => ?_
  refine (parses_expressionBefore h (by omega) _).bind fun increment _ => ?_
  refine .expect fun closing hc _ => ?_
  refine ((parses_loopBody h (by omega)).mono (Nat.le_refl _) (fun _ => Nat.zero_le 1)
    fun _ _ _ _ h => h).bind fun body _ => .pure rfl ?_
  rintro c next ws ⟨dangling, hws, hd⟩ vs hvs us hus ts hts keyword hk
  refine ⟨dangling, ?_, hd⟩
  simpa using DerivesStmt.for hk ho hts hus hs hvs hc hws

/-- A `while` that is read is derived. -/
theorem parses_whileStatement (h : inner.Sound depth) (hn : 2 * n + 2 ≤ depth) :
    Parses n (fun _ => 0) (whileStatement inner) (statementAfter .whileWord) := by
  refine .expect fun opening ho _ => ?_
  refine (h.expression (n - 1) (by omega)).bind fun condition _ => ?_
  refine .expect fun closing hc _ => ?_
  refine ((parses_loopBody h (by omega)).mono (Nat.le_refl _) (fun _ => Nat.zero_le 1)
    fun _ _ _ _ h => h).bind fun body _ => .pure rfl ?_
  rintro c next us ⟨dangling, hus, hd⟩ ts hts keyword hk
  refine ⟨dangling, ?_, hd⟩
  simpa using DerivesStmt.while hk ho hts hc hus

/-- An `if` that is read is derived, with the nearest `else`. -/
theorem parses_ifStatement (h : inner.Sound depth) (hn : 2 * n + 2 ≤ depth) :
    Parses n (fun _ => 0) (ifStatement inner) (statementAfter .ifWord) := by
  refine .expect fun opening ho _ => ?_
  refine (h.expression (n - 1) (by omega)).bind fun condition _ => ?_
  refine .expect fun closing hc _ => ?_
  have statement (m : Nat) (hm : 2 * m + 2 ≤ depth) := (h.statement m hm).mono (Nat.le_refl _)
    (fun _ => Nat.zero_le 1) fun _ _ _ _ h => h
  refine (statement _ (by omega)).bind fun thenBranch _ => ?_
  refine .accept? (fun elseWord he _ => ?_) (.pure rfl ?_)
  · refine (statement _ (by omega)).bind fun elseBranch _ => .pure rfl ?_
    rintro c next vs ⟨dangling, hvs, hd⟩ us ⟨inThen, hus, hthen⟩ ts hts keyword hk
    -- The `else` was there to be read by the first branch, which did not.
    have closed : inThen = false := by
      cases inThen with
      | false => rfl
      | true => exact absurd he (hthen rfl elseWord rfl)
    subst closed
    refine ⟨dangling, ?_, hd⟩
    simpa using DerivesStmt.ifElse hk ho hts hc hus he hvs
  · rintro c next missing us ⟨inThen, hus, hthen⟩ ts hts keyword hk
    refine ⟨true, ?_, fun _ => missing⟩
    simpa using DerivesStmt.ifThen hk ho hts hc hus

/-- A return is read without an error in a function only. -/
theorem parses_returnStatement (h : inner.Sound depth) (hn : 2 * n + 1 ≤ depth)
    {keyword : Token} (hk : keyword.kind = .returnWord) :
    Parses n (fun _ => 0) (returnStatement inner keyword) fun c ts s next =>
      statementReading c (keyword :: ts) s next := by
  refine .reportIf ((parses_expressionBefore h hn _).bind fun value _ => ?_)
  refine .expect fun semicolon hs _ => .pure rfl ?_
  rintro c next ts hts ⟨s, rfl, hw⟩
  have inFunction : s.context.inFunction = true := by simpa [State.context] using hw
  refine ⟨false, ?_, by intro h; contradiction⟩
  simpa [inFunction] using DerivesStmt.return (c := s.context) hk hts hs

/-- A statement that is read without an error is derived. -/
theorem parses_statement (h : inner.Sound depth) (hn : 2 * n + 1 ≤ depth) :
    Parses n (fun _ => 1) (statement inner) statementReading := by
  refine .acceptAny? (fun keyword hkeyword _ => ?_) ?_
  · simp only
    split
    · next hk =>
      refine ((parses_loopControl _ _).mono (Nat.le_refl _) (fun _ => Nat.zero_le 1)
        fun _ _ _ _ h => h).bind fun _ _ => .pure rfl ?_
      rintro c next _ ⟨inLoop, semicolon, rfl, hs⟩
      refine ⟨false, ?_, fun h => nomatch h⟩
      simpa [inLoop] using DerivesStmt.break (c := c) hk hs
    · next hk =>
      refine ((parses_loopControl _ _).mono (Nat.le_refl _) (fun _ => Nat.zero_le 1)
        fun _ _ _ _ h => h).bind fun _ _ => .pure rfl ?_
      rintro c next _ ⟨inLoop, semicolon, rfl, hs⟩
      refine ⟨false, ?_, fun h => nomatch h⟩
      simpa [inLoop] using DerivesStmt.continue (c := c) hk hs
    · next hk => exact (parses_forStatement h (by omega)).implies fun _ _ _ _ h => h keyword hk
    · next hk => exact (parses_ifStatement h (by omega)).implies fun _ _ _ _ h => h keyword hk
    · next hk => exact parses_returnStatement h (by omega) hk
    · next hk =>
      refine ((h.block (n - 1) (by omega)).mono (Nat.le_refl _) (fun _ => Nat.zero_le 1)
        fun _ _ _ _ h => h).bind fun body _ => .pure rfl ?_
      rintro c next _ ⟨us, closing, rfl, hc, hus⟩
      refine ⟨false, ?_, fun h => nomatch h⟩
      simpa using DerivesStmt.block hk hus hc
    · next hb hc hf hi hr hl =>
      have hk : keyword.kind = .whileWord := by
        simp only [statementStarts, List.mem_cons, List.not_mem_nil, or_false] at hkeyword
        grind
      exact (parses_whileStatement h (by omega)).implies fun _ _ _ _ h => h keyword hk
  · refine (parses_expressionStatement h hn).implies ?_
    rintro c _ _ next ⟨us, semicolon, e, rfl, rfl, hus, hs⟩ _
    exact ⟨false, .expression hus hs, fun h => nomatch h⟩

/-- A declaration that is read without an error is derived. -/
theorem parses_declarationOrFail (h : inner.Sound depth) (hn : 2 * n + 2 ≤ depth) :
    Parses n (fun _ => 1) (declarationOrFail inner) fun c ts s _ => DerivesDecl c ts s [] := by
  refine .acceptAny? (fun keyword hkeyword _ => ?_) ?_
  · simp only
    split
    · next hk =>
      refine ((parses_functionDeclaration h (by omega)).mono (Nat.le_refl _) (fun _ => by omega)
        fun _ _ _ _ h => h).implies ?_
      rintro c _ _ next ⟨name, us, params, body, rfl, rfl, hname, hus⟩
      exact .function hk hname hus
    · next hk =>
      have hvar : keyword.kind = .varWord := by simpa [hk] using hkeyword
      refine (parses_varDeclaration h (by omega)).mono (Nat.le_refl _) (fun _ => by omega) ?_
      exact fun c ts s next hts => .var hvar hts
  · refine (h.statement n hn).implies fun c ts s next ⟨dangling, hts, _⟩ missing => ?_
    refine .statement hts fun t ht hk => ?_
    have ahead : t ∈ (ts ++ next).head? := by
      cases ts with
      | nil => simp at ht
      | cons => simpa using ht
    exact missing t ahead (by simp [hk])

/-- Skipping moves past a token, if there is one. -/
theorem skipStatement_drops (tokens : List Token) :
    ∃ skipped, tokens = skipped ++ skipStatement tokens ∧ (tokens ≠ [] → 1 ≤ skipped.length) := by
  induction tokens with
  | nil => exact ⟨[], rfl, fun h => absurd rfl h⟩
  | cons token rest ih =>
    obtain ⟨skipped, hs, _⟩ := ih
    rw [skipStatement]
    split
    · exact ⟨[token], rfl, fun _ => Nat.le_refl 1⟩
    · split
      · exact ⟨[token], rfl, fun _ => Nat.le_refl 1⟩
      · exact ⟨token :: skipped, by rw [List.cons_append, ← hs], fun _ => by simp⟩

/-- A parser that recovers never gives up. Where it had to, it leaves an error and has moved past a
token, if there was one. -/
theorem reaches_recovering {p : Parser Stmt} {R : Reading Stmt} {s : State} (hne : s.rest ≠ [])
    (h : s.Reaches (fun _ => 1) R (p s)) : s.Reaches (fun _ => 1) R (recovering p s) := by
  unfold recovering
  cases hr : p s with
  | ok parsed t =>
    rw [hr] at h
    exact h
  | error failure t =>
    obtain ⟨⟨message, rfl⟩, ts, moves⟩ := hr ▸ h
    obtain ⟨skipped, hskipped, hprogress⟩ := skipStatement_drops t.rest
    have skips : t.Moves { t with
        errors := t.errors.push (.atToken t.peek message), rest := skipStatement t.rest } skipped :=
      ⟨hskipped, rfl, rfl, rfl, [.atToken t.peek message], by simp⟩
    have progress : 1 ≤ (ts ++ skipped).length := by
      rw [List.length_append]
      cases ts with
      | cons => simp only [List.length_cons]; omega
      | nil =>
        have hrest : t.rest ≠ [] := by simpa [moves.rest] using hne
        have := hprogress hrest
        omega
    refine ⟨ts ++ skipped, moves.trans skips, progress, fun clean => ?_⟩
    exact absurd (moves.errors_eq skips clean).2 (push_ne_self _ _)

/-- Declarations that are read without an error are derived, up to where they stop. -/
theorem parses_declarations (h : inner.Sound depth) (hn : 2 * n + 2 ≤ depth) {stop : State → Bool}
    (hstop : ∀ s, s.rest = [] → stop s = true) :
    Parses n (fun _ => 0) (declarations inner stop) fun c ts body next =>
      DerivesDecls c ts body [] ∧ ∃ s : State, s.rest = next ∧ stop s = true := by
  -- What follows completes the declarations read so far.
  let I : Reading (Array Stmt) := fun c us found _ => ∀ ts body,
    DerivesDecls c ts body [] → DerivesDecls c (us ++ ts) (found.toList ++ body) []
  let R : Reading (Array Stmt) := fun c us found next =>
    DerivesDecls c us found.toList [] ∧ ∃ s : State, s.rest = next ∧ stop s = true
  have found : Parses n (fun _ => 0) (iterate #[] (declarationStep inner stop)) R := by
    refine Parses.iterate_start (I := I) (fun found s hs => ?_)
      fun _ _ ts body h => by simpa using h
    rw [declarationStep_apply]
    by_cases ended : stop s
    · rw [if_pos ended]
      refine ⟨[], .refl s, Nat.le_refl 0, fun _ us hI => ?_⟩
      exact ⟨by simpa using hI [] [] .nil, s, rfl, ended⟩
    · rw [if_neg ended]
      have hne : s.rest ≠ [] := fun hr => ended (hstop s hr)
      have declared := reaches_recovering hne (parses_declarationOrFail h hn s hs)
      have continued : s.Reaches (Sum.elim (fun _ => 1) fun _ => 0) (Parses.Continues I R found)
          (((fun d => Sum.inl (found.push d)) <$> declaration inner) s) := by
        refine declared.map (fun _ => Nat.le_refl 1) fun ts d next hd us hI vs body hbody => ?_
        simpa using hI _ _ (.cons hd hbody)
      exact continued
  refine found.bind fun found _ => .pure rfl fun c next us hus => ?_
  rwa [List.append_nil]

theorem parses_block (h : inner.Sound depth) (hn : 2 * n + 2 ≤ depth) :
    Parses n (fun _ => 1) (block inner) fun c ts body _ =>
      ∃ us closing, ts = us ++ [closing] ∧ closing.kind = .rightBrace ∧
        DerivesDecls c us body [] := by
  refine (parses_declarations h hn fun s hs => by simp [hs]).bind fun body _ => ?_
  refine .expect fun closing hc _ => .pure rfl fun c next us hus => ?_
  exact ⟨us, closing, rfl, hc, hus.1⟩

end

/-- The parsers of everything nested at most `depth` deep read phrases on as many tokens as the
bound allows. -/
theorem Inner.sound_within (depth : Nat) : (Inner.within depth).Sound depth := by
  induction depth with
  | zero => exact ⟨fun n hn => by omega, fun n hn => by omega, fun n hn => by omega⟩
  | succ depth ih =>
    refine ⟨fun n hn => ?_, fun n hn => ?_, fun n hn => ?_⟩
    · exact fun s => parses_assignment ih (by omega) s
    · exact fun s => parses_statement ih (by omega) s
    · exact fun s => parses_block ih (by omega) s

end Lox.Grammar
