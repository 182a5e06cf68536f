import Lox.Grammar.Program
import Lox.Proofs.Grammar.Lookahead
import Lox.Proofs.Grammar.Running

/-!
# What is in the grammar is parsed

A parser gives the tree of every phrase of the grammar that is ahead, wherever it stands,
as long as the tokens after it do not go on with it; and it finds just the errors that
the derivation tells. The bound on nesting is large enough for every phrase.
-/

namespace Lox.Grammar

/-- A parser gives what phrases of at most `n` tokens stand for and moves past them, if they end
where the tokens after them tell so. -/
def Completes (n : Nat) (p : Parser α) (phrase : Context → Phrase α)
    (ends : List Token → Prop) : Prop :=
  ∀ ⦃s : State⦄ ⦃ts next : List Token⦄ ⦃a : α⦄ ⦃errs : List SyntaxError⦄,
    phrase s.context ts a errs → ts.length ≤ n → s.rest = ts ++ next → ends next →
    Gives p s a (s.after next errs)

/-- An `else` would not belong to the statement before it. -/
def NoElse (dangling : Bool) (next : List Token) : Prop :=
  dangling = true → ∀ t ∈ next.head?, t.kind ≠ .elseWord

/-- Nested parsers give the trees of phrases, of as many tokens as the bound on nesting allows. -/
structure Inner.Complete (inner : Inner) (depth : Nat) : Prop where
  expression : ∀ n, 2 * n ≤ depth →
    Completes n inner.expression (fun _ => DerivesExpr .assignment) Level.assignment.Stops
  statement : ∀ n dangling, 2 * n + 1 ≤ depth →
    Completes n inner.statement (DerivesStmt · dangling) (NoElse dangling)
  block : ∀ n, 2 * n ≤ depth →
    Completes n inner.block (fun c ts body errs => ∃ us closing, ts = us ++ [closing] ∧
      closing.kind = .rightBrace ∧ DerivesDecls c us body errs) fun _ => True

/-- Any tokens may follow. -/
abbrev Anything (_ : List Token) : Prop := True

section

variable {n : Nat}

/-- The items that are still to come, with what has been read before them. -/
theorem steps_separated {item : Parser α} {phrase : Phrase α} {message : String}
    (hitem : Completes n item (fun _ => phrase) (Ahead [.comma, .rightParen]))
    (hne : ∀ {ts a errs}, phrase ts a errs → ts ≠ []) {i : Nat} {ts : List Token} {as : List α}
    {errs : List SyntaxError} (h : Separated message phrase i ts as errs) (hn : ts.length ≤ n)
    {s : State} {closing : Token} {next : List Token} {items : Array α} (hi : items.size = i)
    (hs : s.rest = ts ++ closing :: next) (hc : closing.kind = .rightParen) :
    ∃ before t, Steps (separatedStep maxArity message item) items s before t ∧
      Gives (separatedStep maxArity message item before) t (.inr (items ++ as.toArray))
        (s.after (closing :: next) errs) := by
  induction h generalizing s items with
  | last ha =>
    subst hi
    refine ⟨items, s, .refl, ?_⟩
    refine .bind (gives_reportExcess (hne ha) hs) ?_
    refine .bind (hitem ha hn hs (.cons (by simp [hc]) _)) ?_
    refine .bind (gives_accept?_none ?_) (gives_pure ?_)
    · exact Ahead.ne (.cons (List.mem_singleton.mpr hc) next) (by decide)
    · simp
  | @comma ts a errs i us as rest comma ha hcomma hrest ih =>
    subst hi
    rw [List.append_assoc, List.cons_append] at hs
    rw [List.length_append, List.length_cons] at hn
    have step : Gives (separatedStep maxArity message item items) s (.inl (items.push a))
        (s.after (us ++ closing :: next) (excess items.size ts message ++ errs)) := by
      refine .bind (gives_reportExcess (hne ha) hs) ?_
      refine .bind (hitem ha (by omega) hs (.cons (by simp [hcomma]) _)) ?_
      refine .bind (gives_accept? rfl hcomma) (gives_pure ?_)
      simp
    obtain ⟨before, t, steps, last⟩ := ih (by omega) (Array.size_push a) (State.after_rest s _ _)
    refine ⟨before, t, .next step ?_ steps, ?_⟩
    · simp only [hs, State.after_rest, List.length_append, List.length_cons]
      omega
    · simpa using last

/-- Items with commas between them, or none, before a closing parenthesis. -/
theorem completes_listed {item : Parser α} {phrase : Phrase α} {message : String}
    {kinds : List TokenKind}
    (hitem : Completes n item (fun _ => phrase) (Ahead [.comma, .rightParen]))
    (hahead : ∀ {ts a errs}, phrase ts a errs → Ahead kinds ts) (hk : .rightParen ∉ kinds) :
    Completes n (unlessAt .rightParen [] (commaSeparated maxArity message item))
      (fun _ => Listed message phrase) (Ahead [.rightParen]) := by
  rintro s ts _ as errs h hn hs ⟨closing, next, rfl, hclosing⟩
  have hc := List.mem_singleton.mp hclosing
  cases h with
  | none => exact (gives_unlessAt_otherwise hs hc).congr (by rw [← State.after_self s, hs]; simp)
  | some h =>
    have starts : Ahead kinds ts := by
      cases h with
      | last ha => exact hahead ha
      | comma ha => exact (hahead ha).append _
    refine gives_unlessAt (hs ▸ (starts.append _).ne hk) ?_
    have noItems : (#[] : Array α).size = 0 := Array.size_empty
    obtain ⟨before, t, steps, last⟩ :=
      steps_separated hitem (fun ha => (hahead ha).ne_nil) h hn noItems hs hc
    rw [Array.empty_append] at last
    exact .bind (gives_iterate steps last) (gives_pure rfl)

/-- Parameters that are derived are read, with their parentheses. -/
theorem completes_parameters :
    Completes n parameters (fun _ ts params errs => ∃ opening us closing,
      ts = opening :: (us ++ [closing]) ∧ opening.kind = .leftParen ∧
        closing.kind = .rightParen ∧
        Listed "Can't have more than 255 parameters." Parameter us params errs) Anything := by
  rintro s _ next params errs ⟨opening, us, closing, rfl, ho, hc, hus⟩ hn hs _
  rw [List.cons_append, List.append_assoc] at hs
  rw [List.length_cons, List.length_append] at hn
  have item : Completes n (expect .identifier "Expect parameter name.") (fun _ => Parameter)
      (Ahead [.comma, .rightParen]) := by
    rintro s _ next _ _ ⟨hname⟩ _ hs _
    exact gives_expect hs hname
  have ahead {ts : List Token} {name : Token} {errs : List SyntaxError}
      (h : Parameter ts name errs) : Ahead [.identifier] ts := by
    cases h with
    | name hname => exact .cons (List.mem_singleton.mpr hname) _
  refine .bind (gives_expect hs ho) ?_
  refine .bind (completes_listed item ahead (by decide) hus (by omega) rfl
    (.cons (List.mem_singleton.mpr hc) next)) ?_
  refine .bind (gives_expect rfl hc) (gives_pure ?_)
  simp

variable {inner : Inner} {depth : Nat}

/-- A function that is derived is read, from its parameters to the end of its body. -/
theorem completes_function (h : inner.Complete depth) (hn : 2 * n ≤ depth + 4)
    (name : Option Token) :
    Completes n (function inner name) (fun _ ts f errs => ∃ params body,
      f = .mk name params body ∧ DerivesFunction ts (params, body) errs) Anything := by
  rintro s ts next f errs ⟨params, body, rfl, hf⟩ hts hs _
  cases hf with
  | @mk us _ errs vs _ rest opening closing leftBrace rightBrace ho hus hc hl hvs hr =>
    simp only [List.length_cons, List.length_append] at hts
    have hparams : Gives parameters s params
        (s.after (leftBrace :: (vs ++ rightBrace :: next)) errs) := by
      refine completes_parameters (n := n) ⟨opening, us, closing, rfl, ho, hc, hus⟩ ?_ ?_ trivial
      · simp only [List.length_cons, List.length_append]
        omega
      · simp [hs]
    have hbody (s' : State) (hcontext : s'.context = .function)
        (hrest : s'.rest = vs ++ rightBrace :: next) :
        Gives inner.block s' body (s'.after next rest) := by
      refine h.block (n - 2) (by omega) ⟨vs, rightBrace, rfl, hr, hcontext ▸ hvs⟩ ?_ ?_ trivial
      · rw [List.length_append, List.length_singleton]
        omega
      · simp [hrest]
    refine .bind hparams ?_
    refine .bind (.bind (gives_expect rfl hl) (gives_withinFunction hbody)) (gives_pure ?_)
    simp

/-- The value of a token that denotes one is read off the token. -/
private theorem constantValue_of_denotes {token : Token} {value : Value}
    (h : Denotes token value) :
    value = constantValue token ∧ token.kind ≠ .identifier ∧ token.kind ≠ .funWord ∧
      token.kind ≠ .leftParen := by
  cases h with
  | falseWord h | trueWord h | nilWord h | number h | string h => simp [constantValue, h]

/-- A primary expression that is derived is read. -/
theorem completes_primary (h : inner.Complete depth) (hn : 2 * n ≤ depth + 1) :
    Completes n (primary inner) (fun _ => DerivesExpr .primary) Anything := by
  intro s ts next e errs he hts hs _
  have first {token : Token} {rest : List Token} (hr : s.rest = token :: rest)
      (hk : token.kind ∈ primaryStarts) := gives_acceptAny? hr hk
  unfold primary
  cases he with
  | tighter hl => exact absurd rfl hl
  | operation _ ho => contradiction
  | grouping ho hinner hc =>
    rw [List.cons_append, List.append_assoc] at hs
    simp only [List.length_cons, List.length_append] at hts
    refine .bind (first hs (by rw [ho]; decide)) ?_
    simp only [ho]
    refine .bind (h.expression (n - 2) (by omega) hinner (by omega) rfl ?_) ?_
    · exact Level.stops_of_ahead (.cons (List.mem_singleton.mpr hc) _) (by decide)
    · refine .bind (gives_expect rfl hc) (gives_pure ?_)
      simp
  | literal hvalue =>
    obtain ⟨rfl, hi, hf, hp⟩ := constantValue_of_denotes hvalue
    refine .bind (first hs hvalue.mem_primaryStarts) ?_
    simp only
    exact gives_pure rfl
  | «variable» hname =>
    refine .bind (first hs (by rw [hname]; decide)) ?_
    simp only [hname]
    exact gives_pure rfl
  | lambda hk hf =>
    refine .bind (first hs (by rw [hk]; decide)) ?_
    simp only [hk]
    rw [List.length_cons] at hts
    refine .bind (completes_function (n := n - 1) h (by omega) none ⟨_, _, rfl, hf⟩ (by omega)
      rfl trivial) (gives_pure ?_)
    simp

/-- The arguments of a call that are derived are read, with the parenthesis that closes them. -/
theorem gives_finishCall (h : inner.Complete depth) {s : State} {us next : List Token}
    {closing : Token} {callee : Expr} {arguments : List Expr} {errs : List SyntaxError}
    (hus : Listed "Can't have more than 255 arguments." (DerivesExpr .assignment) us arguments errs)
    (hc : closing.kind = .rightParen) (hn : 2 * us.length ≤ depth)
    (hs : s.rest = us ++ closing :: next) :
    Gives (finishCall inner callee) s (.call callee closing arguments) (s.after next errs) := by
  have argument : Completes us.length inner.expression (fun _ => DerivesExpr .assignment)
      (Ahead [.comma, .rightParen]) := fun s ts next e errs he hts hs ha =>
    h.expression us.length hn he hts hs (Level.stops_of_ahead ha (by decide))
  refine .bind (completes_listed argument DerivesExpr.ahead (by decide) hus (Nat.le_refl _) hs
    (.cons (List.mem_singleton.mpr hc) next)) ?_
  refine .bind (gives_expect rfl hc) (gives_pure ?_)
  simp

/-- Calls on an operand: the first operand and what has been called on it up to here. -/
theorem steps_call (h : inner.Complete depth) (hn : 2 * n ≤ depth + 1) {ts : List Token} {e : Expr}
    {errs : List SyntaxError} (he : DerivesExpr .call ts e errs) (hts : ts.length ≤ n) {s : State}
    {next : List Token} (hs : s.rest = ts ++ next) :
    ∃ first t, Gives (primary inner) s first t ∧
      Steps (callStep inner) first t e (s.after next errs) := by
  generalize hm : ts.length = m
  induction m using Nat.strongRecOn generalizing ts e errs next with
  | ind m shorter =>
    cases he with
    | tighter _ he => exact ⟨e, _, completes_primary h hn he hts hs trivial, .refl⟩
    | operation _ ho => contradiction
    | call hcallee ho hus hc =>
      simp only [List.append_assoc, List.cons_append] at hs
      simp only [List.length_append, List.length_cons] at hts hm
      obtain ⟨first, t, operand, steps⟩ := shorter _ (by omega) hcallee (by omega) hs rfl
      refine ⟨first, t, operand, steps.snoc ?_ ?_⟩
      · refine .bind (gives_accept? rfl ho) ?_
        refine .bind (gives_finishCall h hus hc (by omega) rfl) (gives_pure ?_)
        simp
      · simp only [State.after_rest, List.length_append, List.length_cons]
        omega

/-- A call that is derived is read as far as it goes. -/
theorem completes_call (h : inner.Complete depth) (hn : 2 * n ≤ depth + 1) :
    Completes n (call inner) (fun _ => DerivesExpr .call) Level.call.Stops := by
  intro s ts next e errs he hts hs hnext
  obtain ⟨first, t, operand, steps⟩ := steps_call h hn he hts hs
  refine .bind operand (gives_iterate steps ?_)
  exact .bind (gives_accept?_none (hnext.ne_of_continuing rfl)) (gives_pure rfl)

/-- Unary operators before an operand: the operators read so far apply to what the rest stands
for. -/
theorem steps_unary {ts : List Token} {e : Expr} {errs : List SyntaxError}
    (he : DerivesExpr .unary ts e errs) {s : State} {next : List Token} (hs : s.rest = ts ++ next)
    (operators : Array Token) :
    ∃ us operand new, DerivesExpr .call us operand errs ∧ us.length ≤ ts.length ∧
      Steps unaryStep operators s new (s.after (us ++ next) []) ∧
      new.foldr .unary operand = operators.foldr .unary e := by
  generalize hm : ts.length = m
  induction m using Nat.strongRecOn generalizing s ts e errs operators with
  | ind m shorter =>
    cases he with
    | tighter _ he =>
      refine ⟨ts, e, operators, he, Nat.le_of_eq hm, ?_, rfl⟩
      rw [← hs, State.after_self]
      exact .refl
    | operation _ ho => contradiction
    | @unary us _ _ operator ho he =>
      rw [List.length_cons] at hm
      have first : Gives (unaryStep operators) s (.inl (operators.push operator))
          (s.after (us ++ next) []) :=
        .bind (gives_acceptAny? hs ho) (gives_pure rfl)
      obtain ⟨vs, operand, new, hcall, hvs, steps, hnew⟩ :=
        shorter us.length (by omega) he (State.after_rest s (us ++ next) []) _ rfl
      refine ⟨vs, operand, new, hcall, by omega, .next first ?_ ?_, ?_⟩
      · simp [hs]
      · simpa using steps
      · simpa using hnew

/-- Prefix operators that are derived are read, with their operand. -/
theorem completes_unary (h : inner.Complete depth) (hn : 2 * n ≤ depth + 1) :
    Completes n (unary inner) (fun _ => DerivesExpr .unary) Level.unary.Stops := by
  intro s ts next e errs he hts hs hnext
  obtain ⟨us, operand, operators, hcall, hus, steps, rfl⟩ := steps_unary he hs #[]
  refine .bind (gives_iterate steps (.bind (gives_acceptAny?_none ?_) (gives_pure rfl))) ?_
  · exact (hcall.ahead.append next).not_mem (by decide)
  · refine .bind (completes_call h hn hcall (by omega) rfl hnext.tighter) (gives_pure ?_)
    simp

/-- The bases of a power and its last exponent. -/
theorem steps_power (h : inner.Complete depth) (hn : 2 * n ≤ depth + 1) {ts : List Token}
    {e : Expr} {errs : List SyntaxError} (he : DerivesExpr .power ts e errs) (hts : ts.length ≤ n)
    {s : State} {next : List Token} (hs : s.rest = ts ++ next) (hnext : Level.power.Stops next)
    (bases : Array (Expr × Token)) :
    ∃ before t new exponent, Steps (powerStep inner) bases s before t ∧
      Gives (powerStep inner before) t (.inr (new, exponent)) (s.after next errs) ∧
      new.foldr raise exponent = bases.foldr raise e := by
  generalize hm : ts.length = m
  induction m using Nat.strongRecOn generalizing s ts e errs bases with
  | ind m shorter =>
    cases he with
    | tighter _ he =>
      refine ⟨bases, s, bases, e, .refl, ?_, rfl⟩
      refine .bind (completes_unary h hn he hts hs hnext.tighter) ?_
      refine .bind (gives_accept?_none ?_) (gives_pure rfl)
      exact hnext.ne_of_continuing rfl
    | operation _ ho => contradiction
    | @power ts base errs us _ rest operator hbase ho he =>
      rw [List.append_assoc, List.cons_append] at hs
      rw [List.length_append, List.length_cons] at hts hm
      have first : Gives (powerStep inner bases) s (.inl (bases.push (base, operator)))
          (s.after (us ++ next) errs) := by
        refine .bind (completes_unary h hn hbase (by omega) hs ?_) ?_
        · exact Level.stops_of_some (k := .power) (by rw [ho]; rfl) (by decide)
        · refine .bind (gives_accept? rfl ho) (gives_pure ?_)
          simp
      obtain ⟨before, t, new, exponent, steps, last, hnew⟩ :=
        shorter us.length (by omega) he (by omega) (State.after_rest s (us ++ next) errs) _ rfl
      refine ⟨before, t, new, exponent, .next first ?_ steps, ?_, ?_⟩
      · simp only [hs, State.after_rest, List.length_append, List.length_cons]
        omega
      · simpa using last
      · simpa [raise] using hnew

/-- Powers that are derived are read, from the left. -/
theorem completes_power (h : inner.Complete depth) (hn : 2 * n ≤ depth + 1) :
    Completes n (power inner) (fun _ => DerivesExpr .power) Level.power.Stops := by
  intro s ts next e errs he hts hs hnext
  obtain ⟨before, t, bases, exponent, steps, last, rfl⟩ :=
    steps_power h hn he hts hs hnext #[]
  exact .bind (gives_iterate steps last) (gives_pure rfl)

/-- Operations that group to the left: the first operand and what has been made of it up to here. -/
theorem steps_leftAssociative {l : Level} (hl : l.leftOperators ≠ []) {operand : Parser Expr}
    (hoperand : Completes n operand (fun _ => DerivesExpr l.tighter) l.tighter.Stops)
    {ts : List Token} {e : Expr} {errs : List SyntaxError} (he : DerivesExpr l ts e errs)
    (hts : ts.length ≤ n) {s : State} {next : List Token} (hs : s.rest = ts ++ next)
    (hnext : l.tighter.Stops next) :
    ∃ first t, Gives operand s first t ∧
      Steps (leftStep l.operation l.leftOperators operand) first t e (s.after next errs) := by
  generalize hm : ts.length = m
  induction m using Nat.strongRecOn generalizing ts e errs next with
  | ind m shorter =>
    cases he with
    | tighter _ he => exact ⟨e, _, hoperand he hts hs hnext, .refl⟩
    | operation hleft ho hright =>
      simp only [List.append_assoc, List.cons_append] at hs
      simp only [List.length_append, List.length_cons] at hts hm
      obtain ⟨first, t, start, steps⟩ :=
        shorter _ (by omega) hleft (by omega) hs (Level.stops_operator ho) rfl
      refine ⟨first, t, start, steps.snoc ?_ ?_⟩
      · refine .bind (gives_acceptAny? rfl ho) ?_
        refine .bind (hoperand hright (by omega) rfl hnext) (gives_pure ?_)
        simp
      · simp only [State.after_rest, List.length_append, List.length_cons]
        omega
    | _ => exact absurd rfl hl

/-- Operands with operators between them are read, if each operand is. -/
theorem completes_leftAssociative {l : Level} (hl : l.leftOperators ≠ []) {operand : Parser Expr}
    (hoperand : Completes n operand (fun _ => DerivesExpr l.tighter) l.tighter.Stops) :
    Completes n (leftAssociative l.operation l.leftOperators operand) (fun _ => DerivesExpr l)
      l.Stops := by
  intro s ts next e errs he hts hs hnext
  obtain ⟨first, t, start, steps⟩ := steps_leftAssociative hl hoperand he hts hs hnext.tighter
  refine .bind start (gives_iterate steps ?_)
  exact .bind (gives_acceptAny?_none hnext.not_operator) (gives_pure rfl)

/-- Operators between two operands are read, down to the loosest of them. -/
theorem completes_disjunction (h : inner.Complete depth) (hn : 2 * n ≤ depth + 1) :
    Completes n (disjunction inner) (fun _ => DerivesExpr .disjunction)
      Level.disjunction.Stops := by
  have factor := completes_leftAssociative (l := .factor) (by decide) (completes_power h hn)
  have term := completes_leftAssociative (l := .term) (by decide) factor
  have comparison := completes_leftAssociative (l := .comparison) (by decide) term
  have equality := completes_leftAssociative (l := .equality) (by decide) comparison
  have conjunction := completes_leftAssociative (l := .conjunction) (by decide) equality
  exact completes_leftAssociative (l := .disjunction) (by decide) conjunction

/-- A name is an expression of every level. -/
theorem derives_variable {name : Token} (hname : name.kind = .identifier) (l : Level) :
    DerivesExpr l [name] (.variable name) [] := by
  induction l using Level.induction with
  | step l ih =>
    by_cases hl : l = .primary
    · exact hl ▸ .variable hname
    · exact .tighter hl (ih hl)

/-- An assignment that is derived is read. -/
theorem completes_assignment (h : inner.Complete depth) (hn : 2 * n ≤ depth + 1) :
    Completes n (assignment inner) (fun _ => DerivesExpr .assignment) Level.assignment.Stops := by
  intro s ts next e errs he hts hs hnext
  have target {us vs : List Token} {e : Expr} {errs : List SyntaxError} {equals : Token}
      (he : DerivesExpr .disjunction us e errs) (hus : us.length ≤ n)
      (hs : s.rest = us ++ equals :: vs) (heq : equals.kind = .equal) :=
    completes_disjunction h hn he hus hs (Level.stops_of_some (k := .assignment)
      (by rw [heq]; rfl) (by decide))
  cases he with
  | tighter _ he =>
    refine .bind (completes_disjunction h hn he hts hs hnext.tighter) ?_
    exact .bind (gives_accept?_none (hnext.ne_of_continuing rfl)) (gives_pure rfl)
  | operation _ ho => contradiction
  | assign hname heq hvalue =>
    simp only [List.length_cons] at hts
    refine .bind (target (derives_variable hname _) (by simp; omega) hs heq) ?_
    refine .bind (gives_accept? rfl heq) ?_
    refine .bind (h.expression (n - 2) (by omega) hvalue (by omega) rfl hnext) (gives_pure ?_)
    simp
  | assignOther htarget other heq hvalue =>
    rw [List.append_assoc, List.cons_append] at hs
    simp only [List.length_cons, List.length_append] at hts
    refine .bind (target htarget (by omega) hs heq) ?_
    refine .bind (gives_accept? rfl heq) ?_
    refine .bind (h.expression (n - 1) (by omega) hvalue (by omega) rfl hnext) ?_
    split
    · next name => exact absurd rfl (other name)
    · refine .bind gives_report (gives_pure ?_)
      simp

/-- An expression that ends before a token that cannot go on with it. -/
theorem gives_expression (h : inner.Complete depth) {s : State} {ts next : List Token} {e : Expr}
    {errs : List SyntaxError} {token : Token} (he : DerivesExpr .assignment ts e errs)
    (hn : 2 * ts.length ≤ depth) (hs : s.rest = ts ++ token :: next)
    (hk : continuing? token.kind = none) :
    Gives inner.expression s e (s.after (token :: next) errs) := by
  refine h.expression ts.length hn he (Nat.le_refl _) hs ?_
  exact Level.stops_of_ahead (.cons (List.mem_singleton_self _) next) (by simpa using hk)

/-- An expression and the semicolon after it are read. -/
theorem gives_expressionStatement (h : inner.Complete depth) {s : State} {ts next : List Token}
    {e : Expr} {errs : List SyntaxError} {semicolon : Token}
    (he : DerivesExpr .assignment ts e errs) (hsemi : semicolon.kind = .semicolon)
    (hn : 2 * ts.length ≤ depth) (hs : s.rest = ts ++ semicolon :: next) :
    Gives (expressionStatement inner) s (.expression e) (s.after next errs) := by
  refine .bind (gives_expression h he hn hs (by rw [hsemi]; rfl)) ?_
  refine .bind (gives_expect rfl hsemi) (gives_pure ?_)
  simp

/-- The declaration of a variable that is derived is read. -/
theorem completes_varDeclaration (h : inner.Complete depth) (hn : 2 * n ≤ depth + 2) :
    Completes n (varDeclaration inner) (fun _ => DerivesVar) Anything := by
  intro s ts next b errs hv hts hs _
  cases hv with
  | plain hname hsemi =>
    refine .bind (gives_expect hs hname) ?_
    refine .bind (.bind (gives_accept?_none ?_) (gives_pure rfl)) ?_
    · exact Ahead.ne (.cons (List.mem_singleton.mpr hsemi) next) (by decide)
    · refine .bind (gives_expect rfl hsemi) (gives_pure ?_)
      simp
  | initialized hname heq hvalue hsemi =>
    simp only [List.cons_append, List.append_assoc, List.nil_append] at hs
    simp only [List.length_cons, List.length_append] at hts
    refine .bind (gives_expect hs hname) ?_
    refine .bind (.bind (gives_accept? rfl heq) (.bind (gives_expression h hvalue (by omega) rfl
      (by rw [hsemi]; rfl)) (gives_pure rfl))) ?_
    refine .bind (gives_expect rfl hsemi) (gives_pure ?_)
    simp

/-- The first clause of a loop that is derived is read. -/
theorem completes_forInitializer (h : inner.Complete depth) (hn : 2 * n ≤ depth + 2) :
    Completes n (forInitializer inner) (fun _ => DerivesFirstClause) Anything := by
  intro s ts next clause errs hc hts hs _
  cases hc with
  | absent hsemi =>
    refine .bind (gives_acceptAny? hs (by simp [hsemi])) ?_
    simp only [hsemi, if_true]
    exact gives_pure rfl
  | var hk hv =>
    rw [List.length_cons] at hts
    refine .bind (gives_acceptAny? hs (by simp [hk])) ?_
    simp only [hk, reduceCtorEq, if_false]
    refine .bind (completes_varDeclaration (n := n - 1) h (by omega) hv (by omega) rfl trivial)
      (gives_pure ?_)
    simp
  | expression he hsemi =>
    rw [List.append_assoc] at hs
    rw [List.length_append, List.length_singleton] at hts
    refine .bind (gives_acceptAny?_none (hs ▸ (he.ahead.append _).not_mem (by decide))) ?_
    exact .bind (gives_expressionStatement h he hsemi (by omega) hs) (gives_pure rfl)

/-- An expression that may be left out, before a token that can neither start one nor go on with
it. -/
theorem gives_expressionBefore (h : inner.Complete depth) {s : State} {ts next : List Token}
    {value : Option Expr} {errs : List SyntaxError} {token : Token} {stop : TokenKind}
    (hv : Optional (DerivesExpr .assignment) ts value errs) (hn : 2 * ts.length ≤ depth)
    (hs : s.rest = ts ++ token :: next) (hk : token.kind = stop) (hc : continuing? stop = none)
    (hstop : stop ∉ Level.assignment.starts) :
    Gives (expressionBefore inner stop) s value (s.after (token :: next) errs) := by
  cases hv with
  | absent => exact (gives_unlessAt_otherwise hs hk).congr (by rw [← State.after_self s, hs]; simp)
  | present he =>
    refine gives_unlessAt (hs ▸ (he.ahead.append _).ne hstop) ?_
    exact (gives_expression h he hn hs (hk ▸ hc)).map

/-- The body of a loop that is derived is read, inside the loop. -/
theorem gives_loopBody (h : inner.Complete depth) {s : State} {dangling : Bool}
    {ts next : List Token} {body : Stmt} {errs : List SyntaxError}
    (hb : DerivesStmt s.context.loop dangling ts body errs) (hn : 2 * ts.length + 1 ≤ depth)
    (hs : s.rest = ts ++ next) (hnext : NoElse dangling next) :
    Gives (loopBody inner) s body (s.after next errs) := by
  refine gives_withinLoop fun s' hcontext hrest => ?_
  exact h.statement ts.length dangling hn (hcontext ▸ hb) (Nat.le_refl _) (hrest.trans hs) hnext

/-- A jump out of a loop is read, with an objection where there is no loop. -/
theorem gives_loopControl {s : State} {keyword semicolon : Token} {word : String}
    {next : List Token} (hs : s.rest = semicolon :: next) (hsemi : semicolon.kind = .semicolon) :
    Gives (loopControl keyword word) s () (s.after next (objection s.context.inLoop keyword
      ("Cannot use '" ++ word ++ "' outside of a loop."))) := by
  refine .bind gives_reportIf ?_
  refine .bind (gives_expect (by simpa using hs) hsemi) (gives_pure ?_)
  simp [State.context]

section

variable {s : State} {ts us vs ws next : List Token} {opening closing semicolon elseWord : Token}
  {condition : Expr} {body thenBranch elseBranch : Stmt} {errs errs₂ errs₃ rest : List SyntaxError}
  {dangling inThen : Bool}

/-- A loop with a condition is read. -/
theorem gives_whileStatement (h : inner.Complete depth) (ho : opening.kind = .leftParen)
    (hcondition : DerivesExpr .assignment ts condition errs) (hc : closing.kind = .rightParen)
    (hbody : DerivesStmt s.context.loop dangling us body rest)
    (hn : 2 * (ts.length + us.length) + 1 ≤ depth)
    (hs : s.rest = opening :: (ts ++ closing :: (us ++ next))) (hnext : NoElse dangling next) :
    Gives (whileStatement inner) s (.while condition body) (s.after next (errs ++ rest)) := by
  refine .bind (gives_expect hs ho) ?_
  refine .bind (gives_expression h hcondition (by omega) rfl (by rw [hc]; rfl)) ?_
  refine .bind (gives_expect rfl hc) ?_
  refine .bind (gives_loopBody h hbody (by omega) rfl hnext) (gives_pure ?_)
  simp

/-- An `if` without an `else` is read, where no `else` follows. -/
theorem gives_ifThen (h : inner.Complete depth) (ho : opening.kind = .leftParen)
    (hcondition : DerivesExpr .assignment ts condition errs) (hc : closing.kind = .rightParen)
    (hthen : DerivesStmt s.context inThen us thenBranch rest)
    (hn : 2 * (ts.length + us.length) + 1 ≤ depth)
    (hs : s.rest = opening :: (ts ++ closing :: (us ++ next))) (hnext : NoElse true next) :
    Gives (ifStatement inner) s (.ifElse condition thenBranch none)
      (s.after next (errs ++ rest)) := by
  refine .bind (gives_expect hs ho) ?_
  refine .bind (gives_expression h hcondition (by omega) rfl (by rw [hc]; rfl)) ?_
  refine .bind (gives_expect rfl hc) ?_
  refine .bind (h.statement us.length inThen (by omega) hthen (Nat.le_refl _) rfl
    fun _ => hnext rfl) ?_
  refine .bind (gives_accept?_none (hnext rfl)) (gives_pure ?_)
  simp

/-- An `if` and its `else` are read. -/
theorem gives_ifElse (h : inner.Complete depth) (ho : opening.kind = .leftParen)
    (hcondition : DerivesExpr .assignment ts condition errs) (hc : closing.kind = .rightParen)
    (hthen : DerivesStmt s.context false us thenBranch rest) (he : elseWord.kind = .elseWord)
    (helse : DerivesStmt s.context dangling vs elseBranch errs₃)
    (hn : 2 * (ts.length + us.length + vs.length) + 1 ≤ depth)
    (hs : s.rest = opening :: (ts ++ closing :: (us ++ elseWord :: (vs ++ next))))
    (hnext : NoElse dangling next) :
    Gives (ifStatement inner) s (.ifElse condition thenBranch (some elseBranch))
      (s.after next (errs ++ (rest ++ errs₃))) := by
  refine .bind (gives_expect hs ho) ?_
  refine .bind (gives_expression h hcondition (by omega) rfl (by rw [hc]; rfl)) ?_
  refine .bind (gives_expect rfl hc) ?_
  refine .bind (h.statement us.length false (by omega) hthen (Nat.le_refl _) rfl
    fun hf => nomatch hf) ?_
  refine .bind (gives_accept? rfl he) ?_
  refine .bind (h.statement vs.length dangling (by omega) helse (Nat.le_refl _) rfl hnext)
    (gives_pure ?_)
  simp

/-- A `for` and its clauses are read, as the tree that they stand for. -/
theorem gives_forStatement (h : inner.Complete depth) {initializer : Option Stmt}
    {condition increment : Option Expr} (ho : opening.kind = .leftParen)
    (hinitializer : DerivesFirstClause ts initializer errs)
    (hcondition : Optional (DerivesExpr .assignment) us condition errs₂)
    (hsemi : semicolon.kind = .semicolon)
    (hincrement : Optional (DerivesExpr .assignment) vs increment errs₃)
    (hc : closing.kind = .rightParen)
    (hbody : DerivesStmt s.context.loop dangling ws body rest)
    (hn : 2 * (ts.length + us.length + vs.length + ws.length) + 1 ≤ depth)
    (hs : s.rest = opening :: (ts ++ (us ++ semicolon :: (vs ++ closing :: (ws ++ next)))))
    (hnext : NoElse dangling next) :
    Gives (forStatement inner) s (forLoop initializer condition increment body)
      (s.after next (errs ++ (errs₂ ++ (errs₃ ++ rest)))) := by
  refine .bind (gives_expect hs ho) ?_
  refine .bind (completes_forInitializer (n := ts.length) h (by omega) hinitializer (Nat.le_refl _)
    rfl trivial) ?_
  refine .bind (gives_expressionBefore h hcondition (by omega) rfl hsemi rfl (by decide)) ?_
  refine .bind (gives_expect rfl hsemi) ?_
  refine .bind (gives_expressionBefore h hincrement (by omega) rfl hc rfl (by decide)) ?_
  refine .bind (gives_expect rfl hc) ?_
  refine .bind (gives_loopBody h hbody (by omega) rfl hnext) (gives_pure ?_)
  simp

/-- A return is read, with an objection outside of functions. -/
theorem gives_returnStatement (h : inner.Complete depth) {keyword : Token} {value : Option Expr}
    (hvalue : Optional (DerivesExpr .assignment) ts value errs)
    (hsemi : semicolon.kind = .semicolon) (hn : 2 * ts.length ≤ depth)
    (hs : s.rest = ts ++ semicolon :: next) :
    Gives (returnStatement inner keyword) s (.return value) (s.after next
      (objection s.context.inFunction keyword "Cannot return from top-level code." ++ errs)) := by
  refine .bind gives_reportIf ?_
  refine .bind (gives_expressionBefore h hvalue hn (by simpa using hs) hsemi rfl (by decide)) ?_
  refine .bind (gives_expect rfl hsemi) (gives_pure ?_)
  simp [State.context]

end

/-- A statement that is derived is read, up to an `else` that does not belong to it. -/
theorem completes_statement (h : inner.Complete depth) (hn : 2 * n ≤ depth) (dangling : Bool) :
    Completes n (statement inner) (DerivesStmt · dangling) (NoElse dangling) := by
  intro s ts next b errs hb hts hs hnext
  have first {token : Token} {rest : List Token} (hr : s.rest = token :: rest)
      (hk : token.kind ∈ statementStarts) := gives_acceptAny? hr hk
  unfold statement
  cases hb with
  | expression he hsemi =>
    rw [List.append_assoc] at hs
    rw [List.length_append, List.length_singleton] at hts
    refine .bind (gives_acceptAny?_none (hs ▸ (he.ahead.append _).not_mem (by decide))) ?_
    exact gives_expressionStatement h he hsemi (by omega) hs
  | block hk hbody hc =>
    refine .bind (first hs (by rw [hk]; decide)) ?_
    simp only [hk]
    simp only [List.length_cons] at hts
    refine .bind (h.block (n - 1) (by omega) ⟨_, _, rfl, hc, hbody⟩ (by omega) rfl trivial)
      (gives_pure ?_)
    simp
  | ifThen hk ho hcondition hc hthen =>
    simp only [List.cons_append, List.append_assoc] at hs
    simp only [List.length_cons, List.length_append] at hts
    refine .bind (first hs (by rw [hk]; decide)) ?_
    simp only [hk]
    exact .congr (gives_ifThen h ho hcondition hc hthen (by omega) rfl hnext) (by simp)
  | ifElse hk ho hcondition hc hthen he helse =>
    simp only [List.cons_append, List.append_assoc] at hs
    simp only [List.length_cons, List.length_append] at hts
    refine .bind (first hs (by rw [hk]; decide)) ?_
    simp only [hk]
    exact .congr (gives_ifElse h ho hcondition hc hthen he helse (by omega) rfl hnext) (by simp)
  | «while» hk ho hcondition hc hbody =>
    simp only [List.cons_append, List.append_assoc] at hs
    simp only [List.length_cons, List.length_append] at hts
    refine .bind (first hs (by rw [hk]; decide)) ?_
    simp only [hk]
    exact .congr (gives_whileStatement h ho hcondition hc hbody (by omega) rfl hnext) (by simp)
  | «for» hk ho hinitializer hcondition hsemi hincrement hc hbody =>
    simp only [List.cons_append, List.append_assoc] at hs
    simp only [List.length_cons, List.length_append] at hts
    refine .bind (first hs (by rw [hk]; decide)) ?_
    simp only [hk]
    exact .congr (gives_forStatement h ho hinitializer hcondition hsemi hincrement hc hbody
      (by omega) rfl hnext) (by simp)
  | «break» hk hsemi =>
    refine .bind (first hs (by rw [hk]; decide)) ?_
    simp only [hk]
    refine .bind (gives_loopControl rfl hsemi) (gives_pure ?_)
    simp
  | «continue» hk hsemi =>
    refine .bind (first hs (by rw [hk]; decide)) ?_
    simp only [hk]
    refine .bind (gives_loopControl rfl hsemi) (gives_pure ?_)
    simp
  | «return» hk hvalue hsemi =>
    rw [List.cons_append, List.append_assoc] at hs
    simp only [List.length_cons, List.length_append] at hts
    refine .bind (first hs (by rw [hk]; decide)) ?_
    simp only [hk]
    exact .congr (gives_returnStatement h hvalue hsemi (by omega) rfl) (by simp)

/-- The declaration of a function that is derived is read. -/
theorem completes_functionDeclaration (h : inner.Complete depth) (hn : 2 * n ≤ depth + 4) :
    Completes n (functionDeclaration inner) (fun _ ts s errs => ∃ name us params body,
      ts = name :: us ∧ s = .function (.mk (some name) params body) ∧ name.kind = .identifier ∧
        DerivesFunction us (params, body) errs) Anything := by
  rintro s _ next _ errs ⟨name, us, params, body, rfl, rfl, hname, hf⟩ hts hs _
  rw [List.length_cons] at hts
  refine .bind (gives_expect hs hname) ?_
  refine .bind (completes_function (n := n) h hn (some name) ⟨params, body, rfl, hf⟩ (by omega)
    rfl trivial) (gives_pure ?_)
  simp

/-- A declaration that is derived is read, with nothing to recover from. -/
theorem completes_declaration (h : inner.Complete depth) (hn : 2 * n + 1 ≤ depth) :
    Completes n (declaration inner) DerivesDecl
      (fun next => ∀ t ∈ next.head?, t.kind ≠ .elseWord) := by
  intro s ts next d errs hd hts hs hnext
  have read : Gives (declarationOrFail inner) s d (s.after next errs) := by
    unfold declarationOrFail
    cases hd with
    | function hk hname hf =>
      refine .bind (gives_acceptAny? hs (by simp [hk])) ?_
      simp only [hk, if_true]
      simp only [List.length_cons] at hts
      refine .congr (completes_functionDeclaration (n := n) h (by omega)
        ⟨_, _, _, _, rfl, rfl, hname, hf⟩ (by simp; omega) rfl trivial) (by simp)
    | var hk hv =>
      refine .bind (gives_acceptAny? hs (by simp [hk])) ?_
      simp only [hk, reduceCtorEq, if_false]
      rw [List.length_cons] at hts
      exact .congr (completes_varDeclaration (n := n) h (by omega) hv (by omega) rfl trivial)
        (by simp)
    | statement hb hfun =>
      refine .bind (gives_acceptAny?_none ?_) ?_
      · obtain ⟨t, us, rfl, ht⟩ := hb.ahead
        have hnotFun : t.kind ≠ .funWord := hfun t rfl
        have hnotVar : t.kind ≠ .varWord := (hb.ahead.ne (by decide)) t rfl
        rw [hs]
        rintro t ⟨⟩
        simp [hnotFun, hnotVar]
      · exact h.statement n _ hn hb hts hs fun _ => hnext
  unfold Gives at *
  rw [declaration, recovering, read]

/-- Declarations that are still to come, with what has been read before them. -/
theorem steps_declarations (h : inner.Complete depth) (hn : 2 * n + 1 ≤ depth)
    {stop : State → Bool} (hstop : ∀ s : State, Ahead declarationStarts s.rest → stop s = false)
    {ts : List Token} {body : List Stmt} {errs : List SyntaxError} {s : State}
    (hd : DerivesDecls s.context ts body errs) (hts : ts.length ≤ n) {next : List Token}
    (hs : s.rest = ts ++ next) (hnext : ∀ t ∈ next.head?, t.kind ≠ .elseWord)
    (found : Array Stmt) :
    Steps (declarationStep inner stop) found s (found ++ body.toArray) (s.after next errs) := by
  generalize hm : ts.length = m
  induction m using Nat.strongRecOn generalizing ts body errs s found with
  | ind m shorter =>
    generalize hc : s.context = c at hd
    cases hd with
    | nil =>
      rw [List.nil_append] at hs
      rw [Array.append_empty, ← hs, State.after_self]
      exact .refl
    | @cons _ us d errs vs rest errs' hd hrest =>
      subst hc
      rw [List.append_assoc] at hs
      rw [List.length_append] at hts hm
      have hpositive := List.length_pos_iff.mpr hd.ahead.ne_nil
      have hfollow : ∀ t ∈ (vs ++ next).head?, t.kind ≠ .elseWord := by
        cases hrest with
        | nil => exact hnext
        | cons hd' => exact ((hd'.ahead.append _).append next).ne (by decide)
      have going : stop s = false := hstop s (hs ▸ hd.ahead.append _)
      have first : Gives (declarationStep inner stop found) s (.inl (found.push d))
          (s.after (vs ++ next) errs) := by
        refine .bind (show Gives get s s s from rfl) ?_
        simp only [going, Bool.false_eq_true, if_false]
        exact .bind (completes_declaration h hn hd (by omega) hs hfollow) (gives_pure rfl)
      have steps := shorter vs.length (by omega) (s := s.after (vs ++ next) errs) hrest (by omega)
        rfl (found.push d) rfl
      refine .next first ?_ (by simpa using steps)
      simp only [hs, State.after_rest, List.length_append]
      omega

/-- Declarations up to a place that `stop` tells. -/
theorem gives_declarations (h : inner.Complete depth) (hn : 2 * n + 1 ≤ depth)
    {stop : State → Bool} (hstop : ∀ s : State, Ahead declarationStarts s.rest → stop s = false)
    {ts : List Token} {body : List Stmt} {errs : List SyntaxError} {s : State}
    (hd : DerivesDecls s.context ts body errs) (hts : ts.length ≤ n) {next : List Token}
    (hs : s.rest = ts ++ next) (hnext : ∀ t ∈ next.head?, t.kind ≠ .elseWord)
    (stopped : stop (s.after next errs) = true) :
    Gives (declarations inner stop) s body (s.after next errs) := by
  have steps := steps_declarations h hn hstop hd hts hs hnext #[]
  rw [Array.empty_append] at steps
  have last : Gives (declarationStep inner stop body.toArray) (s.after next errs)
      (.inr body.toArray) (s.after next errs) := by
    refine .bind (show Gives get _ _ _ from rfl) ?_
    rw [stopped]
    exact gives_pure rfl
  exact .bind (gives_iterate steps last) (gives_pure rfl)

/-- A block that is derived is read, with the brace that closes it. -/
theorem completes_block (h : inner.Complete depth) (hn : 2 * n ≤ depth + 1) :
    Completes n (block inner) (fun c ts body errs => ∃ us closing, ts = us ++ [closing] ∧
      closing.kind = .rightBrace ∧ DerivesDecls c us body errs) Anything := by
  rintro s _ next body errs ⟨us, closing, rfl, hc, hus⟩ hts hs _
  rw [List.append_assoc] at hs
  rw [List.length_append, List.length_singleton] at hts
  have going (s : State) (hs : Ahead declarationStarts s.rest) :
      (s.isAt .rightBrace || s.rest.isEmpty) = false := by
    obtain ⟨t, us, ht, hk⟩ := hs
    have hne : t.kind ≠ .rightBrace := fun hr => absurd (hr ▸ hk) (by decide)
    simp [State.isAt, ht, hne]
  have closed : ∀ t ∈ (closing :: next).head?, t.kind ≠ .elseWord :=
    Ahead.ne (.cons (List.mem_singleton.mpr hc) next) (by decide)
  refine .bind (gives_declarations (n := n - 1) h (by omega) going hus (by omega) hs closed ?_) ?_
  · simp [State.isAt, hc]
  · refine .bind (gives_expect rfl hc) (gives_pure ?_)
    simp

end

/-- The parsers of everything nested at most `depth` deep give the trees of all phrases of as many
tokens as the bound allows. -/
theorem Inner.complete_within (depth : Nat) : (Inner.within depth).Complete depth := by
  induction depth with
  | zero =>
    -- There are no phrases of no tokens.
    refine ⟨fun n hn => ?_, fun n dangling hn => by omega, fun n hn => ?_⟩
    · intro s ts next e errs he hts
      have := List.length_pos_iff.mpr he.ahead.ne_nil
      omega
    · rintro s _ next body errs ⟨us, closing, rfl, _⟩ hts
      rw [List.length_append, List.length_singleton] at hts
      omega
  | succ depth ih =>
    refine ⟨fun n hn => ?_, fun n dangling hn => ?_, fun n hn => ?_⟩
    · exact completes_assignment ih (by omega)
    · exact completes_statement ih (by omega) dangling
    · exact completes_block ih (by omega)

/-- The tree of every program of the grammar, and whatever is wrong with it, is what the parser
gives. -/
theorem parse_complete {ts : List Token} {eof : Token} {statements : List Stmt}
    {errs : List SyntaxError} (hts : ∀ t ∈ ts, t.kind ≠ .eof) (heof : eof.kind = .eof)
    (h : DerivesDecls .top ts statements errs) : parse (ts ++ [eof]) = ⟨statements, errs⟩ := by
  have going (s : State) (hs : Ahead declarationStarts s.rest) : s.rest.isEmpty = false :=
    Bool.eq_false_iff.mpr fun he => hs.ne_nil (List.isEmpty_iff.mp he)
  have read := gives_declarations (Inner.complete_within (depthBound ts.length)) (Nat.le_succ _)
    (s := ⟨ts, eof, #[], 0, 0⟩) going h (Nat.le_refl _) (List.append_nil ts).symm
    (fun t ht => nomatch ht) rfl
  unfold Gives at read
  simp only [parse, State.ofTokens_append hts heof, read]
  simp [State.after]

end Lox.Grammar
