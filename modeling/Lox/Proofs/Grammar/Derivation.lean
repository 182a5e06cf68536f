import Lox.Grammar.Statement

/-!
# The grammar

Which tokens are an expression, a statement or a program, and which tree they stand for.
A derivation also collects, in the order of the text, what is wrong with a phrase that
the grammar lets pass: a jump that nothing encloses, a list that is too long, and a
target of an assignment that is no name. A derivation without such errors is one of the
grammar proper.
-/

namespace Lox.Grammar

/-- The levels of precedence, from the one that binds loosest. -/
inductive Level where
  | assignment
  | disjunction
  | conjunction
  | equality
  | comparison
  | term
  | factor
  | power
  | unary
  | call
  | primary
  deriving DecidableEq, Repr

namespace Level

/-- The level that binds tighter by one. -/
def tighter : Level → Level
  | assignment => disjunction
  | disjunction => conjunction
  | conjunction => equality
  | equality => comparison
  | comparison => term
  | term => factor
  | factor => power
  | power => unary
  | unary => call
  | call => primary
  | primary => primary

/-- The operators of a level whose operations group to the left. -/
def leftOperators : Level → List TokenKind
  | disjunction => [.orWord]
  | conjunction => [.andWord]
  | equality => [.bangEqual, .equalEqual]
  | comparison => [.greater, .greaterEqual, .less, .lessEqual]
  | term => [.minus, .plus]
  | factor => [.slash, .star]
  | _ => []

/-- The node of an operation that groups to the left. -/
def operation : Level → Expr → Token → Expr → Expr
  | disjunction | conjunction => .logical
  | _ => .binary

/-- What holds of a level if it holds of the one that binds tighter by one, if there is one, holds
of all levels. -/
theorem induction {P : Level → Prop} (step : ∀ l, (l ≠ .primary → P l.tighter) → P l) :
    ∀ l, P l := by
  have primary : P .primary := step _ fun h => absurd rfl h
  have call := step .call fun _ => primary
  have unary := step .unary fun _ => call
  have power := step .power fun _ => unary
  have factor := step .factor fun _ => power
  have term := step .term fun _ => factor
  have comparison := step .comparison fun _ => term
  have equality := step .equality fun _ => comparison
  have conjunction := step .conjunction fun _ => equality
  have disjunction := step .disjunction fun _ => conjunction
  have assignment := step .assignment fun _ => disjunction
  intro l
  cases l <;> assumption

end Level

/-- What is open around a phrase: a loop in the innermost function, and a function. -/
structure Context where
  inLoop : Bool
  inFunction : Bool
  deriving DecidableEq, Repr

namespace Context

/-- Outside every loop and function. -/
def top : Context := ⟨false, false⟩

/-- In the body of a loop. -/
def loop (c : Context) : Context := { c with inLoop := true }

/-- In the body of a function: no loop outside it counts. -/
def function : Context := ⟨false, true⟩

end Context

/-- What is open around the place of a parse. -/
def State.context (s : State) : Context := ⟨s.loops ≠ 0, s.functions ≠ 0⟩

/-- An error at a token, unless all is well. -/
def objection (fine : Bool) (token : Token) (message : String) : List SyntaxError :=
  if fine then [] else [.atToken token message]

@[simp] theorem objection_true (token : Token) (message : String) :
    objection true token message = [] := rfl

/-- The error at the first token of an item that has `maxArity` items before it. -/
def excess (index : Nat) (tokens : List Token) (message : String) : List SyntaxError :=
  if maxArity ≤ index then (tokens.head?.map (SyntaxError.atToken · message)).toList else []

/-- Tokens that stand for something, and what is wrong with them. -/
abbrev Phrase (α : Type) := List Token → α → List SyntaxError → Prop

/-- Items with commas between them; the first of them is the one with the given index. -/
inductive Separated (message : String) (item : Phrase α) : Nat → Phrase (List α) where
  | last : item ts a errs → Separated message item i ts [a] (excess i ts message ++ errs)
  | comma : item ts a errs → comma.kind = .comma → Separated message item (i + 1) us as rest →
      Separated message item i (ts ++ comma :: us) (a :: as)
        (excess i ts message ++ (errs ++ rest))

/-- Items with commas between them, or none. -/
inductive Listed (message : String) (item : Phrase α) : Phrase (List α) where
  | none : Listed message item [] [] []
  | some : Separated message item 0 ts as errs → Listed message item ts as errs

/-- A phrase that may be left out. -/
inductive Optional (item : Phrase α) : Phrase (Option α) where
  | absent : Optional item [] none []
  | present : item ts a errs → Optional item ts (some a) errs

/-- One parameter. -/
inductive Parameter : Phrase Token where
  | name : name.kind = .identifier → Parameter [name] name []

/-- The value of a token that is a literal. -/
inductive Denotes (token : Token) : Value → Prop where
  | falseWord : token.kind = .falseWord → Denotes token (.bool false)
  | trueWord : token.kind = .trueWord → Denotes token (.bool true)
  | nilWord : token.kind = .nilWord → Denotes token .nil
  | number : token.kind = .number → Denotes token (literalValue token)
  | string : token.kind = .string → Denotes token (literalValue token)

mutual

/-- Expressions of a level. -/
inductive DerivesExpr : Level → Phrase Expr where
  /-- What binds tighter stands wherever something looser does. -/
  | tighter : l ≠ .primary → DerivesExpr l.tighter ts e errs → DerivesExpr l ts e errs
  | assign : name.kind = .identifier → equals.kind = .equal →
      DerivesExpr .assignment ts value errs →
      DerivesExpr .assignment (name :: equals :: ts) (.assign name value) errs
  /-- A target that is no name is wrong and stands for the whole. -/
  | assignOther : DerivesExpr .disjunction ts target errs → (∀ name, target ≠ .variable name) →
      equals.kind = .equal → DerivesExpr .assignment us value rest →
      DerivesExpr .assignment (ts ++ equals :: us) target
        (errs ++ (rest ++ [.atToken equals "Invalid assignment target."]))
  | operation : DerivesExpr l ts left errs → operator.kind ∈ l.leftOperators →
      DerivesExpr l.tighter us right rest →
      DerivesExpr l (ts ++ operator :: us) (l.operation left operator right) (errs ++ rest)
  | power : DerivesExpr .unary ts base errs → operator.kind = .starStar →
      DerivesExpr .power us exponent rest →
      DerivesExpr .power (ts ++ operator :: us) (.binary base operator exponent) (errs ++ rest)
  | unary : operator.kind ∈ [.bang, .minus] → DerivesExpr .unary ts operand errs →
      DerivesExpr .unary (operator :: ts) (.unary operator operand) errs
  | call : DerivesExpr .call ts callee errs → opening.kind = .leftParen →
      Listed "Can't have more than 255 arguments." (DerivesExpr .assignment) us arguments rest →
      closing.kind = .rightParen →
      DerivesExpr .call (ts ++ opening :: (us ++ [closing])) (.call callee closing arguments)
        (errs ++ rest)
  | grouping : opening.kind = .leftParen → DerivesExpr .assignment ts e errs →
      closing.kind = .rightParen →
      DerivesExpr .primary (opening :: (ts ++ [closing])) (.grouping e) errs
  | literal : Denotes token value → DerivesExpr .primary [token] (.literal value) []
  | variable : name.kind = .identifier → DerivesExpr .primary [name] (.variable name) []
  | lambda : keyword.kind = .funWord → DerivesFunction ts (params, body) errs →
      DerivesExpr .primary (keyword :: ts) (.lambda (.mk none params body)) errs

/-- The parameters and the body of a function. -/
inductive DerivesFunction : Phrase (List Token × List Stmt) where
  | mk : opening.kind = .leftParen →
      Listed "Can't have more than 255 parameters." Parameter ts params errs →
      closing.kind = .rightParen → leftBrace.kind = .leftBrace →
      DerivesDecls .function us body rest → rightBrace.kind = .rightBrace →
      DerivesFunction (opening :: (ts ++ closing :: leftBrace :: (us ++ [rightBrace])))
        (params, body) (errs ++ rest)

/-- A variable, after the word `var`. -/
inductive DerivesVar : Phrase Stmt where
  | plain : name.kind = .identifier → semicolon.kind = .semicolon →
      DerivesVar [name, semicolon] (.var name none) []
  | initialized : name.kind = .identifier → equals.kind = .equal →
      DerivesExpr .assignment ts value errs → semicolon.kind = .semicolon →
      DerivesVar (name :: equals :: (ts ++ [semicolon])) (.var name (some value)) errs

/-- The first clause of a `for`, with its semicolon. -/
inductive DerivesFirstClause : Phrase (Option Stmt) where
  | absent : semicolon.kind = .semicolon → DerivesFirstClause [semicolon] none []
  | var : keyword.kind = .varWord → DerivesVar ts s errs →
      DerivesFirstClause (keyword :: ts) (some s) errs
  | expression : DerivesExpr .assignment ts e errs → semicolon.kind = .semicolon →
      DerivesFirstClause (ts ++ [semicolon]) (some (.expression e)) errs

/-- Statements that are no declarations. The flag tells that the last `if` in a statement is without
`else`, so that one after it would belong to it. -/
inductive DerivesStmt : Context → Bool → Phrase Stmt where
  | expression : DerivesExpr .assignment ts e errs → semicolon.kind = .semicolon →
      DerivesStmt c false (ts ++ [semicolon]) (.expression e) errs
  | block : opening.kind = .leftBrace → DerivesDecls c ts body errs →
      closing.kind = .rightBrace →
      DerivesStmt c false (opening :: (ts ++ [closing])) (.block body) errs
  | ifThen : keyword.kind = .ifWord → opening.kind = .leftParen →
      DerivesExpr .assignment ts condition errs → closing.kind = .rightParen →
      DerivesStmt c dangling us thenBranch rest →
      DerivesStmt c true (keyword :: opening :: (ts ++ closing :: us))
        (.ifElse condition thenBranch none) (errs ++ rest)
  | ifElse : keyword.kind = .ifWord → opening.kind = .leftParen →
      DerivesExpr .assignment ts condition errs → closing.kind = .rightParen →
      DerivesStmt c false us thenBranch rest → elseWord.kind = .elseWord →
      DerivesStmt c dangling vs elseBranch last →
      DerivesStmt c dangling (keyword :: opening :: (ts ++ closing :: (us ++ elseWord :: vs)))
        (.ifElse condition thenBranch (some elseBranch)) (errs ++ (rest ++ last))
  | while : keyword.kind = .whileWord → opening.kind = .leftParen →
      DerivesExpr .assignment ts condition errs → closing.kind = .rightParen →
      DerivesStmt c.loop dangling us body rest →
      DerivesStmt c dangling (keyword :: opening :: (ts ++ closing :: us))
        (.while condition body) (errs ++ rest)
  | for : keyword.kind = .forWord → opening.kind = .leftParen →
      DerivesFirstClause ts initializer errs →
      Optional (DerivesExpr .assignment) us condition errs₂ → semicolon.kind = .semicolon →
      Optional (DerivesExpr .assignment) vs increment errs₃ → closing.kind = .rightParen →
      DerivesStmt c.loop dangling ws body rest →
      DerivesStmt c dangling
        (keyword :: opening :: (ts ++ (us ++ semicolon :: (vs ++ closing :: ws))))
        (forLoop initializer condition increment body) (errs ++ (errs₂ ++ (errs₃ ++ rest)))
  | break : keyword.kind = .breakWord → semicolon.kind = .semicolon →
      DerivesStmt c false [keyword, semicolon] .break
        (objection c.inLoop keyword "Cannot use 'break' outside of a loop.")
  | continue : keyword.kind = .continueWord → semicolon.kind = .semicolon →
      DerivesStmt c false [keyword, semicolon] .continue
        (objection c.inLoop keyword "Cannot use 'continue' outside of a loop.")
  | return : keyword.kind = .returnWord → Optional (DerivesExpr .assignment) ts value errs →
      semicolon.kind = .semicolon →
      DerivesStmt c false (keyword :: (ts ++ [semicolon])) (.return value)
        (objection c.inFunction keyword "Cannot return from top-level code." ++ errs)

/-- Declarations and statements. What starts with the word `fun` here is a function with a name. -/
inductive DerivesDecl : Context → Phrase Stmt where
  | function : keyword.kind = .funWord → name.kind = .identifier →
      DerivesFunction ts (params, body) errs →
      DerivesDecl c (keyword :: name :: ts) (.function (.mk (some name) params body)) errs
  | var : keyword.kind = .varWord → DerivesVar ts s errs → DerivesDecl c (keyword :: ts) s errs
  | statement : DerivesStmt c dangling ts s errs → (∀ t ∈ ts.head?, t.kind ≠ .funWord) →
      DerivesDecl c ts s errs

/-- Declarations one after another. -/
inductive DerivesDecls : Context → Phrase (List Stmt) where
  | nil : DerivesDecls c [] [] []
  | cons : DerivesDecl c ts s errs → DerivesDecls c us rest errs' →
      DerivesDecls c (ts ++ us) (s :: rest) (errs ++ errs')

end

/-- A name as an expression is one token. -/
theorem DerivesExpr.of_variable {l : Level} {ts : List Token} {e : Expr} {errs : List SyntaxError}
    {name : Token} (h : DerivesExpr l ts e errs) (he : e = .variable name) :
    ts = [name] ∧ name.kind = .identifier := by
  induction l using Level.induction with
  | step l ih =>
    cases h with
    | tighter hl h => exact ih hl h
    | «variable» hname =>
      cases he
      exact ⟨rfl, hname⟩
    | assignOther _ other => exact absurd he (other name)
    | operation => cases l <;> contradiction
    | _ => contradiction

/-- The tokens of a program, in which nothing is wrong, and its statements. -/
def DerivesProgram (tokens : List Token) (statements : List Stmt) : Prop :=
  DerivesDecls .top tokens statements []

end Lox.Grammar
