import Lox.Proofs.Grammar.Writing

/-!
# Concrete syntax

Programs with all of their tokens, as the grammar has them before anything is asked about
where jumps stand, how long lists are and what is assigned to. An `else` may go with any
`if` that is open. Each program has a reading of the same tokens in which it goes with
the nearest one.
-/

namespace Lox.Concrete

open Grammar

/-- Items with commas between them. -/
inductive Items (α : Type) where
  | last (item : α)
  | more (item : α) (comma : Token) (rest : Items α)

mutual

inductive Expr where
  | literal (token : Token)
  | name (token : Token)
  | grouping (opening : Token) (inner : Expr) (closing : Token)
  | lambda (keyword : Token) (function : Function)
  | call (callee : Expr) (opening : Token) (arguments : Option (Items Expr)) (closing : Token)
  | unary (operator : Token) (operand : Expr)
  | binary (left : Expr) (operator : Token) (right : Expr)
  | assign (target : Expr) (equals : Token) (value : Expr)

/-- The parameters and the body of a function. -/
inductive Function where
  | mk (opening : Token) (params : Option (Items Token)) (closing leftBrace : Token)
    (body : List Stmt) (rightBrace : Token)

/-- A variable, after the word `var`. -/
inductive Variable where
  | plain (name semicolon : Token)
  | initialized (name equals : Token) (value : Expr) (semicolon : Token)

/-- The first clause of a `for`, with its semicolon. -/
inductive FirstClause where
  | absent (semicolon : Token)
  | var (keyword : Token) (declared : Variable)
  | expression (value : Expr) (semicolon : Token)

inductive Stmt where
  | expression (value : Expr) (semicolon : Token)
  | block (opening : Token) (body : List Stmt) (closing : Token)
  | ifThen (keyword opening : Token) (condition : Expr) (closing : Token) (thenBranch : Stmt)
  | ifElse (keyword opening : Token) (condition : Expr) (closing : Token) (thenBranch : Stmt)
    (elseWord : Token) (elseBranch : Stmt)
  | while (keyword opening : Token) (condition : Expr) (closing : Token) (body : Stmt)
  | for (keyword opening : Token) (first : FirstClause) (condition : Option Expr)
    (semicolon : Token) (increment : Option Expr) (closing : Token) (body : Stmt)
  | break (keyword semicolon : Token)
  | continue (keyword semicolon : Token)
  | return (keyword : Token) (value : Option Expr) (semicolon : Token)
  | function (keyword name : Token) (function : Function)
  | var (keyword : Token) (declared : Variable)

end

/-! ### Tokens -/

/-- Parameters, if there are any, with their commas. -/
def paramTokens : Items Token → List Token
  | .last name => [name]
  | .more name comma rest => name :: comma :: paramTokens rest

mutual

def Expr.tokens : Expr → List Token
  | .literal token | .name token => [token]
  | .grouping opening inner closing => opening :: (inner.tokens ++ [closing])
  | .lambda keyword function => keyword :: function.tokens
  | .call callee opening arguments closing =>
    callee.tokens ++ opening :: (Expr.argumentTokens arguments ++ [closing])
  | .unary operator operand => operator :: operand.tokens
  | .binary left operator right => left.tokens ++ operator :: right.tokens
  | .assign target equals value => target.tokens ++ equals :: value.tokens

/-- Arguments with their commas. -/
def Expr.itemTokens : Items Expr → List Token
  | .last e => e.tokens
  | .more e comma rest => e.tokens ++ comma :: Expr.itemTokens rest

def Expr.argumentTokens : Option (Items Expr) → List Token
  | none => []
  | some arguments => Expr.itemTokens arguments

/-- The tokens of an expression that may be left out. -/
def Expr.optionalTokens : Option Expr → List Token
  | none => []
  | some e => e.tokens

def Function.tokens : Function → List Token
  | .mk opening params closing leftBrace body rightBrace =>
    opening :: ((params.elim [] paramTokens) ++ closing :: leftBrace ::
      (Stmt.allTokens body ++ [rightBrace]))

def Variable.tokens : Variable → List Token
  | .plain name semicolon => [name, semicolon]
  | .initialized name equals value semicolon => name :: equals :: (value.tokens ++ [semicolon])

def FirstClause.tokens : FirstClause → List Token
  | .absent semicolon => [semicolon]
  | .var keyword declared => keyword :: declared.tokens
  | .expression value semicolon => value.tokens ++ [semicolon]

def Stmt.tokens : Stmt → List Token
  | .expression value semicolon => value.tokens ++ [semicolon]
  | .block opening body closing => opening :: (Stmt.allTokens body ++ [closing])
  | .ifThen keyword opening condition closing thenBranch =>
    keyword :: opening :: (condition.tokens ++ closing :: thenBranch.tokens)
  | .ifElse keyword opening condition closing thenBranch elseWord elseBranch =>
    keyword :: opening :: (condition.tokens ++ closing ::
      (thenBranch.tokens ++ elseWord :: elseBranch.tokens))
  | .while keyword opening condition closing body =>
    keyword :: opening :: (condition.tokens ++ closing :: body.tokens)
  | .for keyword opening first condition semicolon increment closing body =>
    keyword :: opening :: (first.tokens ++ (Expr.optionalTokens condition ++ semicolon ::
      (Expr.optionalTokens increment ++ closing :: body.tokens)))
  | .break keyword semicolon | .continue keyword semicolon => [keyword, semicolon]
  | .return keyword value semicolon => keyword :: (Expr.optionalTokens value ++ [semicolon])
  | .function keyword name function => keyword :: name :: function.tokens
  | .var keyword declared => keyword :: declared.tokens

def Stmt.allTokens : List Stmt → List Token
  | [] => []
  | s :: rest => s.tokens ++ Stmt.allTokens rest

end

/-! ### Well-formed programs -/

/-- The level of an operator between two operands. -/
def infixLevel? (kind : TokenKind) : Option Level := (binaryLevel? kind).or (logicalLevel? kind)

/-- The tokens that are literals. -/
def literalKinds : List TokenKind := [.falseWord, .trueWord, .nilWord, .number, .string]

def paramsFit : Items Token → Bool
  | .last name => name.kind = .identifier
  | .more name comma rest => name.kind = .identifier && comma.kind = .comma && paramsFit rest

namespace Stmt

/-- Whether a statement ends in an `if` without `else`. -/
def dangling : Stmt → Bool
  | .ifThen .. => true
  | .ifElse _ _ _ _ _ _ elseBranch => elseBranch.dangling
  | .while _ _ _ _ body | .for _ _ _ _ _ _ _ body => body.dangling
  | _ => false

def isDeclaration : Stmt → Bool
  | .var .. | .function .. => true
  | _ => false

/-- Whether an expression stands as a statement that starts with the word `fun`. -/
def startsWithFun (s : Stmt) : Bool :=
  match s with
  | .expression .. => s.tokens.head?.any (·.kind = .funWord)
  | _ => false

end Stmt

mutual

/-- Whether an expression is one of a level, and its parts are of their levels. With `nearest`, each
`else` in it goes with the nearest `if` that is open. -/
def Expr.fits (nearest : Bool) (l : Level) : Expr → Bool
  | .literal token => token.kind ∈ literalKinds
  | .name token => token.kind = .identifier
  | .grouping opening inner closing =>
    opening.kind = .leftParen && inner.fits nearest .assignment && closing.kind = .rightParen
  | .lambda keyword function => keyword.kind = .funWord && function.fits nearest
  | .call callee opening arguments closing =>
    l.rank ≤ Level.call.rank && callee.fits nearest .call && opening.kind = .leftParen &&
      Expr.argumentsFit nearest arguments && closing.kind = .rightParen
  | .unary operator operand =>
    l.rank ≤ Level.unary.rank && operator.kind ∈ [.bang, .minus] && operand.fits nearest .unary
  | .binary left operator right =>
    match infixLevel? operator.kind with
    | some k =>
      l.rank ≤ k.rank && left.fits nearest k.operands.1 && right.fits nearest k.operands.2
    | none => false
  | .assign target equals value =>
    l.rank ≤ Level.assignment.rank && target.fits nearest .disjunction && equals.kind = .equal &&
      value.fits nearest .assignment

def Expr.itemsFit (nearest : Bool) : Items Expr → Bool
  | .last e => e.fits nearest .assignment
  | .more e comma rest =>
    e.fits nearest .assignment && comma.kind = .comma && Expr.itemsFit nearest rest

def Expr.argumentsFit (nearest : Bool) : Option (Items Expr) → Bool
  | none => true
  | some arguments => Expr.itemsFit nearest arguments

def Expr.optionalFits (nearest : Bool) : Option Expr → Bool
  | none => true
  | some e => e.fits nearest .assignment

def Function.fits (nearest : Bool) : Function → Bool
  | .mk opening params closing leftBrace body rightBrace =>
    opening.kind = .leftParen && params.all paramsFit && closing.kind = .rightParen &&
      leftBrace.kind = .leftBrace && Stmt.allFit nearest body && rightBrace.kind = .rightBrace

def Variable.fits (nearest : Bool) : Variable → Bool
  | .plain name semicolon => name.kind = .identifier && semicolon.kind = .semicolon
  | .initialized name equals value semicolon =>
    name.kind = .identifier && equals.kind = .equal && value.fits nearest .assignment &&
      semicolon.kind = .semicolon

def FirstClause.fits (nearest : Bool) : FirstClause → Bool
  | .absent semicolon => semicolon.kind = .semicolon
  | .var keyword declared => keyword.kind = .varWord && declared.fits nearest
  | .expression value semicolon =>
    value.fits nearest .assignment && semicolon.kind = .semicolon

/-- Whether a statement is one of the grammar: branches and bodies are no declarations. -/
def Stmt.fits (nearest : Bool) : Stmt → Bool
  | .expression value semicolon =>
    value.fits nearest .assignment && semicolon.kind = .semicolon
  | .block opening body closing =>
    opening.kind = .leftBrace && Stmt.allFit nearest body && closing.kind = .rightBrace
  | .ifThen keyword opening condition closing thenBranch =>
    keyword.kind = .ifWord && opening.kind = .leftParen && condition.fits nearest .assignment &&
      closing.kind = .rightParen && thenBranch.fits nearest && !thenBranch.isDeclaration
  | .ifElse keyword opening condition closing thenBranch elseWord elseBranch =>
    keyword.kind = .ifWord && opening.kind = .leftParen && condition.fits nearest .assignment &&
      closing.kind = .rightParen && thenBranch.fits nearest && !thenBranch.isDeclaration &&
      !(nearest && thenBranch.dangling) && elseWord.kind = .elseWord &&
      elseBranch.fits nearest && !elseBranch.isDeclaration
  | .while keyword opening condition closing body =>
    keyword.kind = .whileWord && opening.kind = .leftParen &&
      condition.fits nearest .assignment && closing.kind = .rightParen && body.fits nearest &&
      !body.isDeclaration
  | .for keyword opening first condition semicolon increment closing body =>
    keyword.kind = .forWord && opening.kind = .leftParen && first.fits nearest &&
      Expr.optionalFits nearest condition && semicolon.kind = .semicolon &&
      Expr.optionalFits nearest increment && closing.kind = .rightParen && body.fits nearest &&
      !body.isDeclaration
  | .break keyword semicolon => keyword.kind = .breakWord && semicolon.kind = .semicolon
  | .continue keyword semicolon => keyword.kind = .continueWord && semicolon.kind = .semicolon
  | .return keyword value semicolon =>
    keyword.kind = .returnWord && Expr.optionalFits nearest value && semicolon.kind = .semicolon
  | .function keyword name function =>
    keyword.kind = .funWord && name.kind = .identifier && function.fits nearest
  | .var keyword declared => keyword.kind = .varWord && declared.fits nearest

/-- Whether statements are those of a program or a block. What starts with the word `fun` there is a
function with a name. -/
def Stmt.allFit (nearest : Bool) : List Stmt → Bool
  | [] => true
  | s :: rest => s.fits nearest && !s.startsWithFun && Stmt.allFit nearest rest

end

/-- Whether tokens are a program of the grammar. -/
def IsSentence (ts : List Token) : Prop :=
  ∃ program, Stmt.allFit false program ∧ Stmt.allTokens program = ts

/-! ### The end of the input -/

/-- None of the tokens ends the input. -/
def EndFree (ts : List Token) : Prop := ∀ t ∈ ts, t.kind ≠ .eof

namespace EndFree

variable {ts us : List Token} {t : Token}

@[simp] theorem nil : EndFree [] := fun _ h => nomatch h

@[simp] theorem cons : EndFree (t :: ts) ↔ t.kind ≠ .eof ∧ EndFree ts := List.forall_mem_cons

/-- Tokens in a row are none of them the end if those of both parts are not. -/
@[simp] theorem append : EndFree (ts ++ us) ↔ EndFree ts ∧ EndFree us := List.forall_mem_append

end EndFree

/-- The end of the input is no operator. -/
theorem infixLevel?_eof : infixLevel? .eof = none := rfl

/-- No parameter is the end of the input. -/
theorem endFree_params : ∀ (params : Items Token), paramsFit params → EndFree (paramTokens params)
  | .last name, hf => by
    rw [paramsFit, decide_eq_true_eq] at hf
    simp [paramTokens, hf]
  | .more name comma rest, hf => by
    simp only [paramsFit, Bool.and_eq_true, decide_eq_true_eq] at hf
    simp [paramTokens, hf.1.1, hf.1.2, endFree_params rest hf.2]

section

variable {nearest : Bool}

mutual

/-- No token of an expression is the end of the input. -/
theorem Expr.endFree : ∀ (e : Expr) {l : Level}, e.fits nearest l → EndFree e.tokens
  | .literal token, l, hf => by
    rw [Expr.fits, decide_eq_true_eq] at hf
    have ht : token.kind ≠ .eof := fun he => by simp [he, literalKinds] at hf
    simp [Expr.tokens, ht]
  | .name token, l, hf => by
    rw [Expr.fits, decide_eq_true_eq] at hf
    simp [Expr.tokens, hf]
  | .grouping opening inner closing, l, hf => by
    simp only [Expr.fits, Bool.and_eq_true, decide_eq_true_eq] at hf
    simp [Expr.tokens, hf.1.1, inner.endFree hf.1.2, hf.2]
  | .lambda keyword function, l, hf => by
    simp only [Expr.fits, Bool.and_eq_true, decide_eq_true_eq] at hf
    simp [Expr.tokens, hf.1, function.endFree hf.2]
  | .call callee opening arguments closing, l, hf => by
    simp only [Expr.fits, Bool.and_eq_true, decide_eq_true_eq] at hf
    simp [Expr.tokens, callee.endFree hf.1.1.1.2, hf.1.1.2, Expr.endFree_arguments arguments hf.1.2,
      hf.2]
  | .unary operator operand, l, hf => by
    simp only [Expr.fits, Bool.and_eq_true, decide_eq_true_eq] at hf
    have ho : operator.kind ≠ .eof := fun he => by simp [he] at hf
    simp [Expr.tokens, ho, operand.endFree hf.2]
  | .binary left operator right, l, hf => by
    rw [Expr.fits] at hf
    split at hf
    · next k hk =>
      simp only [Bool.and_eq_true] at hf
      have ho : operator.kind ≠ .eof := fun he => by simp [he, infixLevel?_eof] at hk
      simp [Expr.tokens, left.endFree hf.1.2, ho, right.endFree hf.2]
    · contradiction
  | .assign target equals value, l, hf => by
    simp only [Expr.fits, Bool.and_eq_true, decide_eq_true_eq] at hf
    simp [Expr.tokens, target.endFree hf.1.1.2, hf.1.2, value.endFree hf.2]

/-- No token of arguments is. -/
theorem Expr.endFree_items : ∀ (arguments : Items Expr), Expr.itemsFit nearest arguments →
    EndFree (Expr.itemTokens arguments)
  | .last e, hf => by
    rw [Expr.itemsFit] at hf
    simp [Expr.itemTokens, e.endFree hf]
  | .more e comma rest, hf => by
    simp only [Expr.itemsFit, Bool.and_eq_true, decide_eq_true_eq] at hf
    simp [Expr.itemTokens, e.endFree hf.1.1, hf.1.2, Expr.endFree_items rest hf.2]

theorem Expr.endFree_arguments : ∀ (arguments : Option (Items Expr)),
    Expr.argumentsFit nearest arguments → EndFree (Expr.argumentTokens arguments)
  | none, _ => .nil
  | some arguments, hf => by
    rw [Expr.argumentsFit] at hf
    simp [Expr.argumentTokens, Expr.endFree_items arguments hf]

/-- No token of a clause is, if there is one. -/
theorem Expr.endFree_optional : ∀ (e : Option Expr), Expr.optionalFits nearest e →
    EndFree (Expr.optionalTokens e)
  | none, _ => .nil
  | some e, hf => by
    rw [Expr.optionalFits] at hf
    simp [Expr.optionalTokens, e.endFree hf]

/-- No token of a function is. -/
theorem Function.endFree : ∀ (f : Function), f.fits nearest → EndFree f.tokens
  | .mk opening params closing leftBrace body rightBrace, hf => by
    simp only [Function.fits, Bool.and_eq_true, decide_eq_true_eq] at hf
    obtain ⟨⟨⟨⟨⟨hopening, hparams⟩, hclosing⟩, hleft⟩, hbody⟩, hright⟩ := hf
    have hnames : EndFree (params.elim [] paramTokens) := by
      cases params with
      | none => exact .nil
      | some params => exact endFree_params params hparams
    simp [Function.tokens, hopening, hnames, hclosing, hleft, Stmt.endFree_all body hbody, hright]

/-- No token of the declaration of a variable is. -/
theorem Variable.endFree : ∀ (v : Variable), v.fits nearest → EndFree v.tokens
  | .plain name semicolon, hf => by
    simp only [Variable.fits, Bool.and_eq_true, decide_eq_true_eq] at hf
    simp [Variable.tokens, hf]
  | .initialized name equals value semicolon, hf => by
    simp only [Variable.fits, Bool.and_eq_true, decide_eq_true_eq] at hf
    simp [Variable.tokens, hf.1.1, value.endFree hf.1.2, hf.2]

/-- No token of the first clause of a loop is. -/
theorem FirstClause.endFree : ∀ (first : FirstClause), first.fits nearest → EndFree first.tokens
  | .absent semicolon, hf => by
    rw [FirstClause.fits, decide_eq_true_eq] at hf
    simp [FirstClause.tokens, hf]
  | .var keyword declared, hf => by
    simp only [FirstClause.fits, Bool.and_eq_true, decide_eq_true_eq] at hf
    simp [FirstClause.tokens, hf.1, declared.endFree hf.2]
  | .expression value semicolon, hf => by
    simp only [FirstClause.fits, Bool.and_eq_true, decide_eq_true_eq] at hf
    simp [FirstClause.tokens, value.endFree hf.1, hf.2]

/-- No token of a statement is the end of the input. -/
theorem Stmt.endFree : ∀ (s : Stmt), s.fits nearest → EndFree s.tokens
  | .expression value semicolon, hf => by
    simp only [Stmt.fits, Bool.and_eq_true, decide_eq_true_eq] at hf
    simp [Stmt.tokens, value.endFree hf.1, hf.2]
  | .block opening body closing, hf => by
    simp only [Stmt.fits, Bool.and_eq_true, decide_eq_true_eq] at hf
    simp [Stmt.tokens, hf.1.1, Stmt.endFree_all body hf.1.2, hf.2]
  | .ifThen keyword opening condition closing thenBranch, hf => by
    simp only [Stmt.fits, Bool.and_eq_true, decide_eq_true_eq] at hf
    obtain ⟨⟨⟨⟨⟨hkeyword, hopening⟩, hcondition⟩, hclosing⟩, hthen⟩, _⟩ := hf
    simp [Stmt.tokens, hkeyword, hopening, condition.endFree hcondition, hclosing,
      thenBranch.endFree hthen]
  | .ifElse keyword opening condition closing thenBranch elseWord elseBranch, hf => by
    simp only [Stmt.fits, Bool.and_eq_true, decide_eq_true_eq] at hf
    obtain ⟨⟨⟨⟨⟨⟨⟨⟨⟨hkeyword, hopening⟩, hcondition⟩, hclosing⟩, hthen⟩, _⟩, _⟩, hword⟩, helse⟩,
      _⟩ := hf
    simp [Stmt.tokens, hkeyword, hopening, condition.endFree hcondition, hclosing,
      thenBranch.endFree hthen, hword, elseBranch.endFree helse]
  | .while keyword opening condition closing body, hf => by
    simp only [Stmt.fits, Bool.and_eq_true, decide_eq_true_eq] at hf
    obtain ⟨⟨⟨⟨⟨hkeyword, hopening⟩, hcondition⟩, hclosing⟩, hbody⟩, _⟩ := hf
    simp [Stmt.tokens, hkeyword, hopening, condition.endFree hcondition, hclosing,
      body.endFree hbody]
  | .for keyword opening first condition semicolon increment closing body, hf => by
    simp only [Stmt.fits, Bool.and_eq_true, decide_eq_true_eq] at hf
    obtain ⟨⟨⟨⟨⟨⟨⟨⟨hkeyword, hopening⟩, hfirst⟩, hcondition⟩, hsemi⟩, hincrement⟩, hclosing⟩,
      hbody⟩, _⟩ := hf
    simp [Stmt.tokens, hkeyword, hopening, first.endFree hfirst,
      Expr.endFree_optional condition hcondition, hsemi,
      Expr.endFree_optional increment hincrement, hclosing, body.endFree hbody]
  | .break keyword semicolon, hf => by
    simp only [Stmt.fits, Bool.and_eq_true, decide_eq_true_eq] at hf
    simp [Stmt.tokens, hf]
  | .continue keyword semicolon, hf => by
    simp only [Stmt.fits, Bool.and_eq_true, decide_eq_true_eq] at hf
    simp [Stmt.tokens, hf]
  | .return keyword value semicolon, hf => by
    simp only [Stmt.fits, Bool.and_eq_true, decide_eq_true_eq] at hf
    simp [Stmt.tokens, hf.1.1, Expr.endFree_optional value hf.1.2, hf.2]
  | .function keyword name function, hf => by
    simp only [Stmt.fits, Bool.and_eq_true, decide_eq_true_eq] at hf
    simp [Stmt.tokens, hf.1.1, hf.1.2, function.endFree hf.2]
  | .var keyword declared, hf => by
    simp only [Stmt.fits, Bool.and_eq_true, decide_eq_true_eq] at hf
    simp [Stmt.tokens, hf.1, declared.endFree hf.2]

/-- No token of a program is. -/
theorem Stmt.endFree_all : ∀ (program : List Stmt), Stmt.allFit nearest program →
    EndFree (Stmt.allTokens program)
  | [], _ => .nil
  | s :: rest, hf => by
    simp only [Stmt.allFit, Bool.and_eq_true] at hf
    simp [Stmt.allTokens, s.endFree hf.1.1, Stmt.endFree_all rest hf.2]

end

end

/-! ### The nearest `if` -/

/-- A statement that may stand for another one: it is well-formed, of the same tokens and as much of
a declaration. -/
structure Stmt.Settles (s s' : Stmt) : Prop where
  fits : s'.fits true
  tokens : s'.tokens = s.tokens
  isDeclaration : s'.isDeclaration = s.isDeclaration
  startsWithFun : s'.startsWithFun = s.startsWithFun

/-- A branch goes to the last `if` of a statement that is without one. -/
theorem Stmt.exists_attached {elseWord : Token} {branch : Stmt} (hw : elseWord.kind = .elseWord)
    (hb : branch.fits true) (hdecl : branch.isDeclaration = false) :
    ∀ s : Stmt, s.fits true → s.dangling → ∃ s' : Stmt, s'.fits true ∧
      s'.tokens = s.tokens ++ elseWord :: branch.tokens ∧ s'.isDeclaration = false ∧
      s'.startsWithFun = false
  | .ifThen keyword opening condition closing thenBranch, hf, _ => by
    simp only [Stmt.fits, Bool.and_eq_true, Bool.not_eq_true'] at hf
    cases hd : thenBranch.dangling with
    | true =>
      obtain ⟨s', hfits, htokens, hs', _⟩ :=
        Stmt.exists_attached hw hb hdecl thenBranch hf.1.2 hd
      refine ⟨.ifThen keyword opening condition closing s', ?_, ?_, rfl, rfl⟩
      · simp only [Stmt.fits, hf.1.1, hfits, hs', Bool.not_false, Bool.and_self]
      · simp only [Stmt.tokens, htokens, List.cons_append, List.append_assoc]
    | false =>
      refine ⟨.ifElse keyword opening condition closing thenBranch elseWord branch, ?_, ?_, rfl,
        rfl⟩
      · simp [Stmt.fits, hf.1.1, hf.1.2, hf.2, hd, hw, hb, hdecl]
      · simp only [Stmt.tokens, List.cons_append, List.append_assoc]
  | .ifElse keyword opening condition closing thenBranch word elseBranch, hf, hd => by
    simp only [Stmt.fits, Bool.and_eq_true, Bool.not_eq_true'] at hf
    obtain ⟨s', hfits, htokens, hs', _⟩ :=
      Stmt.exists_attached hw hb hdecl elseBranch hf.1.2 hd
    refine ⟨.ifElse keyword opening condition closing thenBranch word s', ?_, ?_, rfl, rfl⟩
    · simp only [Stmt.fits, hf.1.1, hfits, hs', Bool.not_false, Bool.and_self]
    · simp only [Stmt.tokens, htokens, List.cons_append, List.append_assoc]
  | .while keyword opening condition closing body, hf, hd => by
    simp only [Stmt.fits, Bool.and_eq_true, Bool.not_eq_true'] at hf
    obtain ⟨s', hfits, htokens, hs', _⟩ := Stmt.exists_attached hw hb hdecl body hf.1.2 hd
    refine ⟨.while keyword opening condition closing s', ?_, ?_, rfl, rfl⟩
    · simp [Stmt.fits, hf.1.1, hfits, hs']
    · simp only [Stmt.tokens, htokens, List.cons_append, List.append_assoc]
  | .for keyword opening first condition semicolon increment closing body, hf, hd => by
    simp only [Stmt.fits, Bool.and_eq_true, Bool.not_eq_true'] at hf
    obtain ⟨s', hfits, htokens, hs', _⟩ := Stmt.exists_attached hw hb hdecl body hf.1.2 hd
    refine ⟨.for keyword opening first condition semicolon increment closing s', ?_, ?_, rfl, rfl⟩
    · simp [Stmt.fits, hf.1.1, hfits, hs']
    · simp only [Stmt.tokens, htokens, List.cons_append, List.append_assoc]
  | .expression .., _, hd | .block .., _, hd | .break .., _, hd | .continue .., _, hd
  | .return .., _, hd | .function .., _, hd | .var .., _, hd => by contradiction

mutual

/-- An expression whose `else`s are attached anywhere has the tokens of one in which each is
attached to the nearest `if`. -/
theorem Expr.exists_nearest : ∀ (e : Expr) {l : Level}, e.fits false l →
    ∃ e' : Expr, e'.fits true l ∧ e'.tokens = e.tokens
  | .literal token, _, hf => ⟨.literal token, hf, rfl⟩
  | .name token, _, hf => ⟨.name token, hf, rfl⟩
  | .grouping opening inner closing, l, hf => by
    simp only [Expr.fits, Bool.and_eq_true] at hf
    obtain ⟨inner', hinner, hts⟩ := inner.exists_nearest hf.1.2
    refine ⟨.grouping opening inner' closing, ?_, ?_⟩
    · simp only [Expr.fits, hf.1.1, hinner, hf.2, Bool.and_self]
    · simp only [Expr.tokens, hts]
  | .lambda keyword function, l, hf => by
    simp only [Expr.fits, Bool.and_eq_true] at hf
    obtain ⟨function', hfunction, hts⟩ := function.exists_nearest hf.2
    refine ⟨.lambda keyword function', ?_, ?_⟩
    · simp only [Expr.fits, hf.1, hfunction, Bool.and_self]
    · simp only [Expr.tokens, hts]
  | .call callee opening arguments closing, l, hf => by
    simp only [Expr.fits, Bool.and_eq_true] at hf
    obtain ⟨callee', hcallee, hts⟩ := callee.exists_nearest hf.1.1.1.2
    obtain ⟨arguments', harguments, hus⟩ := Expr.exists_nearest_arguments arguments hf.1.2
    refine ⟨.call callee' opening arguments' closing, ?_, ?_⟩
    · simp only [Expr.fits, hf.1.1.1.1, hcallee, hf.1.1.2, harguments, hf.2, Bool.and_self]
    · simp only [Expr.tokens, hts, hus]
  | .unary operator operand, l, hf => by
    simp only [Expr.fits, Bool.and_eq_true] at hf
    obtain ⟨operand', hoperand, hts⟩ := operand.exists_nearest hf.2
    refine ⟨.unary operator operand', ?_, ?_⟩
    · simp only [Expr.fits, hf.1.1, hf.1.2, hoperand, Bool.and_self]
    · simp only [Expr.tokens, hts]
  | .binary left operator right, l, hf => by
    rw [Expr.fits] at hf
    split at hf
    · next k hk =>
      simp only [Bool.and_eq_true] at hf
      obtain ⟨left', hleft, hts⟩ := left.exists_nearest hf.1.2
      obtain ⟨right', hright, hus⟩ := right.exists_nearest hf.2
      refine ⟨.binary left' operator right', ?_, ?_⟩
      · simp only [Expr.fits, hk, hf.1.1, hleft, hright, Bool.and_self]
      · simp only [Expr.tokens, hts, hus]
    · contradiction
  | .assign target equals value, l, hf => by
    simp only [Expr.fits, Bool.and_eq_true] at hf
    obtain ⟨target', htarget, hts⟩ := target.exists_nearest hf.1.1.2
    obtain ⟨value', hvalue, hus⟩ := value.exists_nearest hf.2
    refine ⟨.assign target' equals value', ?_, ?_⟩
    · simp only [Expr.fits, hf.1.1.1, htarget, hf.1.2, hvalue, Bool.and_self]
    · simp only [Expr.tokens, hts, hus]

/-- So have items separated by commas. -/
theorem Expr.exists_nearest_items : ∀ (arguments : Items Expr), Expr.itemsFit false arguments →
    ∃ arguments', Expr.itemsFit true arguments' ∧
      Expr.itemTokens arguments' = Expr.itemTokens arguments
  | .last e, hf => by
    rw [Expr.itemsFit] at hf
    obtain ⟨e', he, hts⟩ := e.exists_nearest hf
    exact ⟨.last e', by rwa [Expr.itemsFit], by simpa only [Expr.itemTokens] using hts⟩
  | .more e comma rest, hf => by
    simp only [Expr.itemsFit, Bool.and_eq_true] at hf
    obtain ⟨e', he, hts⟩ := e.exists_nearest hf.1.1
    obtain ⟨rest', hrest, hus⟩ := Expr.exists_nearest_items rest hf.2
    refine ⟨.more e' comma rest', ?_, ?_⟩
    · simp only [Expr.itemsFit, he, hf.1.2, hrest, Bool.and_self]
    · simp only [Expr.itemTokens, hts, hus]

theorem Expr.exists_nearest_arguments : ∀ (arguments : Option (Items Expr)),
    Expr.argumentsFit false arguments → ∃ arguments', Expr.argumentsFit true arguments' ∧
      Expr.argumentTokens arguments' = Expr.argumentTokens arguments
  | none, _ => ⟨none, rfl, rfl⟩
  | some arguments, hf => by
    rw [Expr.argumentsFit] at hf
    obtain ⟨arguments', harguments, hts⟩ := Expr.exists_nearest_items arguments hf
    refine ⟨some arguments', ?_, ?_⟩
    · rwa [Expr.argumentsFit]
    · simpa only [Expr.argumentTokens] using hts

/-- So has a clause, if there is one. -/
theorem Expr.exists_nearest_optional : ∀ (e : Option Expr), Expr.optionalFits false e →
    ∃ e', Expr.optionalFits true e' ∧ Expr.optionalTokens e' = Expr.optionalTokens e
  | none, _ => ⟨none, rfl, rfl⟩
  | some e, hf => by
    rw [Expr.optionalFits] at hf
    obtain ⟨e', he, hts⟩ := e.exists_nearest hf
    refine ⟨some e', ?_, ?_⟩
    · rwa [Expr.optionalFits]
    · simpa only [Expr.optionalTokens] using hts

/-- So has a function. -/
theorem Function.exists_nearest : ∀ (f : Function), f.fits false →
    ∃ f' : Function, f'.fits true ∧ f'.tokens = f.tokens
  | .mk opening params closing leftBrace body rightBrace, hf => by
    simp only [Function.fits, Bool.and_eq_true] at hf
    obtain ⟨body', hbody, hts⟩ := Stmt.exists_nearest_all body hf.1.2
    refine ⟨.mk opening params closing leftBrace body' rightBrace, ?_, ?_⟩
    · simp only [Function.fits, hf.1.1, hbody, hf.2, Bool.and_self]
    · simp only [Function.tokens, hts]

/-- So has the declaration of a variable. -/
theorem Variable.exists_nearest : ∀ (v : Variable), v.fits false →
    ∃ v' : Variable, v'.fits true ∧ v'.tokens = v.tokens
  | .plain name semicolon, hf => ⟨.plain name semicolon, hf, rfl⟩
  | .initialized name equals value semicolon, hf => by
    simp only [Variable.fits, Bool.and_eq_true] at hf
    obtain ⟨value', hvalue, hts⟩ := value.exists_nearest hf.1.2
    refine ⟨.initialized name equals value' semicolon, ?_, ?_⟩
    · simp only [Variable.fits, hf.1.1, hvalue, hf.2, Bool.and_self]
    · simp only [Variable.tokens, hts]

/-- So has the first clause of a loop. -/
theorem FirstClause.exists_nearest : ∀ (first : FirstClause), first.fits false →
    ∃ first' : FirstClause, first'.fits true ∧ first'.tokens = first.tokens
  | .absent semicolon, hf => ⟨.absent semicolon, hf, rfl⟩
  | .var keyword declared, hf => by
    simp only [FirstClause.fits, Bool.and_eq_true] at hf
    obtain ⟨declared', hdeclared, hts⟩ := declared.exists_nearest hf.2
    refine ⟨.var keyword declared', ?_, ?_⟩
    · simp only [FirstClause.fits, hf.1, hdeclared, Bool.and_self]
    · simp only [FirstClause.tokens, hts]
  | .expression value semicolon, hf => by
    simp only [FirstClause.fits, Bool.and_eq_true] at hf
    obtain ⟨value', hvalue, hts⟩ := value.exists_nearest hf.1
    refine ⟨.expression value' semicolon, ?_, ?_⟩
    · simp only [FirstClause.fits, hvalue, hf.2, Bool.and_self]
    · simp only [FirstClause.tokens, hts]

/-- A statement whose `else`s are attached anywhere can be settled. -/
theorem Stmt.exists_nearest : ∀ (s : Stmt), s.fits false → ∃ s', s.Settles s'
  | .expression value semicolon, hf => by
    simp only [Stmt.fits, Bool.and_eq_true] at hf
    obtain ⟨value', hvalue, hts⟩ := value.exists_nearest hf.1
    have tokens :
        (Stmt.expression value' semicolon).tokens = (Stmt.expression value semicolon).tokens := by
      simp only [Stmt.tokens, hts]
    refine ⟨.expression value' semicolon, ?_, tokens, rfl, ?_⟩
    · simp only [Stmt.fits, hvalue, hf.2, Bool.and_self]
    · simp only [Stmt.startsWithFun, tokens]
  | .block opening body closing, hf => by
    simp only [Stmt.fits, Bool.and_eq_true] at hf
    obtain ⟨body', hbody, hts⟩ := Stmt.exists_nearest_all body hf.1.2
    refine ⟨.block opening body' closing, ?_, ?_, rfl, rfl⟩
    · simp only [Stmt.fits, hf.1.1, hbody, hf.2, Bool.and_self]
    · simp only [Stmt.tokens, hts]
  | .ifThen keyword opening condition closing thenBranch, hf => by
    simp only [Stmt.fits, Bool.and_eq_true, Bool.not_eq_true'] at hf
    obtain ⟨condition', hcondition, hts⟩ := condition.exists_nearest hf.1.1.1.2
    obtain ⟨thenBranch', hthen⟩ := thenBranch.exists_nearest hf.1.2
    refine ⟨.ifThen keyword opening condition' closing thenBranch', ?_, ?_, rfl, rfl⟩
    · simp [Stmt.fits, hf.1.1.1.1, hcondition, hf.1.1.2, hthen.fits, hthen.isDeclaration, hf.2]
    · simp only [Stmt.tokens, hts, hthen.tokens]
  | .ifElse keyword opening condition closing thenBranch elseWord elseBranch, hf => by
    simp only [Stmt.fits, Bool.and_eq_true, Bool.not_eq_true', Bool.false_and, Bool.not_false,
      and_true, decide_eq_true_eq] at hf
    obtain ⟨⟨⟨⟨⟨⟨⟨hopen, hcondition⟩, hclosing⟩, hthen⟩, hdecl⟩, hword⟩, helse⟩, hdecl'⟩ := hf
    obtain ⟨condition', hcondition, hts⟩ := condition.exists_nearest hcondition
    obtain ⟨thenBranch', hthen⟩ := thenBranch.exists_nearest hthen
    obtain ⟨elseBranch', helse⟩ := elseBranch.exists_nearest helse
    have hdecl := hthen.isDeclaration.trans hdecl
    have hdecl' := helse.isDeclaration.trans hdecl'
    cases hd : thenBranch'.dangling with
    | false =>
      refine ⟨.ifElse keyword opening condition' closing thenBranch' elseWord elseBranch', ?_, ?_,
        rfl, rfl⟩
      · simp [Stmt.fits, hopen, hcondition, hclosing, hthen.fits, hdecl, hd, hword, helse.fits,
          hdecl']
      · simp only [Stmt.tokens, hts, hthen.tokens, helse.tokens]
    | true =>
      obtain ⟨s, hs, hus, hsdecl, _⟩ :=
        Stmt.exists_attached hword helse.fits hdecl' thenBranch' hthen.fits hd
      refine ⟨.ifThen keyword opening condition' closing s, ?_, ?_, rfl, rfl⟩
      · simp [Stmt.fits, hopen, hcondition, hclosing, hs, hsdecl]
      · simp only [Stmt.tokens, hts, hus, hthen.tokens, helse.tokens]
  | .while keyword opening condition closing body, hf => by
    simp only [Stmt.fits, Bool.and_eq_true, Bool.not_eq_true'] at hf
    obtain ⟨condition', hcondition, hts⟩ := condition.exists_nearest hf.1.1.1.2
    obtain ⟨body', hbody⟩ := body.exists_nearest hf.1.2
    refine ⟨.while keyword opening condition' closing body', ?_, ?_, rfl, rfl⟩
    · simp [Stmt.fits, hf.1.1.1.1, hcondition, hf.1.1.2, hbody.fits, hbody.isDeclaration, hf.2]
    · simp only [Stmt.tokens, hts, hbody.tokens]
  | .for keyword opening first condition semicolon increment closing body, hf => by
    simp only [Stmt.fits, Bool.and_eq_true, Bool.not_eq_true'] at hf
    obtain ⟨⟨⟨⟨⟨⟨⟨hopen, hfirst⟩, hcondition⟩, hsemi⟩, hincrement⟩, hclosing⟩, hbody⟩, hdecl⟩ := hf
    obtain ⟨first', hfirst, hts⟩ := first.exists_nearest hfirst
    obtain ⟨condition', hcondition, hus⟩ := Expr.exists_nearest_optional condition hcondition
    obtain ⟨increment', hincrement, hvs⟩ := Expr.exists_nearest_optional increment hincrement
    obtain ⟨body', hbody⟩ := body.exists_nearest hbody
    refine ⟨.for keyword opening first' condition' semicolon increment' closing body', ?_, ?_, rfl,
      rfl⟩
    · simp [Stmt.fits, hopen, hfirst, hcondition, hsemi, hincrement, hclosing, hbody.fits,
        hbody.isDeclaration, hdecl]
    · simp only [Stmt.tokens, hts, hus, hvs, hbody.tokens]
  | .break keyword semicolon, hf => ⟨.break keyword semicolon, hf, rfl, rfl, rfl⟩
  | .continue keyword semicolon, hf => ⟨.continue keyword semicolon, hf, rfl, rfl, rfl⟩
  | .return keyword value semicolon, hf => by
    simp only [Stmt.fits, Bool.and_eq_true] at hf
    obtain ⟨value', hvalue, hts⟩ := Expr.exists_nearest_optional value hf.1.2
    refine ⟨.return keyword value' semicolon, ?_, ?_, rfl, rfl⟩
    · simp only [Stmt.fits, hf.1.1, hvalue, hf.2, Bool.and_self]
    · simp only [Stmt.tokens, hts]
  | .function keyword name function, hf => by
    simp only [Stmt.fits, Bool.and_eq_true] at hf
    obtain ⟨function', hfunction, hts⟩ := function.exists_nearest hf.2
    refine ⟨.function keyword name function', ?_, ?_, rfl, rfl⟩
    · simp only [Stmt.fits, hf.1.1, hf.1.2, hfunction, Bool.and_self]
    · simp only [Stmt.tokens, hts]
  | .var keyword declared, hf => by
    simp only [Stmt.fits, Bool.and_eq_true] at hf
    obtain ⟨declared', hdeclared, hts⟩ := declared.exists_nearest hf.2
    refine ⟨.var keyword declared', ?_, ?_, rfl, rfl⟩
    · simp only [Stmt.fits, hf.1, hdeclared, Bool.and_self]
    · simp only [Stmt.tokens, hts]

/-- Statements have a reading in which each `else` goes with the nearest `if`. -/
theorem Stmt.exists_nearest_all : ∀ (program : List Stmt), Stmt.allFit false program →
    ∃ program', Stmt.allFit true program' ∧ Stmt.allTokens program' = Stmt.allTokens program
  | [], _ => ⟨[], rfl, rfl⟩
  | s :: rest, hf => by
    simp only [Stmt.allFit, Bool.and_eq_true, Bool.not_eq_true'] at hf
    obtain ⟨s', hs⟩ := s.exists_nearest hf.1.1
    obtain ⟨rest', hrest, hts⟩ := Stmt.exists_nearest_all rest hf.2
    refine ⟨s' :: rest', ?_, ?_⟩
    · simp [Stmt.allFit, hs.fits, hs.startsWithFun, hf.1.2, hrest]
    · simp only [Stmt.allTokens, hs.tokens, hts]

end

end Lox.Concrete
