import Mathlib.Data.List.Forall2
import Lox.Diagnostic.SyntaxError
import Lox.Tree.Basic

/-!
# Trees that are alike

Two trees are alike if they have the same shape and their tokens, one by one, stand in a
given relation, which only tokens do that differ in nothing but their lines. So alike
trees say the same, on other lines.
-/

namespace Lox

/-- A relation of tokens that differ in nothing but their lines. -/
structure Relabels (R : Token → Token → Prop) : Prop where
  kind : ∀ {t t'}, R t t' → t'.kind = t.kind
  lexeme : ∀ {t t'}, R t t' → t'.lexeme = t.lexeme
  literal : ∀ {t t'}, R t t' → t'.literal = t.literal

/-- Tokens that differ in nothing but their lines. -/
def Token.SameText (t t' : Token) : Prop := t' = { t with line := t'.line }

theorem Token.sameText {t t' : Token} (hkind : t.kind = t'.kind) (hlexeme : t.lexeme = t'.lexeme)
    (hliteral : t.literal = t'.literal) : t.SameText t' := by
  cases t
  cases t'
  simp_all [Token.SameText]

/-- Tokens may be exchanged for others with the same text. -/
theorem relabels_sameText : Relabels Token.SameText where
  kind h := by rw [h]
  lexeme h := by rw [h]
  literal h := by rw [h]

mutual

inductive Expr.Alike (R : Token → Token → Prop) : Expr → Expr → Prop where
  | assign : R name name' → Expr.Alike R value value' →
      Expr.Alike R (.assign name value) (.assign name' value')
  | binary : Expr.Alike R left left' → R operator operator' → Expr.Alike R right right' →
      Expr.Alike R (.binary left operator right) (.binary left' operator' right')
  | logical : Expr.Alike R left left' → R operator operator' → Expr.Alike R right right' →
      Expr.Alike R (.logical left operator right) (.logical left' operator' right')
  | grouping : Expr.Alike R e e' → Expr.Alike R (.grouping e) (.grouping e')
  | literal : Expr.Alike R (.literal value) (.literal value)
  | unary : R operator operator' → Expr.Alike R operand operand' →
      Expr.Alike R (.unary operator operand) (.unary operator' operand')
  | variable : R name name' → Expr.Alike R (.variable name) (.variable name')
  | call : Expr.Alike R callee callee' → R paren paren' →
      List.Forall₂ (Expr.Alike R) arguments arguments' →
      Expr.Alike R (.call callee paren arguments) (.call callee' paren' arguments')
  | lambda : FunctionDecl.Alike R f f' → Expr.Alike R (.lambda f) (.lambda f')

inductive Stmt.Alike (R : Token → Token → Prop) : Stmt → Stmt → Prop where
  | block : List.Forall₂ (Stmt.Alike R) body body' → Stmt.Alike R (.block body) (.block body')
  | expression : Expr.Alike R value value' → Stmt.Alike R (.expression value) (.expression value')
  | var : R name name' → Option.Rel (Expr.Alike R) value value' →
      Stmt.Alike R (.var name value) (.var name' value')
  | ifElse : Expr.Alike R condition condition' → Stmt.Alike R thenBranch thenBranch' →
      Option.Rel (Stmt.Alike R) elseBranch elseBranch' →
      Stmt.Alike R (.ifElse condition thenBranch elseBranch)
        (.ifElse condition' thenBranch' elseBranch')
  | while : Expr.Alike R condition condition' → Stmt.Alike R body body' →
      Stmt.Alike R (.while condition body) (.while condition' body')
  | break : Stmt.Alike R .break .break
  | continue : Stmt.Alike R .continue .continue
  | function : FunctionDecl.Alike R f f' → Stmt.Alike R (.function f) (.function f')
  | return : Option.Rel (Expr.Alike R) value value' →
      Stmt.Alike R (.return value) (.return value')
  | empty : Stmt.Alike R .empty .empty

inductive FunctionDecl.Alike (R : Token → Token → Prop) : FunctionDecl → FunctionDecl → Prop where
  | mk : Option.Rel R name name' → List.Forall₂ R params params' →
      List.Forall₂ (Stmt.Alike R) body body' →
      FunctionDecl.Alike R (.mk name params body) (.mk name' params' body')

end

/-- Programs that are alike, statement by statement. -/
abbrev Stmt.AllAlike (R : Token → Token → Prop) : List Stmt → List Stmt → Prop :=
  List.Forall₂ (Stmt.Alike R)

/-- Errors that differ in nothing but their lines. -/
structure SyntaxError.Alike (e e' : SyntaxError) : Prop where
  location : e'.location = e.location
  message : e'.message = e.message

/-- Errors at exchanged tokens are alike. -/
theorem SyntaxError.alike_atToken {R : Token → Token → Prop} (hR : Relabels R) {t t' : Token}
    (h : R t t') (message : String) :
    (SyntaxError.atToken t message).Alike (.atToken t' message) := by
  refine ⟨?_, rfl⟩
  simp only [SyntaxError.atToken, hR.kind h, hR.lexeme h]

namespace FunctionDecl.Alike

variable {R : Token → Token → Prop} {f f' : FunctionDecl}

/-- Like functions have like parameters. -/
theorem params (h : FunctionDecl.Alike R f f') : List.Forall₂ R f.params f'.params := by
  cases h with
  | mk _ hparams _ => exact hparams

theorem body (h : FunctionDecl.Alike R f f') : Stmt.AllAlike R f.body f'.body := by
  cases h with
  | mk _ _ hbody => exact hbody

theorem arity (h : FunctionDecl.Alike R f f') : f'.arity = f.arity := h.params.length_eq.symm

theorem displayName (hR : Relabels R) (h : FunctionDecl.Alike R f f') :
    f'.displayName = f.displayName := by
  cases h with
  | mk hname _ _ =>
    cases hname with
    | none => rfl
    | some hname => exact hR.lexeme hname

end FunctionDecl.Alike

section

variable {R : Token → Token → Prop}

mutual

/-- A tree is alike to itself if its tokens stand in the relation to themselves. -/
theorem Expr.alike_refl (hR : ∀ t, R t t) : ∀ e : Expr, Expr.Alike R e e
  | .assign name value => .assign (hR name) (value.alike_refl hR)
  | .binary left operator right =>
    .binary (left.alike_refl hR) (hR operator) (right.alike_refl hR)
  | .logical left operator right =>
    .logical (left.alike_refl hR) (hR operator) (right.alike_refl hR)
  | .grouping inner => .grouping (inner.alike_refl hR)
  | .literal _ => .literal
  | .unary operator operand => .unary (hR operator) (operand.alike_refl hR)
  | .variable name => .variable (hR name)
  | .call callee paren arguments =>
    .call (callee.alike_refl hR) (hR paren) (Expr.allAlike_refl hR arguments)
  | .lambda function => .lambda (function.alike_refl hR)

theorem Expr.allAlike_refl (hR : ∀ t, R t t) : ∀ es : List Expr, List.Forall₂ (Expr.Alike R) es es
  | [] => .nil
  | e :: rest => .cons (e.alike_refl hR) (Expr.allAlike_refl hR rest)

theorem Stmt.alike_refl (hR : ∀ t, R t t) : ∀ s : Stmt, Stmt.Alike R s s
  | .block statements => .block (Stmt.allAlike_refl hR statements)
  | .expression value => .expression (value.alike_refl hR)
  | .var name none => .var (hR name) .none
  | .var name (some value) => .var (hR name) (.some (value.alike_refl hR))
  | .ifElse condition thenBranch none =>
    .ifElse (condition.alike_refl hR) (thenBranch.alike_refl hR) .none
  | .ifElse condition thenBranch (some elseBranch) =>
    .ifElse (condition.alike_refl hR) (thenBranch.alike_refl hR) (.some (elseBranch.alike_refl hR))
  | .while condition body => .while (condition.alike_refl hR) (body.alike_refl hR)
  | .break => .break
  | .continue => .continue
  | .function declaration => .function (declaration.alike_refl hR)
  | .return none => .return .none
  | .return (some value) => .return (.some (value.alike_refl hR))
  | .empty => .empty

theorem Stmt.allAlike_refl (hR : ∀ t, R t t) : ∀ ss : List Stmt, Stmt.AllAlike R ss ss
  | [] => .nil
  | s :: rest => .cons (s.alike_refl hR) (Stmt.allAlike_refl hR rest)

theorem FunctionDecl.alike_refl (hR : ∀ t, R t t) : ∀ f : FunctionDecl, FunctionDecl.Alike R f f
  | .mk none _ body =>
    .mk .none (List.forall₂_same.mpr fun t _ => hR t) (Stmt.allAlike_refl hR body)
  | .mk (some name) _ body =>
    .mk (.some (hR name)) (List.forall₂_same.mpr fun t _ => hR t) (Stmt.allAlike_refl hR body)

end

end

mutual

/-- Trees that are alike up to nothing are the same. -/
theorem Expr.eq_of_alike : ∀ e e' : Expr, Expr.Alike Eq e e' → e = e'
  | .assign _ value, _, .assign hname hvalue => by rw [hname, value.eq_of_alike _ hvalue]
  | .binary left _ right, _, .binary hleft ho hright => by
    rw [left.eq_of_alike _ hleft, ho, right.eq_of_alike _ hright]
  | .logical left _ right, _, .logical hleft ho hright => by
    rw [left.eq_of_alike _ hleft, ho, right.eq_of_alike _ hright]
  | .grouping inner, _, .grouping hinner => by rw [inner.eq_of_alike _ hinner]
  | .literal _, _, .literal => rfl
  | .unary _ operand, _, .unary ho hoperand => by rw [ho, operand.eq_of_alike _ hoperand]
  | .variable _, _, .variable hname => by rw [hname]
  | .call callee _ arguments, _, .call hcallee hparen harguments => by
    rw [callee.eq_of_alike _ hcallee, hparen, Expr.eq_of_allAlike arguments _ harguments]
  | .lambda function, _, .lambda hf => by rw [function.eq_of_alike _ hf]

theorem Expr.eq_of_allAlike : ∀ es es' : List Expr, List.Forall₂ (Expr.Alike Eq) es es' → es = es'
  | [], _, .nil => rfl
  | e :: rest, _, .cons he hrest => by rw [e.eq_of_alike _ he, Expr.eq_of_allAlike rest _ hrest]

theorem Stmt.eq_of_alike : ∀ s s' : Stmt, Stmt.Alike Eq s s' → s = s'
  | .block statements, _, .block hbody => by rw [Stmt.eq_of_allAlike statements _ hbody]
  | .expression value, _, .expression hvalue => by rw [value.eq_of_alike _ hvalue]
  | .var _ none, _, .var hname .none => by rw [hname]
  | .var _ (some value), _, .var hname (.some hvalue) => by
    rw [hname, value.eq_of_alike _ hvalue]
  | .ifElse condition thenBranch none, _, .ifElse hcondition hthen .none => by
    rw [condition.eq_of_alike _ hcondition, thenBranch.eq_of_alike _ hthen]
  | .ifElse condition thenBranch (some elseBranch), _, .ifElse hcondition hthen (.some helse) => by
    rw [condition.eq_of_alike _ hcondition, thenBranch.eq_of_alike _ hthen,
      elseBranch.eq_of_alike _ helse]
  | .while condition body, _, .while hcondition hbody => by
    rw [condition.eq_of_alike _ hcondition, body.eq_of_alike _ hbody]
  | .break, _, .break => rfl
  | .continue, _, .continue => rfl
  | .function declaration, _, .function hf => by rw [declaration.eq_of_alike _ hf]
  | .return none, _, .return .none => rfl
  | .return (some value), _, .return (.some hvalue) => by rw [value.eq_of_alike _ hvalue]
  | .empty, _, .empty => rfl

theorem Stmt.eq_of_allAlike : ∀ ss ss' : List Stmt, Stmt.AllAlike Eq ss ss' → ss = ss'
  | [], _, .nil => rfl
  | s :: rest, _, .cons hs hrest => by rw [s.eq_of_alike _ hs, Stmt.eq_of_allAlike rest _ hrest]

theorem FunctionDecl.eq_of_alike : ∀ f f' : FunctionDecl, FunctionDecl.Alike Eq f f' → f = f'
  | .mk _ params body, .mk _ params' _, .mk hname hparams hbody => by
    have hp : params = params' := by rwa [List.forall₂_eq_eq_eq] at hparams
    cases hname with
    | none => rw [hp, Stmt.eq_of_allAlike body _ hbody]
    | some hname => rw [hname, hp, Stmt.eq_of_allAlike body _ hbody]

end

end Lox
