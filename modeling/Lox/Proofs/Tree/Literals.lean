import Lox.Tree.Basic

/-!
# The literals of a tree

A tree may hold any value as a literal, also one that no source text denotes. Here is
what it means that all its literals, those in the bodies of its functions included,
have a property; that they are plain, above all: no callables.
-/

namespace Lox

/-- Whether a value is no callable. -/
def Value.IsPlain : Value → Prop
  | .callable _ => False
  | _ => True

section

variable (L : Value → Prop)

mutual

def Expr.LiteralsAre : Expr → Prop
  | .assign _ value => value.LiteralsAre
  | .binary left _ right => left.LiteralsAre ∧ right.LiteralsAre
  | .logical left _ right => left.LiteralsAre ∧ right.LiteralsAre
  | .grouping inner => inner.LiteralsAre
  | .literal value => L value
  | .unary _ operand => operand.LiteralsAre
  | .variable _ => True
  | .call callee _ arguments => callee.LiteralsAre ∧ Expr.AllLiteralsAre arguments
  | .lambda function => function.LiteralsAre

def Expr.AllLiteralsAre : List Expr → Prop
  | [] => True
  | e :: rest => e.LiteralsAre ∧ Expr.AllLiteralsAre rest

def Stmt.LiteralsAre : Stmt → Prop
  | .block statements => Stmt.AllLiteralsAre statements
  | .expression value => value.LiteralsAre
  | .var _ none => True
  | .var _ (some value) => value.LiteralsAre
  | .ifElse condition thenBranch none => condition.LiteralsAre ∧ thenBranch.LiteralsAre
  | .ifElse condition thenBranch (some elseBranch) =>
    condition.LiteralsAre ∧ thenBranch.LiteralsAre ∧ elseBranch.LiteralsAre
  | .while condition body => condition.LiteralsAre ∧ body.LiteralsAre
  | .break | .continue | .return none | .empty => True
  | .function declaration => declaration.LiteralsAre
  | .return (some value) => value.LiteralsAre

def Stmt.AllLiteralsAre : List Stmt → Prop
  | [] => True
  | s :: rest => s.LiteralsAre ∧ Stmt.AllLiteralsAre rest

def FunctionDecl.LiteralsAre : FunctionDecl → Prop
  | .mk _ _ body => Stmt.AllLiteralsAre body

end

end

/-- The literals of a function are those of its body. -/
theorem FunctionDecl.LiteralsAre.body {L : Value → Prop} {f : FunctionDecl}
    (h : f.LiteralsAre L) : Stmt.AllLiteralsAre L f.body := by
  cases f with
  | mk name params body => exact h

section

variable {L : Value → Prop}

mutual

/-- A property of all values is one of all literals. -/
theorem Expr.literalsAre_of_forall (h : ∀ v, L v) : ∀ e : Expr, e.LiteralsAre L
  | .assign _ value => value.literalsAre_of_forall h
  | .binary left _ right | .logical left _ right =>
    ⟨left.literalsAre_of_forall h, right.literalsAre_of_forall h⟩
  | .grouping inner => inner.literalsAre_of_forall h
  | .literal value => h value
  | .unary _ operand => operand.literalsAre_of_forall h
  | .variable _ => trivial
  | .call callee _ arguments =>
    ⟨callee.literalsAre_of_forall h, Expr.allLiteralsAre_of_forall h arguments⟩
  | .lambda function => function.literalsAre_of_forall h

theorem Expr.allLiteralsAre_of_forall (h : ∀ v, L v) : ∀ es : List Expr, Expr.AllLiteralsAre L es
  | [] => trivial
  | e :: rest => ⟨e.literalsAre_of_forall h, Expr.allLiteralsAre_of_forall h rest⟩

theorem Stmt.literalsAre_of_forall (h : ∀ v, L v) : ∀ s : Stmt, s.LiteralsAre L
  | .block statements => Stmt.allLiteralsAre_of_forall h statements
  | .expression value | .var _ (some value) | .return (some value) => value.literalsAre_of_forall h
  | .ifElse condition thenBranch none =>
    ⟨condition.literalsAre_of_forall h, thenBranch.literalsAre_of_forall h⟩
  | .ifElse condition thenBranch (some elseBranch) =>
    ⟨condition.literalsAre_of_forall h, thenBranch.literalsAre_of_forall h,
      elseBranch.literalsAre_of_forall h⟩
  | .while condition body => ⟨condition.literalsAre_of_forall h, body.literalsAre_of_forall h⟩
  | .var _ none | .break | .continue | .return none | .empty => trivial
  | .function declaration => declaration.literalsAre_of_forall h

theorem Stmt.allLiteralsAre_of_forall (h : ∀ v, L v) : ∀ ss : List Stmt, Stmt.AllLiteralsAre L ss
  | [] => trivial
  | s :: rest => ⟨s.literalsAre_of_forall h, Stmt.allLiteralsAre_of_forall h rest⟩

theorem FunctionDecl.literalsAre_of_forall (h : ∀ v, L v) : ∀ f : FunctionDecl, f.LiteralsAre L
  | .mk _ _ body => Stmt.allLiteralsAre_of_forall h body

end

end

end Lox
