import Lox.Proofs.Grammar.Contents

/-!
# Well-formed trees

In a well-formed tree every operator is one that its place is for and every name is a name; a
function has a name where it is declared and none where it is an expression; and no literal is a
callable. A statement may be missing in it, where none could be read.
-/

namespace Lox

/-- The operators between two operands, but for those that may leave out the second one. -/
def binaryOperators : List TokenKind :=
  [.equalEqual, .bangEqual, .greater, .greaterEqual, .less, .lessEqual, .minus, .plus, .slash,
    .star, .starStar]

/-- The operators that leave out their second operand if the first one decides. -/
def logicalOperators : List TokenKind := [.andWord, .orWord]

/-- The operators before an operand. -/
def unaryOperators : List TokenKind := [.bang, .minus]

section

variable (T : Token → Prop)

mutual

/-- Whether an expression is well formed, of tokens with a property. -/
def Expr.WellFormed : Expr → Prop
  | .assign name value => name.IsName T ∧ value.WellFormed
  | .binary left operator right =>
    (T operator ∧ operator.kind ∈ binaryOperators) ∧ left.WellFormed ∧ right.WellFormed
  | .logical left operator right =>
    (T operator ∧ operator.kind ∈ logicalOperators) ∧ left.WellFormed ∧ right.WellFormed
  | .grouping inner => inner.WellFormed
  | .literal value => value.MadeOf T
  | .unary operator operand =>
    (T operator ∧ operator.kind ∈ unaryOperators) ∧ operand.WellFormed
  | .variable name => name.IsName T
  | .call callee paren arguments =>
    callee.WellFormed ∧ (T paren ∧ paren.kind = .rightParen) ∧ Expr.AllWellFormed arguments
  | .lambda function => function.name = none ∧ function.WellFormed

def Expr.AllWellFormed : List Expr → Prop
  | [] => True
  | e :: rest => e.WellFormed ∧ Expr.AllWellFormed rest

/-- Whether a statement is. -/
def Stmt.WellFormed : Stmt → Prop
  | .block statements => Stmt.AllWellFormed statements
  | .expression value => value.WellFormed
  | .var name none => name.IsName T
  | .var name (some value) => name.IsName T ∧ value.WellFormed
  | .ifElse condition thenBranch none => condition.WellFormed ∧ thenBranch.WellFormed
  | .ifElse condition thenBranch (some elseBranch) =>
    condition.WellFormed ∧ thenBranch.WellFormed ∧ elseBranch.WellFormed
  | .while condition body => condition.WellFormed ∧ body.WellFormed
  | .break | .continue | .return none | .empty => True
  | .function declaration => (∃ name ∈ declaration.name, name.IsName T) ∧ declaration.WellFormed
  | .return (some value) => value.WellFormed

def Stmt.AllWellFormed : List Stmt → Prop
  | [] => True
  | s :: rest => s.WellFormed ∧ Stmt.AllWellFormed rest

/-- Whether the parameters and the body of a function are. -/
def FunctionDecl.WellFormed : FunctionDecl → Prop
  | .mk _ params body => (∀ name ∈ params, name.IsName T) ∧ Stmt.AllWellFormed body

end

end

variable {T : Token → Prop}

theorem Expr.allWellFormed_iff {es : List Expr} :
    Expr.AllWellFormed T es ↔ ∀ e ∈ es, e.WellFormed T := by
  induction es with
  | nil => exact iff_of_true trivial (List.forall_mem_nil _)
  | cons e rest ih => rw [Expr.AllWellFormed, List.forall_mem_cons, ih]

/-- Statements are well formed if each of them is. -/
theorem Stmt.allWellFormed_iff {ss : List Stmt} :
    Stmt.AllWellFormed T ss ↔ ∀ s ∈ ss, s.WellFormed T := by
  induction ss with
  | nil => exact iff_of_true trivial (List.forall_mem_nil _)
  | cons s rest ih => rw [Stmt.AllWellFormed, List.forall_mem_cons, ih]

/-- A well-formed function has a well-formed body. -/
theorem FunctionDecl.WellFormed.body {f : FunctionDecl} (h : f.WellFormed T) :
    ∀ s ∈ f.body, s.WellFormed T := by
  cases f with
  | mk name params body => exact Stmt.allWellFormed_iff.mp h.2

/-- No literal of a well-formed tree is a callable. -/
theorem Value.MadeOf.isPlain {v : Value} (h : v.MadeOf T) : v.IsPlain := by
  cases v with
  | callable => exact h
  | _ => trivial

end Lox
