import Lox.Proofs.Grammar.Contents
import Lox.Proofs.Grammar.Soundness

/-!
# What the parser accepts

A program that is parsed without an error is one of the grammar, and its tree is whole:
no empty statement stands in it for something that could not be read.
-/

namespace Lox

mutual

/-- Whether no empty statement is anywhere in an expression. -/
def Expr.whole : Expr → Bool
  | .assign _ value => value.whole
  | .binary left _ right | .logical left _ right => left.whole && right.whole
  | .grouping inner => inner.whole
  | .literal _ | .variable _ => true
  | .unary _ operand => operand.whole
  | .call callee _ arguments => callee.whole && Expr.allWhole arguments
  | .lambda function => function.whole

def Expr.allWhole : List Expr → Bool
  | [] => true
  | e :: rest => e.whole && Expr.allWhole rest

/-- Whether no empty statement is anywhere in a statement. -/
def Stmt.whole : Stmt → Bool
  | .block statements => Stmt.allWhole statements
  | .expression value => value.whole
  | .var _ none | .return none | .break | .continue => true
  | .var _ (some value) | .return (some value) => value.whole
  | .ifElse condition thenBranch none => condition.whole && thenBranch.whole
  | .ifElse condition thenBranch (some elseBranch) =>
    condition.whole && (thenBranch.whole && elseBranch.whole)
  | .while condition body => condition.whole && body.whole
  | .function declaration => declaration.whole
  | .empty => false

def Stmt.allWhole : List Stmt → Bool
  | [] => true
  | s :: rest => s.whole && Stmt.allWhole rest

def FunctionDecl.whole : FunctionDecl → Bool
  | .mk _ _ body => Stmt.allWhole body

end

/-! What is made of tokens is whole: nothing stands in it for something missing. -/

section

variable {T : Token → Prop}

mutual

/-- An expression that has been made of tokens has no gap in it. -/
theorem Expr.whole_of_madeOf : ∀ (e : Expr), e.MadeOf T → e.whole
  | .assign name value, h => by simp only [Expr.whole, value.whole_of_madeOf h.2]
  | .binary left operator right, h | .logical left operator right, h => by
    simp only [Expr.whole, left.whole_of_madeOf h.2.1, right.whole_of_madeOf h.2.2, Bool.and_self]
  | .grouping inner, h => by simp only [Expr.whole, inner.whole_of_madeOf h]
  | .literal _, _ | .variable _, _ => rfl
  | .unary operator operand, h => by simp only [Expr.whole, operand.whole_of_madeOf h.2]
  | .call callee paren arguments, h => by
    simp only [Expr.whole, callee.whole_of_madeOf h.1, Expr.allWhole_of_madeOf arguments h.2.2,
      Bool.and_self]
  | .lambda function, h => by simp only [Expr.whole, function.whole_of_madeOf h.2]

/-- Neither have arguments. -/
theorem Expr.allWhole_of_madeOf : ∀ (arguments : List Expr), Expr.AllMadeOf T arguments →
    Expr.allWhole arguments
  | [], _ => rfl
  | e :: rest, h => by
    simp only [Expr.allWhole, e.whole_of_madeOf h.1, Expr.allWhole_of_madeOf rest h.2,
      Bool.and_self]

/-- Statements that have been made of tokens are whole, the empty one not being among them. -/
theorem Stmt.whole_of_madeOf : ∀ (s : Stmt), s.MadeOf T → s.whole
  | .block statements, h => by simp only [Stmt.whole, Stmt.allWhole_of_madeOf statements h]
  | .expression value, h | .return (some value), h => by
    simp only [Stmt.whole, value.whole_of_madeOf h]
  | .var name none, _ | .return none, _ | .break, _ | .continue, _ => rfl
  | .var name (some value), h => by simp only [Stmt.whole, value.whole_of_madeOf h.2]
  | .ifElse condition thenBranch none, h => by
    simp only [Stmt.whole, condition.whole_of_madeOf h.1, thenBranch.whole_of_madeOf h.2,
      Bool.and_self]
  | .ifElse condition thenBranch (some elseBranch), h => by
    simp only [Stmt.whole, condition.whole_of_madeOf h.1, thenBranch.whole_of_madeOf h.2.1,
      elseBranch.whole_of_madeOf h.2.2, Bool.and_self]
  | .while condition body, h => by
    simp only [Stmt.whole, condition.whole_of_madeOf h.1, body.whole_of_madeOf h.2, Bool.and_self]
  | .function declaration, h => by simp only [Stmt.whole, declaration.whole_of_madeOf h.2]

/-- So are the statements of a body. -/
theorem Stmt.allWhole_of_madeOf : ∀ (body : List Stmt), Stmt.AllMadeOf T body → Stmt.allWhole body
  | [], _ => rfl
  | s :: rest, h => by
    simp only [Stmt.allWhole, s.whole_of_madeOf h.1, Stmt.allWhole_of_madeOf rest h.2,
      Bool.and_self]

/-- So is a function, with its body. -/
theorem FunctionDecl.whole_of_madeOf : ∀ (f : FunctionDecl), f.MadeOf T → f.whole
  | .mk name params body, h => by
    simp only [FunctionDecl.whole, Stmt.allWhole_of_madeOf body h.2]

end

end

namespace Grammar

/-- The statements of a program are whole. -/
theorem DerivesDecls.whole {c : Context} {ts : List Token} {body : List Stmt}
    {errs : List SyntaxError} (h : DerivesDecls c ts body errs) : Stmt.allWhole body := by
  have made : Stmt.AllMadeOf (fun _ => True) body := h.madeOf fun _ _ => trivial
  exact Stmt.allWhole_of_madeOf body made

/-- A parser that gives up for nothing but the bound on nesting. -/
def Recovers (p : Parser α) : Prop := ∀ s error t, p s ≠ .error (.unexpected error) t

/-- What recovers from an error has read something, or nothing in its place. -/
theorem recovers_recovering (p : Parser Stmt) : Recovers (recovering p) := by
  intro s error t
  unfold recovering
  split <;> simp

/-- Parsers in a row recover if each of them does. -/
theorem Recovers.bind {p : Parser α} {f : α → Parser β} (hp : Recovers p)
    (hf : ∀ a, Recovers (f a)) : Recovers (p >>= f) := by
  intro s error t h
  simp only [Bind.bind, EStateM.bind] at h
  cases hr : p s with
  | ok a u =>
    rw [hr] at h
    exact hf a u error t h
  | error failure u =>
    rw [hr] at h
    cases h
    exact hp s error _ hr

/-- A repeated step recovers if it does each time. -/
theorem recovers_repeatStep {step : α → Parser (α ⊕ β)} (hstep : ∀ a, Recovers (step a))
    (bound : List Token) (a : α) : Recovers (repeatStep step bound a) := by
  have done (b : β) : Recovers (pure b : Parser β) := fun s error t h => nomatch h
  induction bound generalizing a with
  | nil =>
    rw [repeatStep]
    refine (hstep a).bind fun r => ?_
    cases r with
    | inl next =>
      intro s error t h
      cases h
    | inr result => exact done result
  | cons token bound ih =>
    rw [repeatStep]
    refine (hstep a).bind fun r => ?_
    cases r with
    | inl next => exact ih next
    | inr result => exact done result

/-- Declarations are read to the end, however wrong they are. -/
theorem recovers_declarations (inner : Inner) (stop : State → Bool) :
    Recovers (declarations inner stop) := by
  have step (found : Array Stmt) : Recovers (declarationStep inner stop found) := by
    refine Recovers.bind (fun s error t h => nomatch h) fun s => ?_
    split
    · exact fun s error t h => nomatch h
    · exact (recovers_recovering _).bind fun d s error t h => nomatch h
  refine Recovers.bind (fun s => ?_) fun found s error t h => nomatch h
  exact recovers_repeatStep step s.rest #[] s

/-- Declarations are read whatever the tokens are: the bound on nesting is large enough. -/
theorem declarations_ok {n : Nat} {s : State} (hs : s.rest.length ≤ n) :
    ∃ statements t, declarations (.within (depthBound n)) (·.rest.isEmpty) s = .ok statements t ∧
      s.Reaches (fun _ => 0) (fun c ts body next => DerivesDecls c ts body [] ∧ next = [])
        (.ok statements t) := by
  have atEnd (s : State) (hs : s.rest = []) : s.rest.isEmpty = true := by rw [hs, List.isEmpty_nil]
  have read := parses_declarations (Inner.sound_within (depthBound n)) (Nat.le_refl _) atEnd s hs
  cases hr : declarations (.within (depthBound n)) (·.rest.isEmpty) s with
  | error failure t =>
    obtain ⟨⟨message, rfl⟩, _⟩ := hr ▸ read
    exact absurd hr (recovers_declarations _ _ _ _ _)
  | ok statements t =>
    refine ⟨statements, t, rfl, (hr ▸ read).mono (fun _ => Nat.le_refl 0) ?_⟩
    rintro ts body next - ⟨derives, s, rfl, hstop⟩
    exact ⟨derives, List.isEmpty_iff.mp hstop⟩

/-- Tokens in which the parser finds nothing wrong are derived, with the tree that it gives. -/
theorem derives_of_parse {ts : List Token} {eof : Token} (hts : ∀ t ∈ ts, t.kind ≠ .eof)
    (heof : eof.kind = .eof) (clean : (parse (ts ++ [eof])).errors = []) :
    DerivesDecls .top ts (parse (ts ++ [eof])).statements [] := by
  obtain ⟨statements, t, read, us, moves, _, hus⟩ :=
    declarations_ok (s := ⟨ts, eof, #[], 0, 0⟩) (Nat.le_refl ts.length)
  simp only [parse, State.ofTokens_append hts heof, read] at clean ⊢
  obtain ⟨derives, ended⟩ := hus (Array.toList_eq_nil_iff.mp clean)
  have hts : us = ts := by simpa only [ended, List.append_nil] using moves.rest.symm
  exact hts ▸ derives

/-- Tokens in which the parser finds nothing wrong are a program of the grammar, all of them and in
their order, and what the parser gives is its tree: each `else` goes with the nearest `if` that is
open, each target of an assignment is a name, and no statement has been left out. -/
theorem parse_sound {ts : List Token} {eof : Token} (hts : ∀ t ∈ ts, t.kind ≠ .eof)
    (heof : eof.kind = .eof) (clean : (parse (ts ++ [eof])).errors = []) :
    DerivesProgram ts (parse (ts ++ [eof])).statements ∧
      Stmt.allWhole (parse (ts ++ [eof])).statements := by
  have derived := derives_of_parse hts heof clean
  exact ⟨derived, derived.whole⟩

/-- An `else` and a `for` without clauses, read without an error. -/
theorem parse_sound_choice :
    let ts := (Source.scan "if (a) b = 1; else for (;;) c();").tokens.dropLast
    let eof := Token.plain .eof "" 1
    (∀ t ∈ ts, t.kind ≠ .eof) ∧ eof.kind = .eof ∧ (parse (ts ++ [eof])).errors = [] ∧
      DerivesProgram ts (parse (ts ++ [eof])).statements ∧
      Stmt.allWhole (parse (ts ++ [eof])).statements := by
  intro ts eof
  have hts : ∀ t ∈ ts, t.kind ≠ .eof := by decide +kernel
  have clean : (parse (ts ++ [eof])).errors = [] := List.isEmpty_iff.mp (by decide +kernel)
  exact ⟨hts, rfl, clean, parse_sound hts rfl clean⟩

end Grammar

end Lox
