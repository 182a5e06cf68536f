import Lox.Grammar.Statement
import Lox.Source.Scan

/-!
# Whole programs

The parsers of `Expression` and `Statement` are tied together by a bound on how deep
they nest. Every second level moves past a token, so twice the number of tokens is
more than any program needs.
-/

namespace Lox.Grammar

mutual

/-- Expressions nested at most `depth` deep. -/
def expressionWithin : Nat → Parser Expr
  | 0, s => .error .tooDeep s
  | depth + 1, s =>
    assignment ⟨expressionWithin depth, statementWithin depth, blockWithin depth⟩ s

/-- Statements nested at most `depth` deep. -/
def statementWithin : Nat → Parser Stmt
  | 0, s => .error .tooDeep s
  | depth + 1, s =>
    statement ⟨expressionWithin depth, statementWithin depth, blockWithin depth⟩ s

/-- Blocks nested at most `depth` deep. -/
def blockWithin : Nat → Parser (List Stmt)
  | 0, s => .error .tooDeep s
  | depth + 1, s =>
    block ⟨expressionWithin depth, statementWithin depth, blockWithin depth⟩ s

end

/-- The parsers of everything nested at most `depth` deep. -/
def Inner.within (depth : Nat) : Inner where
  expression := expressionWithin depth
  statement := statementWithin depth
  block := blockWithin depth

/-- The place before the first token. The input ends at the first token that says so, or after the
last one, on its line. -/
def State.ofTokens (tokens : List Token) : State where
  rest := tokens.takeWhile (·.kind ≠ .eof)
  eof :=
    (tokens.find? (·.kind = .eof)).getD
      (.plain .eof "" ((tokens.getLast?.map Token.line).getD 1))
  errors := #[]
  loops := 0
  functions := 0

/-- Tokens with the end of the input after them are all ahead at the start. -/
theorem State.ofTokens_append {ts : List Token} {eof : Token} (hts : ∀ t ∈ ts, t.kind ≠ .eof)
    (heof : eof.kind = .eof) :
    State.ofTokens (ts ++ [eof]) = ⟨ts, eof, #[], 0, 0⟩ := by
  have ends : (decide (eof.kind ≠ .eof)) = false := by simp [heof]
  have taken : (ts ++ [eof]).takeWhile (·.kind ≠ .eof) = ts := by
    rw [List.takeWhile_append_of_pos fun t ht => by simpa using hts t ht]
    simp [heof]
  have found : (ts ++ [eof]).find? (·.kind = .eof) = some eof := by
    rw [List.find?_append, List.find?_eq_none.mpr fun t ht => by simpa using hts t ht]
    simp [heof]
  rw [State.ofTokens, taken, found, Option.getD_some]

/-- A bound on nesting that no program reaches with this many tokens. -/
def depthBound (tokens : Nat) : Nat := 2 * tokens + 2

/-- What parsing gives: the statements, also where there are errors, and the errors. -/
structure Parse where
  statements : List Stmt
  errors : List SyntaxError

/-- The program that the tokens are. -/
def parse (tokens : List Token) : Parse :=
  let start := State.ofTokens tokens
  match declarations (.within (depthBound start.rest.length)) (·.rest.isEmpty) start with
  | .ok statements s => ⟨statements, s.errors.toList⟩
  | .error _ s => ⟨[], s.errors.toList⟩

/-- The program in a scanned text, lexical errors first. -/
def parseScan (scan : Source.Scan) : Parse :=
  let parsed := parse scan.tokens
  ⟨parsed.statements, scan.errors ++ parsed.errors⟩

/-- The program in a source text, lexical errors first. -/
def parseSource (source : String) : Parse := parseScan (Source.scan source)

end Lox.Grammar
