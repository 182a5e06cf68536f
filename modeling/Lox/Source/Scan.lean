import Lox.Diagnostic.SyntaxError
import Lox.Number.Reading
import Lox.Source.Lexeme

/-!
# The tokens of a source text

Scanning never fails: what is no token becomes an error and is passed over. The
tokens end with one that marks the end of the input.
-/

namespace Lox.Source

/-- The text between the quotes of a string. -/
def unquote (text : List Char) : List Char := (text.drop 1).dropLast

/-- The token a lexeme stands for. -/
def Lexeme.token? (x : Lexeme) : Option Token :=
  let lexeme := String.ofList x.text
  match x.form with
  | .plain kind => some (.plain kind lexeme x.line)
  | .number => some ⟨.number, lexeme, some (.number (Number.read x.text)), x.line⟩
  | .string => some ⟨.string, lexeme, some (.string (String.ofList (unquote x.text))), x.line⟩
  | .openString | .unexpected _ => none

/-- The error a lexeme stands for. -/
def Lexeme.error? (x : Lexeme) : Option SyntaxError :=
  match x.form with
  | .openString => some (.lexical x.line "Unterminated string.")
  | .unexpected c => some (.lexical x.line ("Unexpected character: " ++ c.toString))
  | .plain _ | .number | .string => none

/-- What scanning a source text gives. -/
structure Scan where
  tokens : List Token
  errors : List SyntaxError
  deriving Repr

/-- The tokens and the errors of a source text, each in the order of the source. The lines start
at one. -/
def scan (source : String) : Scan :=
  let (lexemes, lastLine) := lexemesFrom #[] ⟨1, source.toList⟩
  { tokens := lexemes.toList.filterMap Lexeme.token? ++ [.plain .eof "" lastLine]
    errors := lexemes.toList.filterMap Lexeme.error? }

end Lox.Source
