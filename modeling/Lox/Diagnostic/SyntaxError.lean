import Lox.Token

/-!
# Errors found before a program runs

A bad character or an open string has a line only; whatever the parser objects to
is located at a token as well.
-/

namespace Lox

/-- Where an error points, beside its line. -/
inductive Location where
  /-- Somewhere in the source, before there are tokens. -/
  | source
  | atEnd
  | atLexeme (lexeme : String)
  deriving DecidableEq, Repr

/-- The words between `Error` and the colon. -/
def Location.text : Location → String
  | .source => ""
  | .atEnd => "at end"
  | .atLexeme lexeme => "at '" ++ lexeme ++ "'"

structure SyntaxError where
  line : Nat
  location : Location
  message : String
  deriving DecidableEq, Repr

/-- An error in the source text. -/
def SyntaxError.lexical (line : Nat) (message : String) : SyntaxError where
  line := line
  location := .source
  message := message

/-- An error located at a token. The token that ends the input has no lexeme to show. -/
def SyntaxError.atToken (token : Token) (message : String) : SyntaxError where
  line := token.line
  location := if token.kind = .eof then .atEnd else .atLexeme token.lexeme
  message := message

/-- The error on a line of its own, without its line break. -/
def SyntaxError.text (e : SyntaxError) : String :=
  "[line " ++ toString e.line ++ "] Error " ++ e.location.text ++ ": " ++ e.message

end Lox
