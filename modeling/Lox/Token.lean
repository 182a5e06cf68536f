import Lox.Number.Layout

/-!
# Tokens

The kinds of token, their names and the reserved words; the token itself, with the
text it stands for, the value a number or a string denotes, and its line.
-/

namespace Lox

inductive TokenKind where
  | leftParen
  | rightParen
  | leftBrace
  | rightBrace
  | comma
  | dot
  | minus
  | plus
  | semicolon
  | slash
  | star
  | bang
  | bangEqual
  | equal
  | equalEqual
  | greater
  | greaterEqual
  | less
  | lessEqual
  | starStar
  | identifier
  | string
  | number
  | andWord
  | breakWord
  | continueWord
  | classWord
  | elseWord
  | falseWord
  | funWord
  | forWord
  | ifWord
  | nilWord
  | orWord
  | returnWord
  | superWord
  | thisWord
  | trueWord
  | varWord
  | whileWord
  | eof
  deriving DecidableEq, Repr, Inhabited

namespace TokenKind

/-- The name a token list shows. -/
def name : TokenKind → String
  | leftParen => "LEFT_PAREN"
  | rightParen => "RIGHT_PAREN"
  | leftBrace => "LEFT_BRACE"
  | rightBrace => "RIGHT_BRACE"
  | comma => "COMMA"
  | dot => "DOT"
  | minus => "MINUS"
  | plus => "PLUS"
  | semicolon => "SEMICOLON"
  | slash => "SLASH"
  | star => "STAR"
  | bang => "BANG"
  | bangEqual => "BANG_EQUAL"
  | equal => "EQUAL"
  | equalEqual => "EQUAL_EQUAL"
  | greater => "GREATER"
  | greaterEqual => "GREATER_EQUAL"
  | less => "LESS"
  | lessEqual => "LESS_EQUAL"
  | starStar => "STAR_STAR"
  | identifier => "IDENTIFIER"
  | string => "STRING"
  | number => "NUMBER"
  | andWord => "AND"
  | breakWord => "BREAK"
  | continueWord => "CONTINUE"
  | classWord => "CLASS"
  | elseWord => "ELSE"
  | falseWord => "FALSE"
  | funWord => "FUN"
  | forWord => "FOR"
  | ifWord => "IF"
  | nilWord => "NIL"
  | orWord => "OR"
  | returnWord => "RETURN"
  | superWord => "SUPER"
  | thisWord => "THIS"
  | trueWord => "TRUE"
  | varWord => "VAR"
  | whileWord => "WHILE"
  | eof => "EOF"

/-- Every kind, in the order of the declaration. -/
def all : List TokenKind :=
  [leftParen, rightParen, leftBrace, rightBrace, comma, dot, minus, plus, semicolon, slash, star,
    bang, bangEqual, equal, equalEqual, greater, greaterEqual, less, lessEqual, starStar,
    identifier, string, number, andWord, breakWord, continueWord, classWord, elseWord, falseWord,
    funWord, forWord, ifWord, nilWord, orWord, returnWord, superWord, thisWord, trueWord, varWord,
    whileWord, eof]

/-- The kind with a given name. -/
def ofName? (text : String) : Option TokenKind := all.find? (·.name == text)

/-- The names tell all kinds apart. -/
theorem ofName?_name (kind : TokenKind) : ofName? kind.name = some kind := by
  cases kind <;> decide

/-- The kind of a reserved word; no other word has one. -/
def ofWord? : String → Option TokenKind
  | "and" => some andWord
  | "break" => some breakWord
  | "continue" => some continueWord
  | "class" => some classWord
  | "else" => some elseWord
  | "false" => some falseWord
  | "for" => some forWord
  | "fun" => some funWord
  | "if" => some ifWord
  | "nil" => some nilWord
  | "or" => some orWord
  | "return" => some returnWord
  | "super" => some superWord
  | "this" => some thisWord
  | "true" => some trueWord
  | "var" => some varWord
  | "while" => some whileWord
  | _ => none

end TokenKind

/-- What a number or a string token denotes. -/
inductive Literal where
  | number (value : Float)
  | string (text : String)
  deriving Repr

/-- The text of a literal in a token list. -/
def Literal.text : Literal → String
  | .number value => Number.Layout.listed.write value
  | .string text => text

structure Token where
  kind : TokenKind
  /-- The source text of the token. -/
  lexeme : String
  literal : Option Literal
  /-- The line on which the lexeme ends. -/
  line : Nat
  deriving Repr

/-- A token that denotes nothing but itself. -/
def Token.plain (kind : TokenKind) (lexeme : String) (line : Nat) : Token where
  kind := kind
  lexeme := lexeme
  literal := none
  line := line

/-- The line of a token list: kind, lexeme and literal. -/
def Token.listing (t : Token) : String :=
  t.kind.name ++ " " ++ t.lexeme ++ " " ++ (t.literal.map Literal.text).getD "nil"

end Lox
