import Lox.Text.Alphabetic
import Lox.Text.Numeric
import Lox.Token

/-!
# Lexemes

Source text is a sequence of lexemes with gaps of blanks and comments between them.
`lexemeAt` finds the longest lexeme at the head of a text, and `lexemesFrom` cuts a
whole text, noting for every lexeme the line on which it ends.
-/

namespace Lox.Source

/-- The only characters that separate lexemes. Everything else that is no part of a lexeme is an
unexpected character. -/
def isBlank (c : Char) : Bool := c == ' ' || c == '\t' || c == '\r' || c == '\n'

/-- Numbers are written with the ten ASCII digits. -/
def isDigit (c : Char) : Bool := c.isDigit

/-- The characters that a word starts with. -/
def isWordStart (c : Char) : Bool := Text.isAlphabetic c || c == '_'

/-- The characters that a word goes on with. -/
def isWordPart (c : Char) : Bool := Text.isAlphabetic c || Text.isNumeric c || c == '_'

/-- What a lexeme is. -/
inductive Form where
  /-- An operator or a word. -/
  | plain (kind : TokenKind)
  | number
  | string
  /-- A string whose closing quote is missing. -/
  | openString
  | unexpected (c : Char)
  deriving DecidableEq, Repr

/-- The operators of two characters. -/
def doubleOperator? : Char → Char → Option TokenKind
  | '=', '=' => some .equalEqual
  | '!', '=' => some .bangEqual
  | '<', '=' => some .lessEqual
  | '>', '=' => some .greaterEqual
  | '*', '*' => some .starStar
  | _, _ => none

/-- The operators of one character. -/
def singleOperator? : Char → Option TokenKind
  | '(' => some .leftParen
  | ')' => some .rightParen
  | '{' => some .leftBrace
  | '}' => some .rightBrace
  | ',' => some .comma
  | '.' => some .dot
  | '-' => some .minus
  | '+' => some .plus
  | ';' => some .semicolon
  | '/' => some .slash
  | '*' => some .star
  | '!' => some .bang
  | '=' => some .equal
  | '<' => some .less
  | '>' => some .greater
  | _ => none

/-- How many characters of `rest` belong to a number whose first digit stands before it. A point
belongs to the number only if a digit follows. -/
def numberLength (rest : List Char) : Nat :=
  let whole := (rest.takeWhile isDigit).length
  match rest.drop whole with
  | '.' :: after =>
    match (after.takeWhile isDigit).length with
    | 0 => whole
    | decimals + 1 => whole + 1 + (decimals + 1)
  | _ => whole

/-- A string ends at the next quote, or with the text. -/
def stringAt (rest : List Char) : Form × Nat :=
  let body := (rest.takeWhile (· ≠ '"')).length
  if body < rest.length then (.string, body + 1) else (.openString, body)

/-- A word is a reserved word or a name. -/
def wordAt (c : Char) (rest : List Char) : Form × Nat :=
  let tail := rest.takeWhile isWordPart
  (.plain ((TokenKind.ofWord? (String.ofList (c :: tail))).getD .identifier), tail.length)

/-- Two characters are tried before one; what is no operator is an unexpected character. -/
def operatorAt (c : Char) (rest : List Char) : Form × Nat :=
  match rest.head?.bind (doubleOperator? c) with
  | some kind => (.plain kind, 1)
  | none =>
    match singleOperator? c with
    | some kind => (.plain kind, 0)
    | none => (.unexpected c, 0)

/-- What the lexeme is that starts with `c`, and how many characters of `rest` belong to it. -/
def lexemeAt (c : Char) (rest : List Char) : Form × Nat :=
  if isDigit c then (.number, numberLength rest)
  else if c = '"' then stringAt rest
  else if isWordStart c then wordAt c rest
  else operatorAt c rest

/-- A place in the source: the text that is left, and the line it starts on. -/
structure Position where
  line : Nat
  rest : List Char
  deriving DecidableEq, Repr

/-- The place after blanks and comments. A comment runs up to the end of its line, and the line
break is itself a blank. -/
def skipGap (comment : Bool) (line : Nat) : List Char → Position
  | [] => ⟨line, []⟩
  | c :: rest =>
    if c = '\n' then skipGap false (line + 1) rest
    else if comment || isBlank c then skipGap comment line rest
    else if c = '/' ∧ rest.head? = some '/' then skipGap true line rest
    else ⟨line, c :: rest⟩

/-- What follows a gap is no longer than the text before it. -/
theorem length_rest_skipGap_le (comment : Bool) (line : Nat) (text : List Char) :
    (skipGap comment line text).rest.length ≤ text.length := by
  induction text generalizing comment line with
  | nil => simp [skipGap]
  | cons c rest ih =>
    rw [skipGap]
    split
    · exact Nat.le_succ_of_le (ih ..)
    · split
      · exact Nat.le_succ_of_le (ih ..)
      · split
        · exact Nat.le_succ_of_le (ih ..)
        · exact Nat.le_refl _

/-- A piece of the source and the line on which it ends. -/
structure Lexeme where
  form : Form
  text : List Char
  line : Nat
  deriving DecidableEq, Repr

/-- The lexeme that starts at `c`, and the place after it. -/
def cut (line : Nat) (c : Char) (rest : List Char) : Lexeme × Position :=
  let (form, length) := lexemeAt c rest
  let text := c :: rest.take length
  let line := line + text.count '\n'
  (⟨form, text, line⟩, ⟨line, rest.drop length⟩)

/-- What follows a lexeme is no longer than what followed its first character. -/
theorem length_rest_cut_le (line : Nat) (c : Char) (rest : List Char) :
    (cut line c rest).2.rest.length ≤ rest.length := by
  simp [cut]

/-- The lexemes of the text at a place, after those found before it, and the line on which the text
ends. -/
def lexemesFrom (found : Array Lexeme) (place : Position) : Array Lexeme × Nat :=
  match _ : skipGap false place.line place.rest with
  | ⟨line, []⟩ => (found, line)
  | ⟨line, c :: rest⟩ => lexemesFrom (found.push (cut line c rest).1) (cut line c rest).2
termination_by place.rest.length
decreasing_by
  rename_i gap
  have shorter := length_rest_skipGap_le false place.line place.rest
  rw [gap] at shorter
  exact Nat.lt_of_le_of_lt (length_rest_cut_le line c rest) (Nat.lt_of_succ_le shorter)

end Lox.Source
