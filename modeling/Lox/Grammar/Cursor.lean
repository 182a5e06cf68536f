import Lox.Diagnostic.SyntaxError

/-!
# Reading tokens

The state of a parse: the tokens that are left, the errors found so far, and how many
loops and functions are open around the place. Few operations touch it: a token is
accepted, expected or found missing, an error is reported, and the two depths count
up before a body and down after it, however it ends.
-/

namespace Lox.Grammar

structure State where
  /-- The tokens ahead, up to the end of the input. -/
  rest : List Token
  /-- The token at the end of the input. -/
  eof : Token
  errors : Array SyntaxError
  /-- Loop bodies open in the innermost function. -/
  loops : Nat
  /-- Function bodies open. -/
  functions : Nat

/-- Why a parser gives up. -/
inductive Failure where
  /-- The token ahead cannot go on what has been read. -/
  | unexpected (error : SyntaxError)
  /-- Nothing is left of the bound on nesting. -/
  | tooDeep

abbrev Parser := EStateM Failure State

/-- The token ahead. -/
def State.peek (s : State) : Token := s.rest.headD s.eof

/-- Whether the token ahead has the given kind. At the end of the input it has none. -/
def State.isAt (s : State) (kind : TokenKind) : Bool :=
  s.rest.head?.any (·.kind == kind)

/-- The token ahead. -/
def peek : Parser Token := fun s => .ok s.peek s

/-- Whether the token ahead has the given kind. -/
def isAt (kind : TokenKind) : Parser Bool := fun s => .ok (s.isAt kind) s

/-- Whether all tokens have been read. -/
def isAtEnd : Parser Bool := fun s => .ok s.rest.isEmpty s

/-- Moves past the token ahead, if it is of one of the given kinds. -/
def acceptAny? (kinds : List TokenKind) : Parser (Option Token) := fun s =>
  match s.rest with
  | [] => .ok none s
  | token :: rest =>
    if token.kind ∈ kinds then .ok (some token) { s with rest := rest } else .ok none s

/-- Moves past the token ahead, if it has the given kind. -/
def accept? (kind : TokenKind) : Parser (Option Token) := acceptAny? [kind]

/-- Gives up, with an error at the token ahead. -/
def failHere (message : String) : Parser α := fun s =>
  .error (.unexpected (.atToken s.peek message)) s

/-- Moves past a token of the given kind, which has to be ahead. -/
def expect (kind : TokenKind) (message : String) : Parser Token := do
  match ← accept? kind with
  | some token => return token
  | none => failHere message

/-- Notes an error at a token and goes on. -/
def report (token : Token) (message : String) : Parser Unit := fun s =>
  .ok () { s with errors := s.errors.push (.atToken token message) }

/-- Notes an error at a token if something is wrong with the state, and goes on. -/
def reportIf (wrong : State → Bool) (token : Token) (message : String) : Parser Unit := fun s =>
  if wrong s then report token message s else .ok () s

/-- What a parser reads, unless a token of the given kind is ahead. -/
def unlessAt (kind : TokenKind) (otherwise : α) (p : Parser α) : Parser α := do
  if ← isAt kind then return otherwise else p

/-- Runs a parser between two changes of the state. The second one is made however the parser ends,
and sees the state before the first. -/
def bracket (enter : State → State) (leave : State → State → State) (p : Parser α) : Parser α :=
  fun s =>
    match p (enter s) with
    | .ok a t => .ok a (leave s t)
    | .error e t => .error e (leave s t)

/-- Parses the body of a loop. -/
def withinLoop (p : Parser α) : Parser α :=
  bracket (fun s => { s with loops := s.loops + 1 }) (fun _ t => { t with loops := t.loops - 1 }) p

/-- Parses the body of a function: no loop outside it is open inside. -/
def withinFunction (p : Parser α) : Parser α :=
  bracket (fun s => { s with loops := 0, functions := s.functions + 1 })
    (fun s t => { t with loops := s.loops, functions := t.functions - 1 }) p

/-- Repeats a step until it gives a result instead of something to go on with. Every repetition
uses up a token of the bound. -/
def repeatStep (step : α → Parser (α ⊕ β)) (bound : List Token) (a : α) : Parser β := do
  match ← step a with
  | .inr result => return result
  | .inl next =>
    match bound with
    | [] => throw .tooDeep
    | _ :: bound => repeatStep step bound next

/-- Repeats a step that moves past a token whenever it does not give the result: no more often than
there are tokens ahead. -/
def iterate (start : α) (step : α → Parser (α ⊕ β)) : Parser β := fun s =>
  repeatStep step s.rest start s

/-- Notes an error at the token ahead if there are too many items already, and goes on. -/
def reportExcess (limit count : Nat) (message : String) : Parser Unit := fun s =>
  if limit ≤ count then report s.peek message s else .ok () s

/-- One item more, and whether a comma follows it. -/
def separatedStep (limit : Nat) (message : String) (item : Parser α) (items : Array α) :
    Parser (Array α ⊕ Array α) := do
  reportExcess limit items.size message
  let last ← item
  match ← accept? .comma with
  | some _ => return .inl (items.push last)
  | none => return .inr (items.push last)

/-- Items separated by commas, at least one. From the item after the `limit` first on each one is
reported, at its first token, and read all the same. -/
def commaSeparated (limit : Nat) (message : String) (item : Parser α) : Parser (List α) := do
  let items ← iterate #[] (separatedStep limit message item)
  return items.toList

end Lox.Grammar
