import Lox.Machine.Session
import Lox.Tree.Listing

/-!
# What running a source text shows

The dumps that were asked for, the output of the program, the log and the report: what
goes to standard output and what to standard error, each in the order in which it is
written.
-/

namespace Lox.Terminal

/-- What is shown beside the output of the program, and how. -/
structure Display where
  color : Bool
  /-- Log lines for what is done. -/
  verbose : Bool
  dumpTokens : Bool
  dumpTree : Bool
  deriving DecidableEq, Repr

/-- The texts written to standard output and standard error. -/
structure Transcript where
  out : String
  err : String
  deriving DecidableEq, Repr

/-- One transcript after another. -/
instance : Append Transcript := ⟨fun a b => ⟨a.out ++ b.out, a.err ++ b.err⟩⟩

/-- Fuel for a run: more steps than can be taken. -/
def fuel : Nat := Nat.pow 10 18

/-- A log line of one part of the program. -/
def logLine (part message : String) : String := "DEBUG " ++ part ++ ": " ++ message ++ "\n"

/-- The fields of a log line that count something. -/
def counts (fields : List (String × Nat)) : String :=
  String.join (fields.map fun (name, count) => " " ++ name ++ "=" ++ toString count)

/-- The log of reading a source text: how many tokens, statements and errors there are. -/
def logReading (scan : Source.Scan) (parse : Grammar.Parse) : String :=
  logLine "rlox::lexer"
      ("scanned source" ++
        counts [("tokens", scan.tokens.length), ("errors", scan.errors.length)]) ++
    logLine "rlox::interpreter::parser"
      ("parsed program" ++
        counts [("statements", parse.statements.length), ("errors", parse.errors.length)])

/-- The log of running a source text: why it is not run, or what ended it. -/
def logRun (d : Diagnostics) : String :=
  if d.hasSyntaxError then
    logLine "rlox::interpreter::evaluator"
      ("skipping execution after syntax errors" ++ counts [("errors", d.syntaxErrors.length)])
  else
    match d.runtimeError with
    | some e =>
      logLine "rlox::interpreter::evaluator"
        ("runtime error" ++ counts [("line", e.line)] ++ " error=" ++ e.message)
    | none => ""

/-- The tokens, one a line. -/
def tokenDump (tokens : List Token) : String :=
  String.join (tokens.map fun token => token.listing ++ "\n")

/-- A text, if it is wanted. -/
def shownIf (wanted : Bool) (text : String) : String := if wanted then text else ""

/-- Runs a source text and shows what there is to show. -/
def runSource (display : Display) (source : String) (m : Machine) :
    Option (Transcript × Diagnostics × Machine) := do
  let scan := Source.scan source
  let parse := Grammar.parse scan.tokens
  let (diagnostics, m) ← m.runParse fuel ⟨parse.statements, scan.errors ++ parse.errors⟩
  let (output, m) := m.takeOutput
  let out :=
    shownIf display.dumpTokens (tokenDump scan.tokens) ++
      shownIf display.dumpTree (Stmt.programListing parse.statements) ++ output
  let log := shownIf display.verbose (logReading scan parse ++ logRun diagnostics)
  return (⟨out, log ++ diagnostics.render display.color⟩, diagnostics, m)

/-- A message of the program itself. -/
def complaint (color : Bool) (message : String) : String :=
  styled color (bold ∘ red) message ++ "\n"

/-- The exit codes of a run that fails: for syntax errors, for a script that cannot be read, and for
a runtime error or a prompt that cannot be read. -/
def dataExit : Nat := 65
def noInputExit : Nat := 66
def softwareExit : Nat := 70

/-- A transcript and the exit code after it. -/
structure Outcome where
  transcript : Transcript
  exitCode : Nat
  deriving DecidableEq, Repr

end Lox.Terminal
