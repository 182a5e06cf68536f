import Lox.Diagnostic.Diagnostics
import Lox.Grammar.Program
import Lox.Machine.Evaluation

/-!
# Running programs, one after another

A machine runs source texts. A text with any syntax error is not run at all. What one
text leaves behind, its global names above all, the next one finds.

Every function gives nothing if the fuel does not last to the end of the run.
-/

namespace Lox.Machine

/-- Runs statements up to the first runtime error. -/
def interpret (fuel : Nat) (statements : List Stmt) (m : Machine) :
    Option (Option RuntimeError × Machine) :=
  match Lox.interpret fuel statements m with
  | .ok _ m => some (none, m)
  | .error (.error e) m => some (some e, m)
  | .error .outOfFuel _ => none

/-- Runs a parsed program, unless it has syntax errors. -/
def runParse (fuel : Nat) (parse : Grammar.Parse) (m : Machine) : Option (Diagnostics × Machine) :=
  if parse.errors.isEmpty then
    match m.interpret fuel parse.statements with
    | some (error, m) => some (⟨[], error⟩, m)
    | none => none
  else some (⟨parse.errors, none⟩, m)

/-- Runs a source text. -/
def run (fuel : Nat) (source : String) (m : Machine) : Option (Diagnostics × Machine) :=
  m.runParse fuel (Grammar.parseSource source)

/-- Runs source texts one after another, whatever happens in them. -/
def runAll (fuel : Nat) : List String → Machine → Option (List Diagnostics × Machine)
  | [], m => some ([], m)
  | source :: rest, m => do
    let (diagnostics, m) ← m.run fuel source
    let (later, m) ← runAll fuel rest m
    return (diagnostics :: later, m)

/-- What has been written since the last time, and the machine with that taken away. -/
def takeOutput (m : Machine) : String × Machine :=
  (m.sink.written, { m with sink := m.sink.drained })

end Lox.Machine
