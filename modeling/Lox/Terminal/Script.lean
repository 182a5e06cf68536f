import Lox.Terminal.Input
import Lox.Terminal.Transcript

/-!
# Running a script

The whole text of a file is run once, on a new machine; the exit code tells whether
there was an error, and of which sort.
-/

namespace Lox.Terminal

/-- The exit code after a run. -/
def exitCode (d : Diagnostics) : Nat :=
  if d.hasSyntaxError then dataExit
  else if d.hasRuntimeError then softwareExit
  else 0

/-- Runs a script, given its path and its bytes, or why there are none. -/
def runScript (display : Display) (path : String) (content : Except ReadError ByteArray)
    (m : Machine) : Option Outcome :=
  match content.bind decode with
  | .error e =>
    some ⟨⟨"", complaint display.color ("Failed to read " ++ path ++ ": " ++ e.message)⟩,
      noInputExit⟩
  | .ok source => do
    let opening :=
      shownIf display.verbose
        (logLine "rlox"
          ("running script path=" ++ path ++ counts [("bytes", source.utf8ByteSize)]))
    let (transcript, diagnostics, _) ← runSource display source m
    return ⟨⟨"", opening⟩ ++ transcript, exitCode diagnostics⟩

end Lox.Terminal
