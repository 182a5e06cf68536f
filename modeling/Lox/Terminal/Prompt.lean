import Lox.Terminal.Input
import Lox.Terminal.Transcript

/-!
# The prompt

Lines are read and run one after another on the same machine. A line that is no text
ends the prompt; nothing else does before the end of the input.
-/

namespace Lox.Terminal

/-- What stands in front of each line that is read. -/
def promptText : String := "> "

/-- What is shown when the prompt starts. -/
def promptOpening (display : Display) : Transcript :=
  ⟨"", shownIf display.verbose (logLine "rlox" "entering interactive mode")⟩

/-- What becomes of a line. -/
inductive Step where
  /-- It has been run, and left a machine behind. -/
  | next (transcript : Transcript) (m : Machine)
  /-- It is no text, and the prompt ends. -/
  | stop (outcome : Outcome)

/-- Runs one line, given with its line break. -/
def promptLine (display : Display) (line : ByteArray) (m : Machine) : Option Step :=
  match decode line with
  | .error e =>
    some (.stop ⟨⟨"", complaint display.color ("Error reading input: " ++ e.message)⟩,
      softwareExit⟩)
  | .ok source => do
    let (transcript, _, m) ← runSource display source m
    return .next transcript m

/-- Runs lines up to the end of the input. -/
def promptLines (display : Display) : List ByteArray → Machine → Option Outcome
  | [], _ => some ⟨⟨promptText, ""⟩, 0⟩
  | line :: rest, m => do
    match ← promptLine display line m with
    | .stop outcome => return { outcome with transcript := ⟨promptText, ""⟩ ++ outcome.transcript }
    | .next transcript m =>
      let outcome ← promptLines display rest m
      return { outcome with transcript := ⟨promptText, ""⟩ ++ transcript ++ outcome.transcript }

/-- The byte that ends a line. -/
def lineBreak : UInt8 := 10

/-- Bytes cut after each line break. What follows the last one is a line unless it is empty. -/
def cutLines : List UInt8 → List (List UInt8)
  | [] => []
  | byte :: rest =>
    if byte = lineBreak then [byte] :: cutLines rest
    else
      match cutLines rest with
      | [] => [[byte]]
      | line :: lines => (byte :: line) :: lines

/-- The prompt on a whole input. -/
def runPrompt (display : Display) (input : ByteArray) (m : Machine) : Option Outcome := do
  let lines := (cutLines input.toList).map fun line => ByteArray.mk line.toArray
  let outcome ← promptLines display lines m
  return { outcome with transcript := promptOpening display ++ outcome.transcript }

end Lox.Terminal
