import Std.Time.DateTime.Timestamp
import Lox.CommandLine.Arguments
import Lox.Terminal.Prompt
import Lox.Terminal.Script

/-!
# The program

Reads the command line, the script or the lines of the prompt, and writes what comes of
them.
-/

namespace Lox

/-- How the program is used. -/
def usage : String :=
  "Usage: rlox [--color auto|always|never] [-v] [--dump-tokens] [--dump-ast] [SCRIPT]\n"

def versionText : String := "rlox 0.1.0\n"

/-- The time, in milliseconds since the Unix epoch. -/
def epochMillis : IO Nat := do
  let now ← Std.Time.Timestamp.now
  return now.toMillisecondsSinceUnixEpoch.val.toNat

/-- The machine with the clock set to now. Every later reading is a millisecond further. -/
def withTime (m : Machine) : IO Machine := do
  let now ← epochMillis
  return { m with clock := fun reading => now + (reading - m.readings) }

/-- Why the system could not read a file. -/
def readErrorOf : IO.Error → Terminal.ReadError
  | .noFileOrDirectory .. => .notFound
  | .inappropriateType _ code _ => if code = 20 then .notDirectory else .isDirectory
  | error => .other (toString error)

/-- Writes a transcript. -/
def emit (t : Terminal.Transcript) : IO Unit := do
  let out ← IO.getStdout
  out.putStr t.out
  out.flush
  let err ← IO.getStderr
  err.putStr t.err
  err.flush

/-- Writes an outcome and gives its exit code, or stops where the fuel is spent. -/
def conclude : Option Terminal.Outcome → IO UInt32
  | some outcome => do
    emit outcome.transcript
    return outcome.exitCode.toUInt32
  | none => return Terminal.softwareExit.toUInt32

/-- The bytes up to the next line break and with it, or up to the end of the input. -/
partial def readLine (input : IO.FS.Stream) (line : ByteArray) : IO ByteArray := do
  let next ← input.read 1
  let line := line ++ next
  if next.isEmpty || next.toList.contains Terminal.lineBreak then return line
  readLine input line

/-- The prompt on a terminal: every line is run as soon as it has been read. -/
partial def promptLoop (display : Terminal.Display) (m : Machine) : IO UInt32 := do
  emit ⟨Terminal.promptText, ""⟩
  let line ← readLine (← IO.getStdin) .empty
  if line.isEmpty then return 0
  match Terminal.promptLine display line (← withTime m) with
  | some (.next transcript m) =>
    emit transcript
    promptLoop display m
  | some (.stop outcome) => conclude (some outcome)
  | none => conclude none

/-- Whether to use color; by itself only if both outputs are terminals. -/
def wantsColor : CommandLine.ColorChoice → IO Bool
  | .always => return true
  | .never => return false
  | .auto => do
    let out ← (← IO.getStdout).isTty
    let err ← (← IO.getStderr).isTty
    return out && err

/-- Runs what the settings say. -/
def runSettings (settings : CommandLine.Settings) : IO UInt32 := do
  let color ← wantsColor settings.color
  let display := ⟨color, settings.verbose, settings.dumpTokens, settings.dumpTree⟩
  let m ← withTime (.initial .unlimited id)
  match settings.script with
  | some path =>
    let content ←
      try .ok <$> IO.FS.readBinFile path
      catch error => pure (.error (readErrorOf error))
    conclude (Terminal.runScript display path content m)
  | none =>
    emit (Terminal.promptOpening display)
    promptLoop display m

end Lox

/-- Carries out the command line. -/
def main (arguments : List String) : IO UInt32 := do
  match Lox.CommandLine.request arguments with
  | .ok (.run settings) => Lox.runSettings settings
  | .ok (.complete _) => return 0
  | .error .displayHelp => Lox.emit ⟨Lox.usage, ""⟩; return 0
  | .error .displayVersion => Lox.emit ⟨Lox.versionText, ""⟩; return 0
  | .error refusal => Lox.emit ⟨"", Lox.usage⟩; return refusal.exitCode.toUInt32
