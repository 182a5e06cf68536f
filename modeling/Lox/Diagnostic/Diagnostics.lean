import Lox.Diagnostic.RuntimeError
import Lox.Diagnostic.SyntaxError

/-!
# What is reported about a run

The errors that kept a program from running, or the one that ended it, and their text
with and without color.
-/

namespace Lox

structure Diagnostics where
  syntaxErrors : List SyntaxError
  runtimeError : Option RuntimeError
  deriving DecidableEq, Repr

/-- Red text on a terminal. -/
def red (text : String) : String := "\x1b[31m" ++ text ++ "\x1b[39m"

/-- Bold text on a terminal. -/
def bold (text : String) : String := "\x1b[1m" ++ text ++ "\x1b[0m"

/-- A text in a style, or as it is where there is no color. -/
def styled (color : Bool) (style : String → String) (text : String) : String :=
  if color then style text else text

/-- A syntax error on a line of its own, without its line break. -/
def SyntaxError.render (color : Bool) (e : SyntaxError) : String :=
  "[line " ++ toString e.line ++ "] " ++ styled color (bold ∘ red) "Error" ++ " " ++
    e.location.text ++ ": " ++ e.message

/-- A runtime error and its line, without the last line break. -/
def RuntimeError.render (color : Bool) (e : RuntimeError) : String :=
  styled color red e.message ++ "\n[line " ++ toString e.line ++ "]"

namespace Diagnostics

/-- Whether errors kept the program from running. -/
def hasSyntaxError (d : Diagnostics) : Bool := !d.syntaxErrors.isEmpty

/-- Whether an error ended the run. -/
def hasRuntimeError (d : Diagnostics) : Bool := d.runtimeError.isSome

/-- Whether there is nothing to report. -/
def isClean (d : Diagnostics) : Bool := !d.hasSyntaxError && !d.hasRuntimeError

/-- The report, every error with its line break. -/
def render (color : Bool) (d : Diagnostics) : String :=
  String.join (d.syntaxErrors.map fun e => e.render color ++ "\n") ++
    ((d.runtimeError.map fun e => e.render color ++ "\n").getD "")

end Diagnostics

end Lox
