/-!
# What a command line asks for

Settings for a run, or a completion script for a shell; and the ways in which a command
line can be wrong.
-/

namespace Lox.CommandLine

/-- When to use color. -/
inductive ColorChoice where
  /-- If both outputs are terminals. -/
  | auto
  | always
  | never
  deriving DecidableEq, Repr

/-- The choice that a word names, in letters of either case. -/
def ColorChoice.ofWord? (word : String) : Option ColorChoice :=
  match word.toLower with
  | "auto" => some auto
  | "always" => some always
  | "never" => some never
  | _ => none

/-- Shells for which there is a completion script. -/
inductive Shell where
  | bash
  | elvish
  | fish
  | powershell
  | zsh
  deriving DecidableEq, Repr

namespace Shell

def name : Shell → String
  | bash => "bash"
  | elvish => "elvish"
  | fish => "fish"
  | powershell => "powershell"
  | zsh => "zsh"

/-- The shell of a name. -/
def ofName? : String → Option Shell
  | "bash" => some bash
  | "elvish" => some elvish
  | "fish" => some fish
  | "powershell" => some powershell
  | "zsh" => some zsh
  | _ => none

end Shell

/-- How to run, and what. -/
structure Settings where
  /-- The script to run; without one there is a prompt. -/
  script : Option String
  color : ColorChoice
  /-- Log what is done. -/
  verbose : Bool
  dumpTokens : Bool
  dumpTree : Bool
  deriving DecidableEq, Repr

/-- What a command line asks for. -/
inductive Request where
  | run (settings : Settings)
  | complete (shell : Shell)
  deriving DecidableEq, Repr

/-- Why a command line is not carried out. -/
inductive Refusal where
  /-- An option that there is not, or an argument too many. -/
  | unknownArgument
  /-- An option given twice. -/
  | argumentConflict
  /-- A value left out, or one that is not among those there are. -/
  | invalidValue
  /-- A value that cannot be read. -/
  | valueValidation
  /-- A value for an option that takes none. -/
  | tooManyValues
  | missingRequiredArgument
  /-- A command that there is not. -/
  | invalidSubcommand
  /-- No error: the help text is wanted. -/
  | displayHelp
  /-- No error: the version is wanted. -/
  | displayVersion
  deriving DecidableEq, Repr

/-- Where a command line is wrong. -/
def usageExit : Nat := 64

/-- The exit code of a program that is not run. -/
def Refusal.exitCode : Refusal → Nat
  | displayHelp | displayVersion => 0
  | _ => usageExit

end Lox.CommandLine
