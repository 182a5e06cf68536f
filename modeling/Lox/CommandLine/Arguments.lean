import Lox.CommandLine.Basic
import Lox.CommandLine.Resemblance

/-!
# Reading a command line

Arguments are read from left to right. The value of an option, or the script, waits
until the next argument of the command is taken up before it is checked, so of two
faults an unknown option is found before a bad value that stands in front of it.
-/

namespace Lox.CommandLine

/-- What has been read and not been checked yet. -/
inductive Waiting where
  | nothing
  /-- The option for color, without its value or with it. -/
  | color (value : Option String)
  | script (path : String)
  deriving DecidableEq, Repr

/-- What is known of the command line so far. -/
structure Progress where
  waiting : Waiting
  /-- Something stands where the script belongs, checked or not. -/
  hasScript : Bool
  script : Option String
  color : Option ColorChoice
  verbose : Bool
  dumpTokens : Bool
  dumpTree : Bool
  deriving DecidableEq, Repr

namespace Progress

def start : Progress := ⟨.nothing, false, none, none, false, false, false⟩

/-- Checks what waits. Color can be chosen once only, and a script has a path. -/
def settle (p : Progress) : Except Refusal Progress :=
  match p.waiting with
  | .nothing => .ok p
  | .color none => .error .invalidValue
  | .color (some word) =>
    if p.color.isSome then .error .argumentConflict
    else
      match ColorChoice.ofWord? word with
      | some color => .ok { p with waiting := .nothing, color := some color }
      | none => .error .valueValidation
  | .script path =>
    if path.isEmpty then .error .invalidValue
    else .ok { p with waiting := .nothing, script := some path }

/-- Whether the next argument may be the value of an option. -/
def wantsValue (p : Progress) : Bool := p.waiting == .color none

/-- The settings, once everything has been checked. -/
def settings (p : Progress) : Settings where
  script := p.script
  color := p.color.getD .auto
  verbose := p.verbose
  dumpTokens := p.dumpTokens
  dumpTree := p.dumpTree

end Progress

/-- An option that takes no value. -/
inductive Switch where
  | verbose
  | dumpTokens
  | dumpTree
  | help
  | version
  deriving DecidableEq, Repr

/-- The switches that are written out. -/
def Switch.ofName? : String → Option Switch
  | "verbose" => some verbose
  | "dump-tokens" => some dumpTokens
  | "dump-ast" => some dumpTree
  | "help" => some help
  | "version" => some version
  | _ => none

/-- The switches that are single letters. -/
def Switch.ofLetter? : Char → Option Switch
  | 'v' => some verbose
  | 'h' => some help
  | 'V' => some version
  | _ => none

/-- Turns a switch on, which can be done once. -/
def Progress.switch (p : Progress) (s : Switch) : Except Refusal Progress := do
  let p ← p.settle
  match s with
  | .verbose => if p.verbose then throw .argumentConflict else return { p with verbose := true }
  | .dumpTokens =>
    if p.dumpTokens then throw .argumentConflict else return { p with dumpTokens := true }
  | .dumpTree => if p.dumpTree then throw .argumentConflict else return { p with dumpTree := true }
  | .help => throw .displayHelp
  | .version => throw .displayVersion

/-- The name and the value in `name=value`. -/
def splitValue (option : String) : String × Option String :=
  let name := option.toList.takeWhile (· ≠ '=')
  match option.toList.drop name.length with
  | [] => (option, none)
  | _ :: value => (String.ofList name, some (String.ofList value))

/-- An option that is written out, without its dashes. -/
def Progress.longOption (p : Progress) (option : String) : Except Refusal Progress := do
  let (name, value) := splitValue option
  if name = "color" then
    let p ← p.settle
    let p := { p with waiting := .color value }
    if value.isSome then p.settle else return p
  else
    match Switch.ofName? name with
    | none => throw .unknownArgument
    | some s => if value.isSome then throw .tooManyValues else p.switch s

/-- Options of one letter each, without their dash. -/
def Progress.letters (p : Progress) : List Char → Except Refusal Progress
  | [] => .ok p
  | letter :: rest => do
    match Switch.ofLetter? letter with
    | none => throw .unknownArgument
    | some s => (← p.switch s).letters rest

/-- The names of the commands. -/
def commandNames : List String := ["complete", "help"]

/-- An argument that is no option. There is one script; a second one that looks like the name of a
command is taken for that. -/
def Progress.positional (p : Progress) (argument : String) (literally : Bool) :
    Except Refusal Progress :=
  if p.hasScript then
    if literally && commandNames.contains argument then .error .unknownArgument
    else if commandNames.any (resembles argument) then .error .invalidSubcommand
    else .error .unknownArgument
  else do
    let p ← p.settle
    return { p with waiting := .script argument, hasScript := true }

/-- The name of an option that is written out: what follows two dashes. -/
def longName? (argument : String) : Option String :=
  match argument.toList with
  | '-' :: '-' :: c :: name => some (String.ofList (c :: name))
  | _ => none

/-- The letters after a single dash. -/
def shortLetters? (argument : String) : Option (List Char) :=
  match argument.toList with
  | '-' :: '-' :: _ => none
  | '-' :: c :: letters => some (c :: letters)
  | _ => none

/-- The arguments of the command `complete`: one shell. -/
def completeArguments (literally : Bool) : Option String → List String → Except Refusal Shell
  | none, [] => .error .missingRequiredArgument
  | some name, [] =>
    match Shell.ofName? name with
    | some shell => .ok shell
    | none => .error .invalidValue
  | given, argument :: rest =>
    let wantsHelp := argument = "--help" ∨ (shortLetters? argument).any (·.head? == some 'h')
    if ¬ literally ∧ argument = "--" then completeArguments true given rest
    else if ¬ literally ∧ wantsHelp then
      if given.all (Shell.ofName? · |>.isSome) then .error .displayHelp else .error .invalidValue
    else if ¬ literally ∧ (longName? argument).map splitValue matches some ("help", some _) then
      .error .tooManyValues
    else if ¬ literally ∧ ((longName? argument).isSome ∨ (shortLetters? argument).isSome) then
      .error .unknownArgument
    else if given.isSome then .error .unknownArgument
    else completeArguments literally (some argument) rest

/-- The arguments of the command `help`: the command to explain, which has none below it. -/
def helpArguments : List String → Refusal
  | [] => .displayHelp
  | [name] => if commandNames.contains name then .displayHelp else .invalidSubcommand
  | _ => .invalidSubcommand

/-- Reads the arguments that follow `--`, none of which is an option or a command. -/
def readLiterally (p : Progress) : List String → Except Refusal Request
  | [] => do return .run (← p.settle).settings
  | argument :: rest => do readLiterally (← p.positional argument true) rest

/-- Reads arguments. -/
def readArguments (p : Progress) : List String → Except Refusal Request
  | [] => do return .run (← p.settle).settings
  | argument :: rest => do
    if !p.wantsValue && argument = "complete" then
      let shell ← completeArguments false none rest
      let _ ← p.settle
      return .complete shell
    else if !p.wantsValue && argument = "help" then throw (helpArguments rest)
    else if argument = "--" then readLiterally p rest
    else
      match longName? argument, shortLetters? argument with
      | some option, _ => readArguments (← p.longOption option) rest
      | none, some letters => readArguments (← p.letters letters) rest
      | none, none =>
        if p.wantsValue then readArguments { p with waiting := .color (some argument) } rest
        else readArguments (← p.positional argument false) rest

/-- What the arguments of the program ask for. -/
def request (arguments : List String) : Except Refusal Request :=
  readArguments .start arguments

end Lox.CommandLine
