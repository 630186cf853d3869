import SwiftTidy.Report.Form

/-!
# Arguments of the command line
-/

namespace SwiftTidy

/-- What a run is asked to do. -/
inductive Invocation where
  /-- Report the violations in some files. -/
  | lint (paths : List String) (config : Option String) (reporter : Option ReportKind)
      (strict : Bool) (baseline writeBaseline : Option String)
  /-- Correct the violations in some files, or only show what would change. -/
  | fix (paths : List String) (config : Option String) (diff : Bool)
  /-- List the rules. -/
  | rules (config : Option String)
  deriving DecidableEq, Inhabited

/-- What can be wrong with the arguments. -/
inductive UsageError where
  | noCommand
  | unknownCommand (word : String)
  | unknownOption (word : String)
  | missingValue (option : String)
  | unexpectedValue (option : String)
  | repeated (option : String)
  | noPaths
  | invalidReporter (word : String)
  deriving DecidableEq, Inhabited

/-- What is said about wrong arguments. -/
def UsageError.message : UsageError → String
  | noCommand => "a command is required: lint, fix or rules"
  | unknownCommand word => s!"unrecognized subcommand '{word}'"
  | unknownOption word => s!"unexpected argument '{word}' found"
  | missingValue option => s!"a value is required for '{option}' but none was supplied"
  | unexpectedValue option => s!"unexpected value for '{option}' found; no more were expected"
  | repeated option => s!"the argument '{option}' cannot be used multiple times"
  | noPaths => "the following required arguments were not provided: <PATHS>..."
  | invalidReporter word =>
    s!"invalid value '{word}' for '--reporter <REPORTER>': " ++ ReportKind.unknownMessage word

namespace Invocation

/-- What an option of a command needs. -/
structure OptionSpec where
  long : String
  short : Option Char
  takesValue : Bool

/-- The option that names a configuration file. -/
def configOption : OptionSpec := ⟨"config", some 'c', true⟩

/-- The options of the command `lint`. -/
def lintOptions : List OptionSpec :=
  [configOption, ⟨"reporter", none, true⟩, ⟨"strict", none, false⟩, ⟨"baseline", none, true⟩,
   ⟨"write-baseline", none, true⟩]

/-- The options of the command `fix`. -/
def fixOptions : List OptionSpec := [configOption, ⟨"diff", none, false⟩]

/-- The options of the command `rules`. -/
def rulesOptions : List OptionSpec := [configOption]

/-- The arguments of a command: its options with their values, and its paths. -/
structure Arguments where
  options : List (String × String)
  paths : List String

/-- Adds an option, which must not be there yet. -/
def Arguments.add (a : Arguments) (name value : String) : Except UsageError Arguments :=
  if (a.options.lookup name).isSome then .error (.repeated ("--" ++ name))
  else .ok { a with options := a.options ++ [(name, value)] }

/-- An argument that is an option, with the value that is written into it. -/
def splitOption (specs : List OptionSpec) (arg : List Char) :
    Option (OptionSpec × Option String) :=
  match arg with
  | '-' :: '-' :: rest =>
    let name := rest.takeWhile (· != '=')
    let value := (rest.drop name.length)
    (specs.find? fun s => s.long.toList == name).map fun s =>
      (s, if value.isEmpty then none else some (String.ofList (value.drop 1)))
  | '-' :: c :: rest =>
    (specs.find? fun s => s.short == some c).map fun s =>
      (s, if rest.isEmpty then none
        else if rest.head? == some '=' then some (String.ofList (rest.drop 1))
        else some (String.ofList rest))
  | _ => none

/-- Reads the arguments of a command. -/
def readArguments (specs : List OptionSpec) : Arguments → List String →
    Except UsageError Arguments
  | a, [] => .ok a
  | a, "--" :: rest => .ok { a with paths := a.paths ++ rest }
  | a, arg :: rest =>
    if arg.toList.head? == some '-' && arg != "-" then
      match splitOption specs arg.toList, rest with
      | none, _ => .error (.unknownOption arg)
      | some (s, some value), rest =>
        if s.takesValue then do readArguments specs (← a.add s.long value) rest
        else .error (.unexpectedValue arg)
      | some (s, none), value :: rest' =>
        if s.takesValue then
          if value.toList.head? == some '-' && value != "-" then .error (.missingValue arg)
          else do readArguments specs (← a.add s.long value) rest'
        else do readArguments specs (← a.add s.long "") (value :: rest')
      | some (s, none), [] =>
        if s.takesValue then .error (.missingValue arg) else do
          readArguments specs (← a.add s.long "") []
    else readArguments specs { a with paths := a.paths ++ [arg] } rest
termination_by _ args => args.length

/-- Reads a kind of report. -/
def readReporter : Option String → Except UsageError (Option ReportKind)
  | none => .ok none
  | some word =>
    match ReportKind.ofWordFolded? word with
    | some r => .ok (some r)
    | none => .error (.invalidReporter word)

/-- The path that an option names, which must not be empty. -/
def readPath (a : Arguments) (name : String) : Except UsageError (Option String) :=
  match a.options.lookup name with
  | some "" => .error (.missingValue ("--" ++ name))
  | path => .ok path

/-- The paths among the arguments: at least one, and none of them empty. -/
def readPaths (a : Arguments) : Except UsageError (List String) :=
  if a.paths.isEmpty then .error .noPaths
  else if a.paths.contains "" then .error (.missingValue "<PATHS>...")
  else .ok a.paths

/-- Reads the arguments of a run. -/
def parse : List String → Except UsageError Invocation
  | [] => .error .noCommand
  | "lint" :: args => do
    let a ← readArguments lintOptions ⟨[], []⟩ args
    return lint (← readPaths a) (← readPath a "config")
      (← readReporter (a.options.lookup "reporter")) (a.options.lookup "strict").isSome
      (← readPath a "baseline") (← readPath a "write-baseline")
  | "fix" :: args => do
    let a ← readArguments fixOptions ⟨[], []⟩ args
    return fix (← readPaths a) (← readPath a "config") (a.options.lookup "diff").isSome
  | "rules" :: args => do
    let a ← readArguments rulesOptions ⟨[], []⟩ args
    match a.paths with
    | [] => return rules (← readPath a "config")
    | p :: _ => .error (.unknownOption p)
  | word :: _ => .error (.unknownCommand word)

end Invocation

end SwiftTidy
