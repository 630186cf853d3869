import SwiftTidy.Cli.Invocation
import SwiftTidy.Files.Tree
import SwiftTidy.Lint.Baseline
import SwiftTidy.Lint.Linter
import SwiftTidy.Report.FileReport
import SwiftTidy.Report.UnifiedDiff
import SwiftTidy.Rules.Builtin

/-!
# Runs of the command line

Everything a run does with files goes through `FileAccess`, so that the same run works on a value
as well as on the files of a machine.  Output is never colored.
-/

namespace SwiftTidy

/-- What ends a run early: what is said about it, and the exit code. -/
structure Failure where
  message : String
  code : Nat
  deriving DecidableEq, Inhabited

namespace Failure

/-- A failure that has nothing to do with the configuration. -/
def plain (message : String) : Failure := ⟨message, 1⟩

/-- A configuration error.  When a file cannot be read, the cause is said once more. -/
def ofConfig (e : ConfigError) : Failure :=
  match e with
  | .unreadable cause => ⟨e.message ++ ": " ++ cause, 2⟩
  | _ => ⟨e.message, 2⟩

/-- The failure with what was being done in front of it. -/
def during (f : Failure) (action : String) : Failure := ⟨action ++ ": " ++ f.message, f.code⟩

end Failure

namespace Session

variable {m : Type → Type} [Monad m]

/-- A step of a run, which may end it. -/
abbrev Step (m : Type → Type) := ExceptT Failure m

/-- Ends the run unless a result is there. -/
def orFail {α : Type} (r : Except Failure α) : Step m α := ExceptT.mk (pure r)

/-- The settings of a run, with the directory from which their paths are seen. -/
structure Loaded where
  settings : Settings
  root : String

/-- The nearest configuration file in a directory or above it. -/
def discover (fs : FileAccess m) (dir : String) : m (Option String) :=
  firstFile ((Path.ancestors dir).flatMap fun d => Settings.fileNames.map (Path.join d))
where
  /-- The first of some paths that leads to a file. -/
  firstFile : List String → m (Option String)
    | [] => return none
    | p :: ps => do if ← fs.isFile p then return some p else firstFile ps

/-- Reads a configuration file. -/
def readSettings (fs : FileAccess m) (path : String) : m (Except ConfigError Settings) := do
  match ← fs.read path with
  | .ok text => return Settings.parse text
  | .error cause => return .error (.unreadable cause)

/-- The settings of the given configuration file, or of the nearest one. -/
def load (fs : FileAccess m) (given : Option String) : Step m Loaded := do
  let cwd ← fs.currentDirectory
  let path ←
    match given with
    | some p => pure (some p)
    | none => discover (m := m) fs cwd
  match path with
  | none => return ⟨{}, cwd⟩
  | some path =>
    let result ← readSettings (m := m) fs path
    let settings ← orFail <|
      result.mapError fun e => (Failure.ofConfig e).during s!"Failed to load {path}"
    fs.printError s!"Loaded config from: {path}\n"
    let parent := ((Path.parent? path).filter (!·.isEmpty)).getD cwd
    return ⟨settings, parent⟩

/-- The linter of some settings. -/
def linter (l : Loaded) : Step m Linter :=
  orFail ((Linter.ofSettings .builtin l.settings).mapError Failure.ofConfig)

/-- Whether a path names a source. -/
def isSource (path : String) : Bool := Path.extension? path == some "swift"

/-- Drops each path that names the same file as the one in front of it. -/
def dropRepeated : List String → List String
  | p :: q :: rest =>
    if Path.components p == Path.components q then dropRepeated (p :: rest)
    else p :: dropRepeated (q :: rest)
  | ps => ps
termination_by ps => ps.length

/-- The sources that a path leads to. -/
def sourcesAt (fs : FileAccess m) (path : String) : m (List String) := do
  if ← fs.isFile path then return [path].filter isSource
  else return (← fs.filesBelow path).filter isSource

/-- The sources that some paths lead to and the settings include, in order. -/
def sources (fs : FileAccess m) (l : Loaded) (paths : List String) : m (List String) := do
  let found ← paths.mapM (sourcesAt fs)
  let included := found.flatten.filter (l.settings.includesPath · l.root)
  return dropRepeated (included.mergeSort Path.le)

/-- Reads a source. -/
def readSource (fs : FileAccess m) (path : String) : Step m String := do
  let result ← fs.read path
  orFail (result.mapError fun cause => .plain s!"Failed to read {path}: {cause}")

/-- The path under which the violations of a file are recorded. -/
def recordedPath (cwd root path : String) : String :=
  String.ofList ((Path.relativeTo cwd root path).toList.map fun c => if c == '\\' then '/' else c)

/-- Exit code of a run with some reports. -/
def exitCode (reports : List FileReport) (strict : Bool) : Nat :=
  if reports.any (·.isFailure strict) then 1 else 0

/-! ### Lint -/

/-- Looks at one file: the report on it, and the violations to record. -/
def lintFile (fs : FileAccess m) (linter : Linter) (baseline : Option Baseline) (root : String)
    (path : String) : Step m (FileReport × List BaselineEntry) := do
  let source ← readSource fs path
  let cwd ← fs.currentDirectory
  match SourceUnit.ofText source with
  | .error e => return (.unparsable path source e, [])
  | .ok u =>
    let key := recordedPath cwd root path
    let found := linter.analyze u
    let shown :=
      match baseline with
      | some b => b.filter key u found
      | none => found
    return (.ofUnit path u shown, found.map (BaselineEntry.ofDiagnostic key u))

/-- Reads a baseline. -/
def readBaseline (fs : FileAccess m) (path : String) : Step m Baseline := do
  match ← fs.read path with
  | .error cause =>
    orFail <| .error <|
      .plain (s!"Failed to load baseline {path}: failed to access baseline file: " ++
        s!"{cause}: {cause}")
  | .ok text =>
    match Baseline.parse? text with
    | some b => return b
    | none =>
      orFail <| .error <|
        .plain (s!"Failed to load baseline {path}: failed to parse baseline: TOML parse error")

/-- Writes a baseline and says so. -/
def writeBaseline (fs : FileAccess m) (path : String) (b : Baseline) : Step m Unit := do
  match ← fs.write path b.write with
  | .error cause =>
    orFail <| .error <|
      .plain (s!"Failed to write baseline {path}: failed to access baseline file: " ++
        s!"{cause}: {cause}")
  | .ok () =>
    let count := b.size
    fs.printError s!"Recorded {count} violation(s) in {path}\n"

/-- What is said at the end of a run. -/
def summary (reports : List FileReport) : String :=
  let warnings : Nat := reports.foldl (fun (n : Nat) r => n + r.count .warning) 0
  let errors : Nat := reports.foldl (fun (n : Nat) r => n + r.count .error) 0
  let total := warnings + errors
  let files := reports.length
  let unparsable := reports.countP (·.parseError.isSome)
  (if total = 0 then s!"No violations found in {files} file(s)\n"
    else s!"\nFound {total} violation(s), {errors} serious, in {files} file(s)\n") ++
    if unparsable = 0 then "" else s!"{unparsable} file(s) could not be parsed\n"

/-- Reports the violations in some files. -/
def lint (fs : FileAccess m) (paths : List String) (config : Option String)
    (reporter : Option ReportKind) (strict : Bool) (baseline record : Option String) :
    Step m Nat := do
  let loaded ← load fs config
  let linter ← linter loaded
  let files ← sources (m := m) fs loaded paths
  let existing ← baseline.mapM (readBaseline fs)
  let linted ← files.mapM (lintFile fs linter existing loaded.root)
  if let some path := record then
    writeBaseline fs path (.ofEntries (linted.flatMap (·.2)))
  let reports := linted.map (·.1)
  match reporter.getD loaded.settings.report with
  | .text =>
    fs.print (FileReport.textAll false reports)
    fs.printError (summary reports)
  | .checkstyle => fs.print (FileReport.checkstyleAll reports)
  return exitCode reports strict

/-! ### Fix -/

/-- What correcting a file did. -/
structure FileFix where
  /-- What is left to report. -/
  remaining : FileReport
  before : String
  after : String
  corrections : Nat
  converged : Bool

/-- Corrects one file, which is only written if it is not just looked at. -/
def fixFile (fs : FileAccess m) (linter : Linter) (diff : Bool) (path : String) :
    Step m FileFix := do
  let source ← readSource fs path
  match linter.correct source with
  | .error e => return ⟨.unparsable path source e, source, source, 0, true⟩
  | .ok outcome =>
    if outcome.isChanged && !diff then
      let result ← fs.write path outcome.source
      orFail (result.mapError fun cause => .plain s!"Failed to write {path}: {cause}")
    match SourceUnit.ofText outcome.source with
    | .error e =>
      let cause := e.display
      orFail (.error (.plain s!"Corrected {path} no longer parses: {cause}"))
    | .ok u =>
      return ⟨.ofUnit path u (linter.analyze u), source, outcome.source,
        outcome.corrections.length, outcome.converged⟩

/-- Says what correcting a file did. -/
def reportFix (fs : FileAccess m) (diff : Bool) (f : FileFix) : m Unit := do
  let path := f.remaining.path
  if !f.converged then
    fs.printError s!"{path}: warning: corrections did not settle; run `lintel fix` again\n"
  if f.corrections ≠ 0 then
    if diff then fs.print (UnifiedDiff.render false path f.before f.after)
    else
      let count := f.corrections
      fs.printError s!"{path}: {count} correction(s) applied\n"

/-- Corrects the violations in some files. -/
def fix (fs : FileAccess m) (paths : List String) (config : Option String) (diff : Bool) :
    Step m Nat := do
  let loaded ← load fs config
  let linter ← linter loaded
  let files ← sources (m := m) fs loaded paths
  let fixes ← files.mapM (fixFile fs linter diff)
  for f in fixes do reportFix (m := m) fs diff f
  let remaining := fixes.map (·.remaining)
  fs.print (FileReport.textAll false remaining)
  let total : Nat := fixes.foldl (fun (n : Nat) f => n + f.corrections) 0
  let changed := fixes.countP (·.corrections ≠ 0)
  let verb := if diff then "available" else "applied"
  fs.printError <|
    if total = 0 then "No corrections to apply\n"
    else s!"\n{total} correction(s) {verb} in {changed} file(s)\n"
  return exitCode remaining false

/-! ### Rules -/

/-- A text filled up with spaces. -/
def pad (width : Nat) (s : String) : String := s.pushn ' ' (width - s.length)

/-- A row of the table of rules. -/
def row (identifier kind optIn correctable enabled : String) : String :=
  pad 30 identifier ++ " " ++ pad 10 kind ++ " " ++ pad 8 optIn ++ " " ++ pad 12 correctable ++
    " " ++ enabled ++ "\n"

/-- A truth value in a table. -/
def yesNo (b : Bool) : String := if b then "yes" else "no"

/-- Lists the rules, and whether they run. -/
def rules (fs : FileAccess m) (config : Option String) : Step m Nat := do
  let loaded ← load fs config
  let linter ← linter loaded
  let enabled := linter.rules.map (·.identifier)
  fs.print (row "identifier" "kind" "opt-in" "correctable" "enabled")
  for e in Registry.builtin.entries do
    let d := e.description
    fs.print (row d.identifier d.kind.word (yesNo d.optIn) (yesNo d.correctable)
      (yesNo (enabled.contains d.identifier)))
  return 0

/-! ### Runs -/

/-- Does what a run is asked to do; the answer is the exit code. -/
def run (fs : FileAccess m) (i : Invocation) : m Nat := do
  let result ← ExceptT.run (m := m) <|
    match i with
    | .lint paths config reporter strict baseline record =>
      lint fs paths config reporter strict baseline record
    | .fix paths config diff => fix fs paths config diff
    | .rules config => rules fs config
  match result with
  | .ok code => return code
  | .error f =>
    fs.printError ("error: " ++ f.message ++ "\n")
    return f.code

/-- Runs with some arguments; the answer is the exit code. -/
def execute (fs : FileAccess m) (args : List String) : m Nat := do
  match Invocation.parse args with
  | .ok i => run fs i
  | .error e =>
    fs.printError ("error: " ++ e.message ++ "\n\nFor more information, try '--help'.\n")
    return 2

end Session

end SwiftTidy
