import SwiftTidy.Config.Error
import SwiftTidy.Data.KeyTable
import SwiftTidy.Files.Path
import SwiftTidy.Report.Form
import SwiftTidy.Toml.Plain

/-!
# Settings

What a configuration file says: the rules to run with their options, the files to look at, how
often to correct, and the form of the report.  Nothing else may stand in it.
-/

namespace SwiftTidy

/-- The settings of a run. -/
structure Settings where
  disabledRules : List String := []
  optInRules : List String := []
  /-- Only these rules run, if they are given. -/
  onlyRules : Option (List String) := none
  /-- Only these paths are looked at, if there are any. -/
  included : List String := []
  /-- These paths are left out. -/
  excluded : List String := []
  /-- The options of the rules, by the names under which they stand. -/
  rules : KeyTable Toml := .empty
  /-- How often a source is corrected at most. -/
  maxPasses : Nat := 10
  report : ReportKind := .text
  deriving Inhabited

namespace Settings

/-- The names of configuration files, the preferred one first. -/
def fileNames : List String := ["lintel.toml", ".lintel.toml"]

/-- How often a source is corrected at most when nothing is said about it. -/
def defaultMaxPasses : Nat := 10

/-- An array of texts. -/
def readStrings? (v : Toml) : Option (List String) := v.array?.bind (·.mapM Toml.string?)

/-- The number of passes in the entries of the table `fix`. -/
def readFixEntries? : (passes : Nat) → List (String × Toml) → Option Nat
  | passes, [] => some passes
  | _, (key, v) :: es =>
    if key == "max_passes" then v.natural?.bind (readFixEntries? · es) else none

/-- The number of passes in the table `fix`, or in an array whose first item is it. -/
def readFix? : Toml → Option Nat
  | .table es => readFixEntries? defaultMaxPasses es
  | .array [] => some defaultMaxPasses
  | .array (v :: _) => v.natural?
  | _ => none

/-- The kind of report: its word, or a table with the word as its only key and nothing in it. -/
def readReport? : Toml → Option ReportKind
  | .string s => ReportKind.ofWord? s
  | .table [(s, .table [])] => ReportKind.ofWord? s
  | .table [(s, .array [])] => ReportKind.ofWord? s
  | _ => none

/-- The settings after one more entry. -/
def readField? (s : Settings) (key : String) (v : Toml) : Option Settings :=
  match key with
  | "disabled_rules" => (readStrings? v).map fun xs => { s with disabledRules := xs }
  | "opt_in_rules" => (readStrings? v).map fun xs => { s with optInRules := xs }
  | "only_rules" => (readStrings? v).map fun xs => { s with onlyRules := some xs }
  | "included" => (readStrings? v).map fun xs => { s with included := xs }
  | "excluded" => (readStrings? v).map fun xs => { s with excluded := xs }
  | "rules" => (v.entries?.bind Toml.plainEntries?).map fun es => { s with rules := .ofList es }
  | "fix" => (readFix? v).map fun n => { s with maxPasses := n }
  | "reporter" => (readReport? v).map fun r => { s with report := r }
  | _ => none

/-- The settings after more entries. -/
def readEntries? : Settings → List (String × Toml) → Option Settings
  | s, [] => some s
  | s, (key, v) :: es => (readField? s key v).bind (readEntries? · es)

/-- Reads the text of a configuration file. -/
def parse (text : String) : Except ConfigError Settings :=
  match (Toml.parse? text).bind (readEntries? {}) with
  | none => .error .malformed
  | some s =>
    if s.maxPasses = 0 then .error (.invalidValue "fix" "max_passes" "0") else .ok s

/-- The options of a rule under the given name. -/
def ruleOptions? (s : Settings) (name : String) : Option Toml := s.rules.lookup? name

/-- Whether a path is looked at, when other paths are seen from `root`: it is not left out, and it
is named unless no paths are. -/
def includesPath (s : Settings) (path root : String) : Bool :=
  let covers (entry : String) : Bool := Path.startsWith path (Path.join root entry)
  !s.excluded.any covers && (s.included.isEmpty || s.included.any covers)

end Settings

end SwiftTidy
