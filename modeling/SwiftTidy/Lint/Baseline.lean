import SwiftTidy.Data.KeyTable
import SwiftTidy.Lint.Diagnostic
import SwiftTidy.Lint.SourceUnit
import SwiftTidy.Toml.Plain
import SwiftTidy.Toml.StringForm

/-!
# Baselines

A baseline records violations to leave out of later reports.  Each one is kept with the text of
its line, so that it is still recognised when other edits move it: what is not found exactly as
recorded is matched by rule, message and text of the line.  When there are more such copies than
were recorded, all of them are new, since nobody can tell which one is.
-/

namespace SwiftTidy

/-- A recorded violation. -/
structure BaselineEntry where
  path : String
  line : Nat
  column : Nat
  rule : String
  message : String
  /-- The line of the violation, without its end. -/
  text : String
  deriving DecidableEq, Inhabited

namespace BaselineEntry

/-- Records a diagnostic of a source under a path. -/
def ofDiagnostic (path : String) (u : SourceUnit) (d : Diagnostic) : BaselineEntry :=
  let location := u.location d.position
  ⟨path, location.line.val, location.column.val, d.rule, d.message,
    (u.lineIndex.lineText location.line).toOption.getD ""⟩

/-- What stays the same when a violation moves. -/
def key (e : BaselineEntry) : String × String × String := (e.rule, e.message, e.text)

/-- The order of entries: by path, then by location, then by what is recorded. -/
def le (a b : BaselineEntry) : Bool :=
  match compare a.path b.path, compare a.line b.line, compare a.column b.column,
      compare a.rule b.rule, compare a.message b.message, compare a.text b.text with
  | .lt, _, _, _, _, _ => true
  | .gt, _, _, _, _, _ => false
  | .eq, .lt, _, _, _, _ => true
  | .eq, .gt, _, _, _, _ => false
  | .eq, .eq, .lt, _, _, _ => true
  | .eq, .eq, .gt, _, _, _ => false
  | .eq, .eq, .eq, .lt, _, _ => true
  | .eq, .eq, .eq, .gt, _, _ => false
  | .eq, .eq, .eq, .eq, .lt, _ => true
  | .eq, .eq, .eq, .eq, .gt, _ => false
  | .eq, .eq, .eq, .eq, .eq, o => o != .gt

/-- Entries in order. -/
def sort (es : List BaselineEntry) : List BaselineEntry := es.mergeSort le

end BaselineEntry

/-- The number of distinct entries of `es` that are not in `others` and have the given key. -/
def movedCount (es others : List BaselineEntry) (key : String × String × String) : Nat :=
  (es.eraseDups.filter fun e => !others.contains e && e.key == key).length

/-- Whether the recorded entries do not account for one of the current ones. -/
def isUnmatched (current recorded : List BaselineEntry) (e : BaselineEntry) : Bool :=
  !recorded.contains e && movedCount recorded current e.key < movedCount current recorded e.key

/-- Recorded violations by path. -/
structure Baseline where
  groups : KeyTable (List BaselineEntry)
  deriving DecidableEq, Inhabited

namespace Baseline

/-- Adds an entry to the group of its path. -/
def insert (b : Baseline) (e : BaselineEntry) : Baseline :=
  ⟨b.groups.alter e.path fun es => es.getD [] ++ [e]⟩

/-- The baseline of some entries. -/
def ofEntries (es : List BaselineEntry) : Baseline := es.foldl insert ⟨.empty⟩

/-- Every entry, in order. -/
def entries (b : Baseline) : List BaselineEntry := BaselineEntry.sort (b.groups.entries.flatMap (·.2))

/-- The number of entries. -/
def size (b : Baseline) : Nat := b.groups.entries.foldl (fun n g => n + g.2.length) 0

/-- The entries of a path. -/
def recorded (b : Baseline) (path : String) : List BaselineEntry := (b.groups.lookup? path).getD []

/-- The diagnostics of a source that the baseline does not record under a path. -/
def filter (b : Baseline) (path : String) (u : SourceUnit) (ds : List Diagnostic) :
    List Diagnostic :=
  let recorded := b.recorded path
  let current := ds.map (BaselineEntry.ofDiagnostic path u)
  ((ds.zip current).filter fun (_, e) => isUnmatched current recorded e).map (·.1)

/-- The entries of another baseline that this one does not record, in order. -/
def compare (b other : Baseline) : List BaselineEntry :=
  BaselineEntry.sort <| other.groups.entries.flatMap fun (path, es) =>
    es.filter (isUnmatched es (b.recorded path))

/-! ### Written form -/

/-- An entry from its values in the order in which they are written. -/
def entryOfValues? : List (Option Toml) → Option BaselineEntry
  | [path, line, column, rule, message, text] => do
    return ⟨← (← path).string?, ← (← line).natural?, ← (← column).natural?, ← (← rule).string?,
      ← (← message).string?, ← (← text).string?⟩
  | _ => none

/-- The keys of an entry. -/
def keys : List String := ["path", "line", "column", "rule", "message", "text"]

/-- Whether the values under all keys but the known ones are readable; nothing else matters about
them. -/
def isReadableBeside (known : List String) (es : List (String × Toml)) : Bool :=
  es.all fun (k, v) => known.contains k || v.isReadable

/-- An entry from a table, in which other keys do not matter, or from an array. -/
def entryOfValue? : Toml → Option BaselineEntry
  | .table es =>
    if isReadableBeside keys es then entryOfValues? (keys.map fun k => es.lookup k) else none
  | .array xs => entryOfValues? (xs.take keys.length |>.map some)
  | _ => none

/-- The key of the entries. -/
def entriesKey : String := "violations"

/-- Reads a baseline.  Without entries it is empty, and other keys do not matter. -/
def parse? (text : String) : Option Baseline := do
  let document ← Toml.parse? text
  if isReadableBeside [entriesKey] document then
    match document.lookup entriesKey with
    | none => return ofEntries []
    | some v => return ofEntries (← (← v.array?).mapM entryOfValue?)
  else none

/-- An entry as it is written. -/
def writeEntry (e : BaselineEntry) : String :=
  "[[violations]]\npath = " ++ Toml.writeString e.path ++ "\nline = " ++ toString e.line ++
    "\ncolumn = " ++ toString e.column ++ "\nrule = " ++ Toml.writeString e.rule ++
    "\nmessage = " ++ Toml.writeString e.message ++ "\ntext = " ++ Toml.writeString e.text ++ "\n"

/-- A baseline as it is written: its entries in order, with an empty line between them. -/
def write (b : Baseline) : String :=
  match b.entries with
  | [] => "violations = []\n"
  | es => "\n".intercalate (es.map writeEntry)

end Baseline

end SwiftTidy
