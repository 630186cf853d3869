import SwiftTidy.Lint.Diagnostic
import SwiftTidy.Lint.SourceUnit
import SwiftTidy.Report.Form

/-!
# Reports

What was found in each file, as text for people or as XML for machines.
-/

namespace SwiftTidy

/-- What was found in one file. -/
structure FileReport where
  path : String
  /-- The diagnostics with their locations. -/
  findings : List (Diagnostic × SourceLocation)
  /-- Why the file could not be parsed, if it could not. -/
  parseError : Option (SourceLocation × String)
  deriving DecidableEq, Inhabited

namespace FileReport

/-- The report on a parsed source. -/
def ofUnit (path : String) (u : SourceUnit) (ds : List Diagnostic) : FileReport :=
  ⟨path, ds.map fun d => (d, u.location d.position), none⟩

/-- The report on a source that could not be parsed. -/
def unparsable (path source : String) (e : ParseError) : FileReport :=
  ⟨path, [], some ((LineIndex.ofText source).location e.offset, e.message)⟩

/-- The number of diagnostics of some severity. -/
def count (r : FileReport) (s : Severity) : Nat := r.findings.countP (·.1.severity == s)

/-- Whether the file makes a run fail; warnings count when the run is strict. -/
def isFailure (r : FileReport) (strict : Bool) : Bool :=
  r.parseError.isSome || 0 < r.count .error || (strict && !r.findings.isEmpty)

/-! ### Text -/

/-- A severity in its color. -/
def paintSeverity (color : Bool) : Severity → String
  | .warning => Color.yellow.paint color "warning"
  | .error => Color.red.paint color "error"

/-- The line about a file that could not be parsed. -/
def errorLine (color : Bool) (path : String) (e : SourceLocation × String) : String :=
  path ++ ":" ++ e.1.display ++ ": " ++ Color.boldRed.paint color "parse error" ++ ": " ++ e.2 ++
    "\n"

/-- The line about a diagnostic. -/
def findingLine (color : Bool) (path : String) (f : Diagnostic × SourceLocation) : String :=
  path ++ ":" ++ f.2.display ++ ": " ++ paintSeverity color f.1.severity ++ ": " ++ f.1.message ++
    " (" ++ Color.blue.paint color f.1.rule ++ ")\n"

/-- One line for every diagnostic. -/
def text (color : Bool) (r : FileReport) : String :=
  String.join ((r.parseError.toList.map (errorLine color r.path)) ++
    r.findings.map (findingLine color r.path))

/-- One line for every diagnostic of several files. -/
def textAll (color : Bool) (rs : List FileReport) : String := String.join (rs.map (text color))

/-! ### Checkstyle -/

/-- A character in the value of an attribute. -/
def escapeChar : Char → String
  | '<' => "&lt;"
  | '>' => "&gt;"
  | '&' => "&amp;"
  | '\'' => "&apos;"
  | '"' => "&quot;"
  | c => c.toString

/-- A text in the value of an attribute. -/
def escape (s : String) : String := String.join (s.toList.map escapeChar)

/-- An attribute with its value. -/
def xmlAttribute (name value : String) : String := " " ++ name ++ "=\"" ++ escape value ++ "\""

/-- The element for one finding. -/
def errorElement (l : SourceLocation) (s : Severity) (message source : String) : String :=
  "    <error" ++ xmlAttribute "line" (toString l.line.val) ++
    xmlAttribute "column" (toString l.column.val) ++ xmlAttribute "severity" s.word ++
    xmlAttribute "message" message ++ xmlAttribute "source" source ++ "/>\n"

/-- The element for a file. -/
def checkstyle (r : FileReport) : String :=
  let failed := r.parseError.toList.map fun (l, message) =>
    errorElement l .error message "lintel.parser"
  let found := r.findings.map fun (d, l) =>
    errorElement l d.severity d.message ("lintel.rules." ++ d.rule)
  "  <file" ++ xmlAttribute "name" r.path ++ ">\n" ++ String.join (failed ++ found) ++ "  </file>\n"

/-- The document for several files. -/
def checkstyleAll (rs : List FileReport) : String :=
  "<?xml version=\"1.0\" encoding=\"UTF-8\"?>\n<checkstyle version=\"4.3\">\n" ++
    String.join (rs.map checkstyle) ++ "</checkstyle>\n"

end FileReport

end SwiftTidy
