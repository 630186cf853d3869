/-!
# Findings

A finding is a warning or an error.  A rule reports violations; together with the rule's description
they become diagnostics, which is what a user sees.  A correction is a place at which a rule changed
the source.
-/

namespace SwiftTidy

/-! ### Severity -/

/-- How serious a finding is: an error makes a run fail, a warning does not. -/
inductive Severity where
  | warning
  | error
  deriving DecidableEq, Inhabited

namespace Severity

/-- The word for a severity. -/
def word : Severity → String
  | warning => "warning"
  | error => "error"

/-- Reads the word for a severity. -/
def ofWord? (s : String) : Option Severity := [warning, error].find? (·.word == s)

/-- Whether it is the more serious of the two. -/
def isError (s : Severity) : Bool := s == error

/-- The more serious of two severities. -/
def max : Severity → Severity → Severity
  | warning, s => s
  | error, _ => error

/-- What to say about a word that names no severity. -/
def unknownMessage (word : String) : String :=
  "invalid severity '" ++ word ++ "', expected 'warning' or 'error'"

end Severity

/-! ### Findings -/

/-- A place that breaks a rule, with what the rule has to say beyond its description. -/
structure Violation where
  position : Nat
  reason : Option String := none
  severity : Option Severity := none
  deriving DecidableEq, Inhabited

namespace Violation

/-- A violation about which there is nothing special to say. -/
def plain (position : Nat) : Violation := ⟨position, none, none⟩

/-- Violations by position; those at the same position keep their order. -/
def sort (vs : List Violation) : List Violation := vs.mergeSort fun a b => a.position ≤ b.position

end Violation

/-- A violation with all that is reported about it. -/
structure Diagnostic where
  rule : String
  severity : Severity
  position : Nat
  message : String
  deriving DecidableEq, Inhabited

namespace Diagnostic

/-- The diagnostic of a violation: what the violation leaves open is filled in from its rule. -/
def ofViolation (rule : String) (severity : Severity) (message : String) (v : Violation) :
    Diagnostic :=
  ⟨rule, v.severity.getD severity, v.position, v.reason.getD message⟩

/-- The order in which diagnostics are reported: by position, then by rule. -/
def before (a b : Diagnostic) : Bool :=
  a.position < b.position || (a.position == b.position && a.rule ≤ b.rule)

/-- Diagnostics in the order in which they are reported. -/
def sort (ds : List Diagnostic) : List Diagnostic := ds.mergeSort before

end Diagnostic

/-- A place at which a rule changed the source. -/
structure Correction where
  position : Nat
  rule : String
  deriving DecidableEq, Inhabited

end SwiftTidy
