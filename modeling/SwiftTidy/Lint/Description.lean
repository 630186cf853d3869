/-!
# Descriptions of rules

What is known about a rule without running it: its names, what it is for, and examples of code
that it accepts, reports or corrects.
-/

namespace SwiftTidy

/-- What a rule is about. -/
inductive RuleKind where
  | lint
  | idiomatic
  | style
  | metrics
  | performance
  deriving DecidableEq, Inhabited

/-- The word for what a rule is about. -/
def RuleKind.word : RuleKind → String
  | lint => "lint"
  | idiomatic => "idiomatic"
  | style => "style"
  | metrics => "metrics"
  | performance => "performance"

/-- A piece of code, with the options of the rule under which it is an example. -/
structure Example where
  code : String
  options : Option String := none
  deriving DecidableEq, Inhabited

/-- A description of a rule. -/
structure RuleDescription where
  identifier : String
  name : String
  summary : String
  kind : RuleKind
  /-- Runs only when it is asked for. -/
  optIn : Bool
  correctable : Bool
  /-- Names under which the rule was known before. -/
  aliases : List String
  /-- Code that the rule accepts. -/
  accepted : List Example
  /-- Code that the rule reports. -/
  rejected : List Example
  /-- Code that the rule corrects, with the corrected code. -/
  corrections : List (Example × String)
  deriving DecidableEq, Inhabited

/-- Every name a rule is known under, the current one first. -/
def RuleDescription.identifiers (d : RuleDescription) : List String := d.identifier :: d.aliases

end SwiftTidy
