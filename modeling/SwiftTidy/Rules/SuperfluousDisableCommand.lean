import SwiftTidy.Lint.Rule

/-!
# Directives without effect

A directive that disables a rule is superfluous when the rule has nothing to report where it is
disabled.  This cannot be seen from the source alone, so the rule itself reports nothing, and its
violations are found from those of the other rules.
-/

namespace SwiftTidy

namespace SuperfluousDisableCommand

/-! ### Examples -/

/-- Code that the rule accepts. -/
def accepted : List Example :=
  [⟨"let abc:Void // swiftlint:disable:this colon\n", none⟩,
   ⟨"// swiftlint:disable colon\nlet abc:Void\n// swiftlint:enable colon\n", none⟩,
   ⟨"// swiftlint:disable superfluous_disable_command colon\nlet abc: Void\n", none⟩]

/-- Code that the rule reports; an arrow stands in front of every violation. -/
def rejected : List Example :=
  [⟨"let abc: Void // ↓swiftlint:disable:this colon\n", none⟩,
   ⟨"// ↓swiftlint:disable colon\nlet abc: Void\n// swiftlint:enable colon\n", none⟩,
   ⟨"// ↓swiftlint:disable not_a_rule\nlet abc: Void\n", none⟩]

/-- Code that the rule corrects, with the corrected code. -/
def corrections : List (Example × String) := []

/-! ### The rule -/

/-- What the rule is. -/
def description : RuleDescription where
  identifier := "superfluous_disable_command"
  name := "Superfluous Disable Command"
  summary :=
    "Disable commands are superfluous when the disabled rule would not have triggered a " ++
    "violation in the disabled region"
  kind := .lint
  optIn := false
  correctable := false
  aliases := []
  accepted := accepted
  rejected := rejected
  corrections := corrections

/-- What is said about a name that no rule has. -/
def unknownMessage (name : String) : String :=
  s!"'{name}' is not a valid rule; remove it from the disable command"

/-- What is said about a directive without effect. -/
def idleMessage (name : String) : String :=
  s!"Rule '{name}' did not trigger a violation in the disabled region; remove the disable command"

/-- The violation of a directive that disables one rule.  A rule that did not run may or may not
have something to report. -/
def check (results : List (Rule × List Violation)) (known : List String) (span : DisableSpan) :
    Option Violation :=
  if !known.contains span.rule then some ⟨span.origin, some (unknownMessage span.rule), none⟩
  else
    match results.find? fun r => r.1.description.identifiers.contains span.rule with
    | none => none
    | some (_, violations) =>
      if violations.any fun v => span.contains v.position then none
      else some ⟨span.origin, some (idleMessage span.rule), none⟩

/-- The directives of a source that are superfluous, given the violations of the other rules. -/
def find (u : SourceUnit) (results : List (Rule × List Violation)) (known : List String) :
    List Violation :=
  Violation.sort (u.regions.spans.filterMap (check results known))

/-- The rule with a severity. -/
def rule (severity : Severity) : Rule where
  description := description
  severity := severity
  find _ := .ok []

/-- The rule before it is configured. -/
def entry : RuleEntry := .ofSeverity description rule

end SuperfluousDisableCommand

end SwiftTidy
