import SwiftTidy.Config.Options
import SwiftTidy.Lint.Diagnostic
import SwiftTidy.Lint.Fixer
import SwiftTidy.Lint.SourceUnit

/-!
# Rules

A rule looks at a parsed source and reports violations; some rules can also correct them.  Before it is
configured it is an entry, from which its options make a rule.
-/

namespace SwiftTidy

/-- What a rule sees: the source, and what is known from elsewhere about the modules it imports. -/
structure Context where
  unit : SourceUnit
  /-- Whether a module is needed; `none` when that is not known. -/
  isModuleUsed : String → Option Bool := fun _ => none

/-- The root of the tree. -/
def Context.root (ctx : Context) : Cursor := ctx.unit.root

/-- A configured rule. -/
structure Rule where
  description : RuleDescription
  /-- The severity of violations that do not have their own. -/
  severity : Severity
  /-- The violations in a source, in no particular order. -/
  find : Context → Except Fault (List Violation)
  /-- What corrects the violations of a rule that can do so. -/
  fixer? : Option (Context → Fixer Unit) := none

namespace Rule

/-- The current name of the rule. -/
def identifier (r : Rule) : String := r.description.identifier

/-- The violations in a source by position. -/
def validate (r : Rule) (ctx : Context) : Except Fault (List Violation) :=
  (r.find ctx).map Violation.sort

/-- Corrects the source once; `none` for a rule that does not correct. -/
def fix? (r : Rule) (ctx : Context) : Option (Except Fault FixOutcome) :=
  r.fixer?.map fun fixer =>
    (fixer ctx).run () (ctx.unit.disabledRegions r.description) ctx.unit.tree

end Rule

/-- A rule that can be configured: its description, and how its options make a rule. -/
structure RuleEntry where
  description : RuleDescription
  create : Option Toml → Except ConfigError Rule

/-- The current name of the rule. -/
def RuleEntry.identifier (e : RuleEntry) : String := e.description.identifier

/-- A rule with a severity as its only option. -/
def RuleEntry.ofSeverity (d : RuleDescription) (make : Severity → Rule) : RuleEntry :=
  ⟨d, fun options => (configureSeverity d.identifier options).map make⟩

end SwiftTidy
