import SwiftTidy.Lint.Registry
import SwiftTidy.Rules.Colon
import SwiftTidy.Rules.ForceUnwrapping
import SwiftTidy.Rules.IdentifierName
import SwiftTidy.Rules.LineLength
import SwiftTidy.Rules.Nesting
import SwiftTidy.Rules.ReturnArrowWhitespace
import SwiftTidy.Rules.SortedSwitchCases
import SwiftTidy.Rules.SuperfluousDisableCommand
import SwiftTidy.Rules.TrailingSemicolon
import SwiftTidy.Rules.UnusedImport
import SwiftTidy.Rules.VerticalWhitespace

/-!
# The rules of this project
-/

namespace SwiftTidy

namespace Registry

/-- Every rule of this project. -/
def builtinEntries : List RuleEntry :=
  [Colon.entry, ForceUnwrapping.entry, IdentifierName.entry, LineLength.entry, Nesting.entry,
   ReturnArrowWhitespace.entry, SortedSwitchCases.entry, SuperfluousDisableCommand.entry,
   TrailingSemicolon.entry, UnusedImport.entry, VerticalWhitespace.entry]

/-- The registry of all of them. -/
def builtin : Registry := ofList builtinEntries

end Registry

end SwiftTidy
