import SwiftTidy.Lint.Rule
import SwiftTidy.Tree.Walk

/-!
# Force unwrapping
-/

namespace SwiftTidy

namespace ForceUnwrapping

/-! ### Examples -/

/-- Code that the rule accepts. -/
def accepted : List Example :=
  [⟨"if let url = NSURL(string: query) \x7b\x7d\n", none⟩,
   ⟨"navigationController?.pushViewController(viewController, animated: true)\n", none⟩,
   ⟨"let s = x as! Test\n", none⟩,
   ⟨"try! canThrowErrors()\n", none⟩,
   ⟨"let object: Any!\n", none⟩,
   ⟨"@IBOutlet var constraints: [NSLayoutConstraint]!\n", none⟩,
   ⟨"setEditing(!editing, animated: true)\n", none⟩,
   ⟨"if a != b \x7b\x7d\n", none⟩,
   ⟨"let x = !isEnabled\n", none⟩]

/-- Code that the rule reports; an arrow stands in front of every violation. -/
def rejected : List Example :=
  [⟨"let url = NSURL(string: query)↓!\n", none⟩,
   ⟨"navigationController↓!.pushViewController(viewController, animated: true)\n", none⟩,
   ⟨"let unwrapped = optional↓!\n", none⟩,
   ⟨"return cell↓!\n", none⟩,
   ⟨"let url = NSURL(string: \"http://www.google.com\")↓!\n", none⟩,
   ⟨"let dict = [\"Boooo\": \"👻\"]\nfunc bla() -> String \x7b\n    return dict[\"Boooo\"]↓!\n" ++
     "\x7d\n", none⟩,
   ⟨"let value = object↓!↓!\n", none⟩,
   ⟨"open var computed: String \x7b return foo.bar↓! \x7d\n", none⟩,
   ⟨"print(direction↓!)\n", none⟩]

/-- Code that the rule corrects, with the corrected code. -/
def corrections : List (Example × String) := []

/-! ### The rule -/

/-- What the rule is. -/
def description : RuleDescription where
  identifier := "force_unwrapping"
  name := "Force Unwrapping"
  summary := "Force unwrapping should be avoided"
  kind := .idiomatic
  optIn := true
  correctable := false
  aliases := []
  accepted := accepted
  rejected := rejected
  corrections := corrections

/-- The violation at a node: the exclamation mark at the end of a forced expression. -/
def check (c : Cursor) : Option Violation :=
  if c.kind == .forceUnwrapExpr then
    (c.children.getLast?.filter (·.kind == .exclamationMark)).map fun mark => .plain mark.position
  else none

/-- The rule with a severity. -/
def rule (severity : Severity) : Rule where
  description := description
  severity := severity
  find ctx := .ok (ctx.root.postorder.filterMap check)

/-- The rule before it is configured. -/
def entry : RuleEntry := .ofSeverity description rule

end ForceUnwrapping

end SwiftTidy
