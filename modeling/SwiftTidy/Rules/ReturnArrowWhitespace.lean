import SwiftTidy.Lint.Rule
import SwiftTidy.Lint.TokenPair

/-!
# Spacing around return arrows

One space stands on each side of a return arrow, unless there is a line break on that side.  Where
a comment is near, anything goes.
-/

namespace SwiftTidy

namespace ReturnArrowWhitespace

/-! ### Examples -/

/-- Code that the rule accepts. -/
def accepted : List Example :=
  [⟨"func abc() -> Int \x7b\x7d\n", none⟩,
   ⟨"func abc() -> [Int] \x7b\x7d\n", none⟩,
   ⟨"func abc() -> (Int, Int) \x7b\x7d\n", none⟩,
   ⟨"var abc = \x7b(param: Int) -> Void in \x7d\n", none⟩,
   ⟨"func abc() ->\n    Int \x7b\x7d\n", none⟩,
   ⟨"func abc()\n    -> Int \x7b\x7d\n", none⟩,
   ⟨"typealias SuccessBlock = ((Data) -> Void)\n", none⟩,
   ⟨"func abc() /* result */ -> Int \x7b\x7d\n", none⟩]

/-- Code that the rule reports; an arrow stands in front of every violation. -/
def rejected : List Example :=
  [⟨"func abc()↓->Int \x7b\x7d\n", none⟩,
   ⟨"func abc()↓->[Int] \x7b\x7d\n", none⟩,
   ⟨"func abc()↓->(Int, Int) \x7b\x7d\n", none⟩,
   ⟨"func abc()↓-> Int \x7b\x7d\n", none⟩,
   ⟨"func abc()↓ ->Int \x7b\x7d\n", none⟩,
   ⟨"func abc()↓  ->  Int \x7b\x7d\n", none⟩,
   ⟨"var abc = \x7b(param: Int)↓ ->Bool in \x7d\n", none⟩,
   ⟨"typealias SuccessBlock = ((Data)↓->Void)\n", none⟩,
   ⟨"func abc()\n  ↓->  Int \x7b\x7d\n", none⟩,
   ⟨"func abc()↓  ->\nInt \x7b\x7d\n", none⟩]

/-- Code that the rule corrects, with the corrected code. -/
def corrections : List (Example × String) :=
  [(⟨"func abc()↓->Int \x7b\x7d\n", none⟩, "func abc() -> Int \x7b\x7d\n"),
   (⟨"func abc()↓-> Int \x7b\x7d\n", none⟩, "func abc() -> Int \x7b\x7d\n"),
   (⟨"func abc()↓ ->Int \x7b\x7d\n", none⟩, "func abc() -> Int \x7b\x7d\n"),
   (⟨"func abc()↓  ->  Int \x7b\x7d\n", none⟩, "func abc() -> Int \x7b\x7d\n"),
   (⟨"func abc()\n  ↓->  Int \x7b\x7d\n", none⟩, "func abc()\n  -> Int \x7b\x7d\n"),
   (⟨"func abc()↓  ->\n  Int \x7b\x7d\n", none⟩, "func abc() ->\n  Int \x7b\x7d\n"),
   (⟨"var abc = \x7b(param: Int)↓->Bool in \x7d\n", none⟩,
    "var abc = \x7b(param: Int) -> Bool in \x7d\n")]

/-! ### The rule -/

/-- What the rule is. -/
def description : RuleDescription where
  identifier := "return_arrow_whitespace"
  name := "Returning Whitespace"
  summary :=
    "Return arrow and return type should be separated by a single space or on a separate line"
  kind := .style
  optIn := false
  correctable := true
  aliases := []
  accepted := accepted
  rejected := rejected
  corrections := corrections

/-- The edit that an arrow needs, if it needs one. -/
def edit? (arrow : Cursor) : Option SpacingEdit := do
  let prev ← arrow.prevToken?
  let next ← arrow.nextToken?
  let before := prev.trailingTrivia
  let leading := arrow.leadingTrivia
  let after := arrow.trailingTrivia
  if [before, leading, after, next.leadingTrivia].any Trivia.containsComment then none
  else
    let onNewLine := leading.containsNewline
    let leftIsFine := onNewLine || before.isSingleSpace
    let rightIsFine := next.leadingTrivia.containsNewline || after.isSingleSpace
    let edit : SpacingEdit :=
      { position := if onNewLine then arrow.position else prev.endPosition
        token := arrow
        before := if leftIsFine then none else some (Trivia.spaces 1)
        after := if rightIsFine then none else some (Trivia.spaces 1) }
    if edit.isEmpty then none else some edit

/-- The edits that a tree needs. -/
def edits (root : Cursor) : List SpacingEdit :=
  (root.tokens.filter (·.kind == .arrow)).filterMap edit?

/-- The rule with a severity. -/
def rule (severity : Severity) : Rule where
  description := description
  severity := severity
  find ctx := .ok ((edits ctx.root).map fun e => .plain e.position)
  fixer? := some fun ctx => SpacingEdit.fixer (edits ctx.root)

/-- The rule before it is configured. -/
def entry : RuleEntry := .ofSeverity description rule

end ReturnArrowWhitespace

end SwiftTidy
