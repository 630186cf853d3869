import SwiftTidy.Lint.Rule
import SwiftTidy.Tree.Walk

/-!
# Semicolons at the end of a line
-/

namespace SwiftTidy

namespace TrailingSemicolon

/-! ### Examples -/

/-- Code that the rule accepts. -/
def accepted : List Example :=
  [⟨"let a = 0\n", none⟩,
   ⟨"let a = 0; let b = 0\n", none⟩,
   ⟨"func f() \x7b let a = 0; \x7d\n", none⟩,
   ⟨"let a = \"x;\"\n", none⟩]

/-- Code that the rule reports; an arrow stands in front of every violation. -/
def rejected : List Example :=
  [⟨"let a = 0↓;\n", none⟩,
   ⟨"let a = 0↓;\nlet b = 1\n", none⟩,
   ⟨"let a = 0↓; // comment\n", none⟩,
   ⟨"let a = 0↓;   \n", none⟩,
   ⟨"func f() \x7b\n    g()↓;\n\x7d\n", none⟩,
   ⟨"let a = 0↓;", none⟩]

/-- Code that the rule corrects, with the corrected code. -/
def corrections : List (Example × String) :=
  [(⟨"let a = 0↓;\n", none⟩, "let a = 0\n"),
   (⟨"let a = 0↓;\nlet b = 1↓;\n", none⟩, "let a = 0\nlet b = 1\n"),
   (⟨"let a = 0↓; // comment\n", none⟩, "let a = 0 // comment\n"),
   (⟨"let a = 0↓;   \n", none⟩, "let a = 0\n"),
   (⟨"let a = 0 ↓;\n", none⟩, "let a = 0\n"),
   (⟨"func f() \x7b\n    g()↓;\n\x7d\n", none⟩, "func f() \x7b\n    g()\n\x7d\n")]

/-! ### The rule -/

/-- What the rule is. -/
def description : RuleDescription where
  identifier := "trailing_semicolon"
  name := "Trailing Semicolon"
  summary := "Lines should not have trailing semicolons"
  kind := .idiomatic
  optIn := false
  correctable := true
  aliases := []
  accepted := accepted
  rejected := rejected
  corrections := corrections

/-- The semicolon at the end of a statement behind which the line ends. -/
def semicolon? (item : Cursor) : Option Cursor :=
  if item.kind == .codeBlockItem then
    (item.children.getLast?.filter (·.kind == .semicolon)).filter fun semicolon =>
      semicolon.nextToken?.all fun next =>
        next.kind == .endOfFile || next.leadingTrivia.containsNewline
  else none

/-- A statement without its semicolon, whose trivia goes to the statement in front of it unless
all of it is whitespace. -/
def dropSemicolon (semicolon : Token) (current : Element) : Option Element :=
  let statement := current.children.dropLast
  statement.getLast?.map fun last =>
    let trivia := last.trailingTrivia ++ semicolon.leading ++ semicolon.trailing
    let trivia := if trivia.isWhitespaceOnly then [] else trivia
    .node current.kind (statement.dropLast ++ [last.withTrailing trivia])

/-- Drops the semicolons at the end of lines. -/
def fixer : Fixer Unit where
  node c current _ :=
    .ok (do
      let semicolon ← semicolon? c
      let replacement ← dropSemicolon (← semicolon.token?) current
      return ⟨replacement, semicolon.position, [], none⟩, ())

/-- The rule with a severity. -/
def rule (severity : Severity) : Rule where
  description := description
  severity := severity
  find ctx := .ok ((ctx.root.postorder.filterMap semicolon?).map fun c => .plain c.position)
  fixer? := some fun _ => fixer

/-- The rule before it is configured. -/
def entry : RuleEntry := .ofSeverity description rule

end TrailingSemicolon

end SwiftTidy
