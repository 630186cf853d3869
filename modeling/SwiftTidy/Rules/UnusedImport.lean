import SwiftTidy.Lint.Rule
import SwiftTidy.Tree.Walk

/-!
# Unused imports

An import is unused when it is known that nothing in the file needs its module.  Imports that are
passed on to others are always used.
-/

namespace SwiftTidy

namespace UnusedImport

/-! ### Examples -/

/-- Code that the rule accepts. -/
def accepted : List Example :=
  [⟨"import Dispatch\ndispatchMain()\n", none⟩,
   ⟨"@testable import Dispatch\ndispatchMain()\n", none⟩,
   ⟨"import Foundation\nlet date = Date()\n", none⟩,
   ⟨"@_exported import Foundation\nstruct A \x7b\x7d\n", none⟩]

/-- Code that the rule reports; an arrow stands in front of every violation. -/
def rejected : List Example :=
  [⟨"↓import Foundation\nstruct A \x7b\x7d\n", none⟩,
   ⟨"import Foundation\n↓import Dispatch\nlet date = Date()\n", none⟩,
   ⟨"↓import struct Foundation.Date\nstruct A \x7b\x7d\n", none⟩,
   ⟨"↓import Foundation\n↓import Dispatch\nstruct A \x7b\x7d\n", none⟩]

/-- Code that the rule corrects, with the corrected code. -/
def corrections : List (Example × String) :=
  [(⟨"↓import Foundation\nstruct A \x7b\x7d\n", none⟩, "struct A \x7b\x7d\n"),
   (⟨"import Foundation\n↓import Dispatch\nlet date = Date()\n", none⟩,
    "import Foundation\nlet date = Date()\n"),
   (⟨"↓import Foundation\n// swiftlint:disable:next unused_import\nimport Dispatch\nstruct A " ++
      "\x7b\x7d\n", none⟩,
    "// swiftlint:disable:next unused_import\nimport Dispatch\nstruct A \x7b\x7d\n"),
   (⟨"↓import Foundation\n↓import Dispatch\nstruct A \x7b\x7d\n", none⟩, "struct A \x7b\x7d\n")]

/-! ### The rule -/

/-- What the rule is. -/
def description : RuleDescription where
  identifier := "unused_import"
  name := "Unused Import"
  summary := "All imported modules should be required to make the file compile"
  kind := .lint
  optIn := true
  correctable := true
  aliases := []
  accepted := accepted
  rejected := rejected
  corrections := corrections

/-- The module that an import names: the first name behind the keyword. -/
def module? (decl : Cursor) : Option String :=
  ((decl.children.dropWhile (·.kind != .importKw)).find? (·.kind == .identifier)).map (·.text)

/-- Whether an import is passed on to those who import this module. -/
def isReexport (decl : Cursor) : Bool :=
  (decl.childrenOfKind .attributeUse).any (·.text == "@_exported")

/-- Whether an import is known to be unused. -/
def isUnused (ctx : Context) (decl : Cursor) : Bool :=
  !isReexport decl && ((module? decl).bind ctx.isModuleUsed) == some false

/-- Collects the unused imports among the statements of a file. -/
def visitor (ctx : Context) : Visitor (List Violation) where
  enter c found :=
    match c.kind with
    | .sourceFile | .codeBlockItem => (true, found)
    | .importDecl =>
      (false, if isUnused ctx c then found ++ [.plain c.position] else found)
    | _ => (false, found)
  leave _ found := found
  token _ found := found

/-- Trivia without its first line break. -/
def dropFirstNewline (t : Trivia) : Trivia := t.eraseP (·.isNewline)

/-- The first import of a file that is unused where the rule is not disabled, with the index of
its statement. -/
def removable? (ctx : Context) (disabled : DisabledRegions) (root : Cursor) :
    Option (Nat × Cursor) :=
  root.children.findSome? fun item => do
    let decl ← (item.child? 0).filter (·.kind == .importDecl)
    if isUnused ctx decl && !disabled.isSuppressed decl.position then some (item.index, decl)
    else none

/-- The elements without the one at an index.  The next one takes over what stood in front of it,
and the line break between the two goes. -/
def removeAt? (es : List Element) (index : Nat) : Option (List Element) := do
  let removed ← es[index]?
  let next ← es[index + 1]?
  let trivia := removed.leadingTrivia ++ dropFirstNewline next.leadingTrivia
  return (es.set (index + 1) (next.withLeading trivia)).eraseIdx index

/-- Removes the first unused import. -/
def fixer (ctx : Context) : Fixer Unit :=
  let disabled := ctx.unit.disabledRegions description
  { visit := fun _ s => .ok (false, s)
    node := fun c current _ =>
      .ok (if c.kind != .sourceFile then none
        else do
          let (index, decl) ← removable? ctx disabled c
          let es ← removeAt? current.children index
          return ⟨.node current.kind es, decl.position, [], none⟩, ()) }

/-- The rule with a severity. -/
def rule (severity : Severity) : Rule where
  description := description
  severity := severity
  find ctx := .ok ((visitor ctx).walk ctx.root [])
  fixer? := some fixer

/-- The rule before it is configured. -/
def entry : RuleEntry := .ofSeverity description rule

end UnusedImport

end SwiftTidy
