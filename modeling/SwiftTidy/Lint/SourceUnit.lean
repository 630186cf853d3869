import SwiftTidy.Directive.Regions
import SwiftTidy.Lint.Description
import SwiftTidy.Parse.SourceFile

/-!
# Parsed sources

A source with all that the rules need to know about it: the tree, the lines, and the directives
with the regions in which they disable rules.
-/

namespace SwiftTidy

/-- A parsed source. -/
structure SourceUnit where
  source : String
  tree : Element
  lineIndex : LineIndex
  commands : List Command
  regions : Regions
  deriving Inhabited

namespace SourceUnit

/-- The source of a tree. -/
def ofTree (tree : Element) : SourceUnit :=
  let source := tree.fullText
  let lineIndex := LineIndex.ofText source
  let commands := Command.collect (.root tree) lineIndex
  ⟨source, tree, lineIndex, commands, Regions.ofCommands (Command.expandAll commands lineIndex)⟩

/-- Parses a source. -/
def ofText (source : String) : Except ParseError SourceUnit := (parse source).map ofTree

/-- The root of the tree. -/
def root (u : SourceUnit) : Cursor := .root u.tree

/-- The regions in which a rule is disabled under any of its names. -/
def disabledRegions (u : SourceUnit) (d : RuleDescription) : DisabledRegions :=
  u.regions.disabledRegions d.identifiers

/-- The line and column of an offset. -/
def location (u : SourceUnit) (offset : Nat) : SourceLocation := u.lineIndex.location offset

end SourceUnit

end SwiftTidy
