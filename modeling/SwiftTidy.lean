import SwiftTidy.Cli.Dump
import SwiftTidy.Cli.Invocation
import SwiftTidy.Cli.Session
import SwiftTidy.Config.Error
import SwiftTidy.Config.Levels
import SwiftTidy.Config.Options
import SwiftTidy.Config.Settings
import SwiftTidy.Data.Codec
import SwiftTidy.Data.KeyTable
import SwiftTidy.Directive.Command
import SwiftTidy.Directive.Regions
import SwiftTidy.Directive.RuleSet
import SwiftTidy.Files.Path
import SwiftTidy.Files.Tree
import SwiftTidy.Lint.Baseline
import SwiftTidy.Lint.Description
import SwiftTidy.Lint.Diagnostic
import SwiftTidy.Lint.Fixer
import SwiftTidy.Lint.Linter
import SwiftTidy.Lint.Registry
import SwiftTidy.Lint.Rule
import SwiftTidy.Lint.SourceUnit
import SwiftTidy.Lint.TokenPair
import SwiftTidy.Main
import SwiftTidy.Number.Shortest
import SwiftTidy.Parse.Block
import SwiftTidy.Parse.Declaration
import SwiftTidy.Parse.Error
import SwiftTidy.Parse.Expression
import SwiftTidy.Parse.Grammar
import SwiftTidy.Parse.Lexer
import SwiftTidy.Parse.SourceFile
import SwiftTidy.Parse.Statement
import SwiftTidy.Parse.Type
import SwiftTidy.Proofs.Config.Tables
import SwiftTidy.Proofs.Data.Except
import SwiftTidy.Proofs.Data.StableSort
import SwiftTidy.Proofs.Directive.Alike
import SwiftTidy.Proofs.Directive.Collect
import SwiftTidy.Proofs.Directive.Comments
import SwiftTidy.Proofs.Directive.LineScope
import SwiftTidy.Proofs.Directive.Lookup
import SwiftTidy.Proofs.Directive.Moved
import SwiftTidy.Proofs.Directive.Overlap
import SwiftTidy.Proofs.Directive.Regions
import SwiftTidy.Proofs.Directive.Removal
import SwiftTidy.Proofs.Directive.Retouched
import SwiftTidy.Proofs.Directive.Sweep
import SwiftTidy.Proofs.Directive.Writing
import SwiftTidy.Proofs.Lint.Accepted
import SwiftTidy.Proofs.Lint.BaselineMatching
import SwiftTidy.Proofs.Lint.Building
import SwiftTidy.Proofs.Lint.Fixes
import SwiftTidy.Proofs.Lint.Independence
import SwiftTidy.Proofs.Lint.KeptTokens
import SwiftTidy.Proofs.Lint.PairEdits
import SwiftTidy.Proofs.Lint.Registrations
import SwiftTidy.Proofs.Lint.Reports
import SwiftTidy.Proofs.Lint.Respacing
import SwiftTidy.Proofs.Lint.Selection
import SwiftTidy.Proofs.Lint.Spacing
import SwiftTidy.Proofs.Lint.TokenFixes
import SwiftTidy.Proofs.Lint.Untouched
import SwiftTidy.Proofs.Parse.AroundColons
import SwiftTidy.Proofs.Parse.Assembled
import SwiftTidy.Proofs.Parse.Blanks
import SwiftTidy.Proofs.Parse.Boundaries
import SwiftTidy.Proofs.Parse.ByteScan
import SwiftTidy.Proofs.Parse.Carried.Statement
import SwiftTidy.Proofs.Parse.Carried.Switch
import SwiftTidy.Proofs.Parse.Carried.Type
import SwiftTidy.Proofs.Parse.Carrying
import SwiftTidy.Proofs.Parse.CheckedLexer
import SwiftTidy.Proofs.Parse.CheckedLiteral
import SwiftTidy.Proofs.Parse.Cutting
import SwiftTidy.Proofs.Parse.Depth
import SwiftTidy.Proofs.Parse.ErrorOffsets
import SwiftTidy.Proofs.Parse.Filled
import SwiftTidy.Proofs.Parse.Following
import SwiftTidy.Proofs.Parse.Lexemes
import SwiftTidy.Proofs.Parse.Lexer
import SwiftTidy.Proofs.Parse.LineEnds
import SwiftTidy.Proofs.Parse.Literals
import SwiftTidy.Proofs.Parse.LookAhead
import SwiftTidy.Proofs.Parse.Loosening
import SwiftTidy.Proofs.Parse.Moving
import SwiftTidy.Proofs.Parse.Omission
import SwiftTidy.Proofs.Parse.Phrases
import SwiftTidy.Proofs.Parse.Pieces
import SwiftTidy.Proofs.Parse.Productions
import SwiftTidy.Proofs.Parse.Progress
import SwiftTidy.Proofs.Parse.Reading
import SwiftTidy.Proofs.Parse.Refining
import SwiftTidy.Proofs.Parse.Releading
import SwiftTidy.Proofs.Parse.Relexing
import SwiftTidy.Proofs.Parse.Retained.Expression
import SwiftTidy.Proofs.Parse.Retained.Statement
import SwiftTidy.Proofs.Parse.Retaining
import SwiftTidy.Proofs.Parse.Shape
import SwiftTidy.Proofs.Parse.Shedding
import SwiftTidy.Proofs.Parse.Sparing
import SwiftTidy.Proofs.Parse.TokenVector
import SwiftTidy.Proofs.Parse.Total
import SwiftTidy.Proofs.Parse.TriviaRuns
import SwiftTidy.Proofs.Parse.WellKinded
import SwiftTidy.Proofs.Parse.Without.Declaration
import SwiftTidy.Proofs.Parse.Without.Expression
import SwiftTidy.Proofs.Parse.Without.Statement
import SwiftTidy.Proofs.Parse.Without.Type
import SwiftTidy.Proofs.Report.Alignment
import SwiftTidy.Proofs.Report.Patch
import SwiftTidy.Proofs.Rules.ArrowPasses
import SwiftTidy.Proofs.Rules.CheckedEdits
import SwiftTidy.Proofs.Rules.CheckedLines
import SwiftTidy.Proofs.Rules.CheckedRules
import SwiftTidy.Proofs.Rules.CheckedSwitchCases
import SwiftTidy.Proofs.Rules.Corrections
import SwiftTidy.Proofs.Rules.DroppedLines
import SwiftTidy.Proofs.Rules.DroppedSemicolons
import SwiftTidy.Proofs.Rules.EmptyLines
import SwiftTidy.Proofs.Rules.KeptColons
import SwiftTidy.Proofs.Rules.KeptLexemes
import SwiftTidy.Proofs.Rules.KeptLines
import SwiftTidy.Proofs.Rules.LineRuns
import SwiftTidy.Proofs.Rules.LongLines
import SwiftTidy.Proofs.Rules.NestedDeclarations
import SwiftTidy.Proofs.Rules.Positions
import SwiftTidy.Proofs.Rules.RemovedImports
import SwiftTidy.Proofs.Rules.ReorderedSwitches
import SwiftTidy.Proofs.Rules.SortedCases
import SwiftTidy.Proofs.Rules.SortedLabels
import SwiftTidy.Proofs.Rules.SortedSwitches
import SwiftTidy.Proofs.Rules.SortedTrees
import SwiftTidy.Proofs.Rules.Statements
import SwiftTidy.Proofs.Rules.SuperfluousDirectives
import SwiftTidy.Proofs.Rules.SuppressedLabels
import SwiftTidy.Proofs.Rules.SwitchBlocks
import SwiftTidy.Proofs.Rules.SwitchCases
import SwiftTidy.Proofs.Rules.SwitchNames
import SwiftTidy.Proofs.Rules.TokenSpacing
import SwiftTidy.Proofs.Rules.TwoPasses
import SwiftTidy.Proofs.Text.Columns
import SwiftTidy.Proofs.Text.Lines
import SwiftTidy.Proofs.Text.Location
import SwiftTidy.Proofs.Text.Offset
import SwiftTidy.Proofs.Text.Replacing
import SwiftTidy.Proofs.Text.Words
import SwiftTidy.Proofs.Tree.Building
import SwiftTidy.Proofs.Tree.CommonAncestor
import SwiftTidy.Proofs.Tree.Descent
import SwiftTidy.Proofs.Tree.EdgeEdits
import SwiftTidy.Proofs.Tree.Layout
import SwiftTidy.Proofs.Tree.Measured
import SwiftTidy.Proofs.Tree.Meeting
import SwiftTidy.Proofs.Tree.Neighbours
import SwiftTidy.Proofs.Tree.Omission
import SwiftTidy.Proofs.Tree.Places
import SwiftTidy.Proofs.Tree.Ranges
import SwiftTidy.Proofs.Tree.Rearranging
import SwiftTidy.Proofs.Tree.Traversal
import SwiftTidy.Proofs.Tree.Unspaced
import SwiftTidy.Report.FileReport
import SwiftTidy.Report.Form
import SwiftTidy.Report.UnifiedDiff
import SwiftTidy.Rules.Builtin
import SwiftTidy.Rules.Colon
import SwiftTidy.Rules.ForceUnwrapping
import SwiftTidy.Rules.IdentifierName
import SwiftTidy.Rules.LineLength
import SwiftTidy.Rules.Nesting
import SwiftTidy.Rules.ReturnArrowWhitespace
import SwiftTidy.Rules.SortedSwitchCases
import SwiftTidy.Rules.SuperfluousDisableCommand
import SwiftTidy.Rules.TrailingSemicolon
import SwiftTidy.Rules.UnusedImport
import SwiftTidy.Rules.VerticalWhitespace
import SwiftTidy.Text.CharClass.Alphabetic
import SwiftTidy.Text.CharClass.Basic
import SwiftTidy.Text.CharClass.LetterCase
import SwiftTidy.Text.CharClass.Numeric
import SwiftTidy.Text.CharClass.Visible
import SwiftTidy.Text.CharClass.Word
import SwiftTidy.Text.LineIndex
import SwiftTidy.Text.Offset
import SwiftTidy.Text.Quoted
import SwiftTidy.Text.Url
import SwiftTidy.Text.Words
import SwiftTidy.Toml.Document
import SwiftTidy.Toml.FloatText
import SwiftTidy.Toml.Plain
import SwiftTidy.Toml.Scalar
import SwiftTidy.Toml.StringForm
import SwiftTidy.Toml.Value
import SwiftTidy.Tree.Cursor
import SwiftTidy.Tree.Element
import SwiftTidy.Tree.Kind
import SwiftTidy.Tree.Layout
import SwiftTidy.Tree.Trivia
import SwiftTidy.Tree.Walk
