import SwiftTidy.Lint.Rule
import SwiftTidy.Lint.TokenPair

/-!
# Spacing around colons

A colon follows what is in front of it directly and is followed by one space.  Next to a line
break, and where a comment is near, anything goes.
-/

namespace SwiftTidy

namespace Colon

/-! ### Examples -/

/-- Code that the rule accepts. -/
def accepted : List Example :=
  [⟨"let abc: Void\n", none⟩,
   ⟨"let abc: [Void: Void]\n", none⟩,
   ⟨"let abc: (Void, Void)\n", none⟩,
   ⟨"let abc: ([Void], String, Int)\n", none⟩,
   ⟨"let abc: String=\"def\"\n", none⟩,
   ⟨"let abc: Enum=Enum.Value\n", none⟩,
   ⟨"func abc(def: Void, ghi: Void) \x7b\x7d\n", none⟩,
   ⟨"let abc: String = \"abc:\"\n", none⟩,
   ⟨"let abc = [1: [3: 2], 3: 4]\n", none⟩,
   ⟨"func foo() -> [String: Int] \x7b return [:] \x7d\n", none⟩,
   ⟨"class Foo<T: Equatable>: Bar \x7b\x7d\n", none⟩,
   ⟨"object.method(x: /* comment */ 5)\n", none⟩,
   ⟨"object.method(5, y: \"string\")\n", none⟩,
   ⟨"range.flatMap(file.syntaxMap.kinds(inByteRange:)) ?? []\n", none⟩,
   ⟨"let x = flag ? a : b\n", none⟩,
   ⟨"let abc = [Void:Void]()\n", some "\x7b apply_to_dictionaries = false \x7d"⟩,
   ⟨"let abc:  Void\n", some "\x7b flexible_right_spacing = true \x7d"⟩,
   ⟨"switch x \x7b\ncase .a:\n    break\ndefault:\n    break\n\x7d\n", none⟩]

/-- Code that the rule reports; an arrow stands in front of every violation. -/
def rejected : List Example :=
  [⟨"let abc↓:Void\n", none⟩,
   ⟨"let abc↓:  Void\n", none⟩,
   ⟨"let abc↓ :Void\n", none⟩,
   ⟨"let abc↓ : [Void: Void]\n", none⟩,
   ⟨"let abc↓:Int = 0\n", none⟩,
   ⟨"func abc(def: Void, ghi↓ :Void) \x7b\x7d\n", none⟩,
   ⟨"let abc = [Void↓ :  Void]()\n", none⟩,
   ⟨"let abc = [1: [3↓ : 2], 3↓:  4]\n", none⟩,
   ⟨"let abc: [String↓:Int]\n", none⟩,
   ⟨"class Foo<T, U>↓:Bar \x7b\x7d\n", none⟩,
   ⟨"class Foo<T↓ : Equatable> \x7b\x7d\n", none⟩,
   ⟨"object.method(x↓:5, y: \"string\")\n", none⟩,
   ⟨"func abc() \x7b def(ghi↓:jkl) \x7d\n", none⟩,
   ⟨"private var action↓:(() -> Void)?\n", none⟩,
   ⟨"let abc↓ :  Void\n", some "\x7b flexible_right_spacing = true \x7d"⟩,
   ⟨"switch x \x7b\ncase .a↓ :\n    break\ndefault↓ :\n    break\n\x7d\n", none⟩]

/-- Code that the rule corrects, with the corrected code. -/
def corrections : List (Example × String) :=
  [(⟨"let abc↓:Void\n", none⟩, "let abc: Void\n"),
   (⟨"let abc↓ : Void\n", none⟩, "let abc: Void\n"),
   (⟨"let abc↓:  [([Void], String, Int)]\n", none⟩, "let abc: [([Void], String, Int)]\n"),
   (⟨"func abc(def↓ :Void, ghi↓:Void) \x7b\x7d\n", none⟩,
    "func abc(def: Void, ghi: Void) \x7b\x7d\n"),
   (⟨"let abc: ([Void↓ : Void], [Void↓ : [Void↓ : Void]])\n", none⟩,
    "let abc: ([Void: Void], [Void: [Void: Void]])\n"),
   (⟨"let abc: [String: String] = [\"key\"↓ :\"value\"]\n", none⟩,
    "let abc: [String: String] = [\"key\": \"value\"]\n"),
   (⟨"class Foo<T↓:Equatable>↓ :Bar \x7b\x7d\n", none⟩, "class Foo<T: Equatable>: Bar \x7b\x7d\n"),
   (⟨"switch x \x7b\ncase .a↓ :\n    break\n\x7d\n", none⟩,
    "switch x \x7b\ncase .a:\n    break\n\x7d\n")]

/-! ### The rule -/

/-- What the rule is. -/
def description : RuleDescription where
  identifier := "colon"
  name := "Colon Spacing"
  summary :=
    "Colons should be next to the identifier when specifying a type and next to the key in " ++
    "dictionary literals"
  kind := .style
  optIn := false
  correctable := true
  aliases := []
  accepted := accepted
  rejected := rejected
  corrections := corrections

/-- The options of the rule. -/
structure Options where
  severity : Severity := .warning
  /-- Any whitespace is allowed behind a colon, as long as there is some. -/
  flexibleRightSpacing : Bool := false
  /-- Colons in dictionaries and dictionary types are looked at too. -/
  applyToDictionaries : Bool := true
  deriving DecidableEq, Inhabited

/-- Reads the options. -/
def Options.reader : OptionReader Options := do
  let severity ← OptionReader.severity "severity" .warning
  let flexibleRightSpacing ← OptionReader.boolean "flexible_right_spacing" false
  let applyToDictionaries ← OptionReader.boolean "apply_to_dictionaries" true
  return ⟨severity, flexibleRightSpacing, applyToDictionaries⟩

/-- The sides of a colon on which spacing matters. -/
inductive Sides where
  | both
  | left
  deriving DecidableEq, Inhabited

/-- The sides that matter for a colon, by what it stands in. -/
def sides? (o : Options) (colon : Cursor) : Option Sides :=
  colon.parent?.bind fun parent =>
    match parent.kind with
    | .typeAscription | .parameter | .tupleTypeElement | .labeledExpr | .inheritanceClause
    | .genericParameter | .genericRequirement => some .both
    | .dictionaryType | .dictionaryElement => if o.applyToDictionaries then some .both else none
    | .switchCaseLabel | .switchDefaultLabel => some .left
    | _ => none

/-- Whether the left side of a colon is in order. -/
def leftIsFine (before leading : Trivia) : Bool := before.isEmpty || leading.containsNewline

/-- Whether the right side of a colon is in order. -/
def rightIsFine (o : Options) (sides : Sides) (after : Trivia) (next : Cursor) : Bool :=
  sides == .left || next.leadingTrivia.containsNewline ||
    [.rightParen, .rightBracket, .comma].contains next.kind || after.isSingleSpace ||
    (o.flexibleRightSpacing && !after.isEmpty && after.isWhitespaceOnly)

/-- The edit that a colon needs, if it needs one. -/
def edit? (o : Options) (colon : Cursor) : Option SpacingEdit := do
  let sides ← sides? o colon
  let prev ← colon.prevToken?
  let next ← colon.nextToken?
  let before := prev.trailingTrivia
  let leading := colon.leadingTrivia
  let after := colon.trailingTrivia
  if [before, leading, after, next.leadingTrivia].any Trivia.containsComment then none
  else
    let edit : SpacingEdit :=
      { position := prev.endPosition
        token := colon
        before := if leftIsFine before leading then none else some []
        after := if rightIsFine o sides after next then none else some (Trivia.spaces 1) }
    if edit.isEmpty then none else some edit

/-- The edits that a tree needs. -/
def edits (o : Options) (root : Cursor) : List SpacingEdit :=
  (root.tokens.filter (·.kind == .colon)).filterMap (edit? o)

/-- The rule with its options. -/
def rule (o : Options) : Rule where
  description := description
  severity := o.severity
  find ctx := .ok ((edits o ctx.root).map fun e => .plain e.position)
  fixer? := some fun ctx => SpacingEdit.fixer (edits o ctx.root)

/-- The rule before it is configured. -/
def entry : RuleEntry :=
  ⟨description, fun v => (Options.reader.configure description.identifier {} v).map rule⟩

end Colon

end SwiftTidy
