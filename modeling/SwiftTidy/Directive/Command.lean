import SwiftTidy.Directive.RuleSet
import SwiftTidy.Text.LineIndex
import SwiftTidy.Text.Words
import SwiftTidy.Tree.Cursor

/-!
# Directives in comments

A comment can switch rules off and on again:

```text
// swiftlint:disable colon
let a :Int = 1 // swiftlint:disable:this force_unwrapping - known safe
// swiftlint:enable colon
```

A plain directive is in effect until another one changes it.  With a modifier it is in effect on
one line, given relative to its own.  Only comments are looked at, so that text in string literals
never changes which rules run.
-/

namespace SwiftTidy

/-- What a directive does to the rules it names. -/
inductive Action where
  | enable
  | disable
  deriving DecidableEq, Inhabited

namespace Action

/-- The action that undoes this one. -/
def inverse : Action → Action
  | enable => disable
  | disable => enable

/-- The word for an action. -/
def word : Action → String
  | enable => "enable"
  | disable => "disable"

/-- Reads the word for an action. -/
def ofWord? (s : String) : Option Action := [enable, disable].find? (·.word == s)

end Action

/-- The line a directive is narrowed to, relative to its own. -/
inductive Modifier where
  | previous
  | this
  | next
  deriving DecidableEq, Inhabited

namespace Modifier

/-- The word for a modifier. -/
def word : Modifier → String
  | previous => "previous"
  | this => "this"
  | next => "next"

/-- Reads the word for a modifier. -/
def ofWord? (s : String) : Option Modifier := [previous, this, next].find? (·.word == s)

end Modifier

/-- Where a command takes effect, relative to the line a modifier targets. -/
inductive Scope where
  /-- A plain directive. -/
  | file
  /-- The start of the line. -/
  | lineStart
  /-- The end of the line, where only what its start changed is undone. -/
  | lineEnd
  deriving DecidableEq, Inhabited

/-- A command at the offset at which it takes effect. -/
structure AnchoredCommand where
  action : Action
  rules : RuleSet
  offset : Nat
  /-- The offset of the directive it comes from. -/
  origin : Nat
  scope : Scope
  deriving DecidableEq, Inhabited

/-- A directive as it was read. -/
structure Command where
  action : Action
  modifier : Option Modifier
  rules : RuleSet
  /-- The line the directive is on. -/
  line : OneIndexed
  /-- The offset at which the directive starts. -/
  offset : Nat
  /-- The free text behind ` - `. -/
  comment : Option String
  deriving DecidableEq, Inhabited

namespace Command

/-- What every directive starts with. -/
def marker : String := "swiftlint:"

/-- Reads the word in front of the rules: an action and an optional modifier. -/
def parseHead? (head : List Char) : Option (Action × Option Modifier) :=
  match (Words.splitOnChar ':' head).map String.ofList with
  | [a] => (Action.ofWord? a).map fun action => (action, none)
  | [a, m] => do
    let action ← Action.ofWord? a
    let modifier ← Modifier.ofWord? m
    return (action, some modifier)
  | _ => none

/-- Reads the names of rules; a comment may end right behind the last one. -/
def parseRules (cs : List Char) : RuleSet :=
  RuleSet.ofList <|
    (((Words.splitBlanks cs).map Words.trimCommentEnd).filter (!·.isEmpty)).map fun w =>
      RuleName.ofString (String.ofList w)

/-- Reads a directive.  There is none when the action or the modifier is unknown, or when no rule
is named. -/
def parse? (text : String) (offset : Nat) (line : OneIndexed) : Option Command := do
  let cs := text.toList
  let cs := if marker.toList.isPrefixOf cs then cs.drop marker.length else cs
  let (head, rest) := (Words.splitAtFirst CharClass.isBlank cs).getD (cs, [])
  let (action, modifier) ← parseHead? head
  let (names, comment) :=
    match Words.splitAtText [' ', '-', ' '] rest with
    | some (names, comment) => (names, some (String.ofList (Words.trim comment)))
    | none => (rest, none)
  let rules := parseRules names
  if rules.isEmpty then none
  else some ⟨action, modifier, rules, line, offset, comment⟩

/-- The line a directive is narrowed to, if it exists in the text. -/
def target? (c : Command) (m : Modifier) (ix : LineIndex) : Option OneIndexed :=
  let line :=
    match m with
    | .this => some c.line
    | .previous => OneIndexed.ofNat? (c.line.val - 1)
    | .next => some (c.line.saturatingAdd 1)
  line.filter fun l => l.toZeroBased < ix.lineCount

/-- The commands of a directive at the offsets at which they take effect.  A modifier makes two:
one at the start of its line and the inverse at the end, behind the terminator. -/
def expand (c : Command) (ix : LineIndex) : List AnchoredCommand :=
  match c.modifier with
  | none => [⟨c.action, c.rules, c.offset, c.offset, .file⟩]
  | some m =>
    match c.target? m ix with
    | none => []
    | some line =>
      [⟨c.action, c.rules, ix.lineStart line, c.offset, .lineStart⟩,
       ⟨c.action.inverse, c.rules, ix.lineEnd line, c.offset, .lineEnd⟩]

/-- The directives in a run of trivia that starts at an offset.  A comment holds at most one: the
first occurrence of the marker. -/
def inTrivia (ix : LineIndex) (base : Nat) (t : Trivia) : List Command :=
  t.comments.filterMap fun (relative, piece) => do
    let cs := piece.text.toList
    let (front, _) ← Words.splitAtText marker.toList cs
    let offset := base + relative + (String.ofList front).utf8ByteSize
    parse? (String.ofList (cs.drop front.length)) offset (ix.lineOf offset)

/-- The directives of a tree, in source order. -/
def collect (root : Cursor) (ix : LineIndex) : List Command :=
  root.tokens.flatMap fun c =>
    match c.token? with
    | none => []
    | some t => inTrivia ix c.offset t.leading ++ inTrivia ix c.endPosition t.trailing

/-- The commands of all directives, in the order in which they take effect.  Commands at the same
offset keep their order. -/
def expandAll (cs : List Command) (ix : LineIndex) : List AnchoredCommand :=
  (cs.flatMap (·.expand ix)).mergeSort fun a b => a.offset ≤ b.offset

end Command

end SwiftTidy
