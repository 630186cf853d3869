import SwiftTidy.Lint.Rule
import SwiftTidy.Text.Words
import SwiftTidy.Tree.Walk

/-!
# Order of switch cases

The cases of a switch are ordered by the least of their names, and the items of a case by their
names; the default comes last.  Cases are moved only where their order cannot matter and no
comment would lose its place.
-/

namespace SwiftTidy

namespace SortedSwitchCases

/-! ### Examples -/

/-- Code that the rule accepts. -/
def accepted : List Example :=
  [⟨"switch foo \x7b\ncase .a:\n    break\ncase .b:\n    break\ncase .c:\n    break\n\x7d\n", none⟩,
   ⟨"switch foo \x7b\ncase .a, .b, .c:\n    break\n\x7d\n", none⟩,
   ⟨"switch foo \x7b\ncase .a:\n    break\ncase .b, .c:\n    break\n\x7d\n", none⟩,
   ⟨"switch foo \x7b\ncase .a(let foo):\n    break\ncase .b(let bar), .c:\n    break\n\x7d\n", none⟩,
   ⟨"switch foo \x7b\ncase .a:\n    break\ncase .b:\n    break\ndefault:\n    break\n\x7d\n", none⟩,
   ⟨"switch foo \x7b\ncase \"a\":\n    break\ncase \"b\":\n    break\n\x7d\n", none⟩]

/-- Code that the rule reports; an arrow stands in front of every violation. -/
def rejected : List Example :=
  [⟨"↓switch foo \x7b\ncase .b:\n    break\ncase .a:\n    break\ncase .c:\n    break\n\x7d\n", none⟩,
   ⟨"switch foo \x7b\n↓case .b, .a, .c:\n    break\n\x7d\n", none⟩,
   ⟨"switch foo \x7b\ncase .a:\n    break\n↓case .c, .b:\n    break\n\x7d\n", none⟩,
   ⟨"↓switch foo \x7b\ncase .z:\n    break\n↓case .c, .b:\n    break\n\x7d\n", none⟩,
   ⟨"↓switch foo \x7b\ndefault:\n    break\ncase .a:\n    break\n\x7d\n", none⟩]

/-- Code that the rule corrects, with the corrected code. -/
def corrections : List (Example × String) :=
  [(⟨"↓switch foo \x7b\ncase .b:\n    b()\ncase .a:\n    a()\n\x7d\n", none⟩,
    "switch foo \x7b\ncase .a:\n    a()\ncase .b:\n    b()\n\x7d\n"),
   (⟨"switch foo \x7b\n↓case .c, .a, .b:\n    break\n\x7d\n", none⟩,
    "switch foo \x7b\ncase .a, .b, .c:\n    break\n\x7d\n"),
   (⟨"↓switch foo \x7b\ndefault:\n    d()\ncase .z:\n    z()\n↓case .c, .b:\n    b()\n\x7d\n", none⟩,
    "switch foo \x7b\ncase .b, .c:\n    b()\ncase .z:\n    z()\ndefault:\n    d()\n\x7d\n")]

/-! ### The rule -/

/-- What the rule is. -/
def description : RuleDescription where
  identifier := "sorted_switch_cases"
  name := "Sorted Switch Cases"
  summary := "Switch cases should be sorted"
  kind := .style
  optIn := true
  correctable := true
  aliases := []
  accepted := accepted
  rejected := rejected
  corrections := corrections

/-! ### Names -/

/-- The name of an expression; empty when it has none.  The expression is the element `e`. -/
def expressionName : (e : Element) → String
  | .node .memberAccessExpr es => (es.getLast?.map Element.text).getD ""
  | .node .functionCallExpr (f :: _) => expressionName f
  | .node .identifierExpr es => ((Element.firstTokenOf? es).map Token.text).getD ""
  | .node .literalExpr es =>
    match Element.firstTokenOf? es with
    | some t =>
      if t.kind == .stringLiteral then Words.trimMatching (fun c => c == '"' || c == '#') t.text
      else ""
    | none => ""
  | _ => ""

mutual
/-- The name of a pattern; empty when it has none. -/
def patternName : (e : Element) → String
  | .node .valueBindingPattern es => lastPatternName es
  | .node .expressionPattern es => (es.head?.map expressionName).getD ""
  | _ => ""
/-- The name of the last of some patterns. -/
def lastPatternName : (es : List Element) → String
  | [] => ""
  | [e] => patternName e
  | _ :: e :: es => lastPatternName (e :: es)
end

/-- The name of an item of a case. -/
def itemName (item : Element) : String := (item.children.head?.map patternName).getD ""

/-! ### Cases -/

/-- A case of a switch. -/
structure Case where
  node : Cursor
  /-- The label; the default has none. -/
  label : Option Cursor
  /-- The names of the items. -/
  names : List String

namespace Case

/-- What cases are ordered by: the least name, or nothing for the default. -/
def key (c : Case) : Option String :=
  c.label.map fun _ => least c.names
where
  /-- The least of some names. -/
  least : List String → String
    | [] => ""
    | n :: ns => ns.foldl (fun m x => if x < m then x else m) n

/-- Whether the items are in order. -/
def itemsSorted (c : Case) : Bool := isSorted c.names
where
  /-- Whether no name is followed by a lesser one. -/
  isSorted : List String → Bool
    | a :: b :: rest => a ≤ b && isSorted (b :: rest)
    | _ => true

end Case

/-- The order of the keys: names in front of the default. -/
def keyLe : Option String → Option String → Bool
  | some a, some b => a ≤ b
  | some _, none => true
  | none, some _ => false
  | none, none => true

/-- Whether no key is followed by a lesser one. -/
def keysSorted : List (Option String) → Bool
  | a :: b :: rest => keyLe a b && keysSorted (b :: rest)
  | _ => true

/-- The items of a label. -/
def items (label : Cursor) : List Cursor := label.childrenOfKind .switchCaseItem

/-- The cases of a switch. -/
def cases (switch : Cursor) : List Case :=
  (switch.childrenOfKind .switchCase).map fun node =>
    let label := node.childOfKind? .switchCaseLabel
    ⟨node, label, (label.toList.flatMap items).map fun item => itemName item.element⟩

/-- Whether the cases of a switch are in order. -/
def casesSorted (cs : List Case) : Bool := keysSorted (cs.map Case.key)

/-- The violations of a switch: the labels with items out of order, and the switch itself. -/
def check (c : Cursor) : List Violation :=
  if c.kind == .switchExpr then
    let cs := cases c
    ((cs.filter (!·.itemsSorted)).filterMap (·.label)).map (fun label => .plain label.position) ++
      if casesSorted cs then [] else [.plain c.position]
  else []

/-! ### Sorting -/

/-- Whether a case can be moved, apart from its names. -/
def isMovable (c : Case) : Bool :=
  (c.node.childOfKind? .attributeUse).isNone && !c.node.leadingTrivia.containsComment &&
    !c.node.trailingTrivia.containsComment &&
    (c.label.all fun label =>
      !label.containsComments && label.descendants.all (·.kind != .whereClause)) &&
    c.node.descendants.all (·.kind != .fallthroughStmt)

/-- Whether no name is empty and none comes twice. -/
def namesDistinct : List String → Bool
  | [] => true
  | n :: ns => n != "" && !ns.contains n && namesDistinct ns

/-- Whether the cases of a switch can be moved. -/
def canReorder (cs : List Case) : Bool :=
  cs.all isMovable && namesDistinct (cs.flatMap (·.names))

/-- The child of an element, which must exist. -/
def childAt (e : Element) (index : Nat) : Except Fault Element :=
  match e.children[index]? with
  | some c => .ok c
  | none => .error .missingChild

/-- An element with one child exchanged, which must exist. -/
def withChild (e : Element) (index : Nat) (child : Element) : Except Fault Element :=
  match e.replaceChild? index child with
  | some e' => .ok e'
  | none => .error .missingChild

/-- Puts elements into places of a list: each takes over the outer trivia of its place. -/
def fillSlots (es : List Element) : List (Nat × Element) → Except Fault (List Element)
  | [] => .ok es
  | (slot, e) :: rest =>
    match es[slot]? with
    | none => .error .missingChild
    | some old => fillSlots (es.set slot (e.transplantTrivia old)) rest

/-- The items of a label with their patterns in order.  The commas between them stay. -/
def sortPatterns (names : List String) (slots : List (Nat × Element)) :
    Except Fault (List (Nat × Element)) := do
  let patterns ← slots.mapM fun (_, item) => childAt item 0
  let sorted := ((names.zip patterns).mergeSort fun a b => a.1 ≤ b.1).map (·.2)
  (slots.zip (patterns.zip sorted)).mapM fun ((slot, item), old, new) => do
    return (slot, ← withChild item 0 (new.transplantTrivia old))

/-- A case, which has become `current`, with the items of its label in order. -/
def sortItems (c : Case) (current : Element) : Except Fault Element := do
  match c.label, current with
  | some label, .node _ _ =>
    if c.itemsSorted then return current
    else
      match ← childAt current label.index with
      | .token _ => return current
      | .node k es =>
        let found ← (items label).mapM fun item => do
          return (item.index, ← childAt (.node k es) item.index)
        let slots := found.filter fun (_, item) => item.token?.isNone
        let sorted ← sortPatterns c.names slots
        withChild current label.index
          (.node k (sorted.foldl (fun es (slot, item) => es.set slot item) es))
  | _, _ => return current

/-- A switch, which has become `current`, with its cases in order and their items too. -/
def sortCases (cs : List Case) (current : Element) : Except Fault Element := do
  let moved ← cs.mapM fun c => do sortItems c (← childAt current c.node.index)
  let sorted := ((cs.zip moved).mergeSort fun a b => keyLe a.1.key b.1.key).map (·.2)
  let es ← fillSlots current.children ((cs.map (·.node.index)).zip sorted)
  return .node current.kind es

/-- Where the disorder of a switch is reported when it is corrected. -/
def disorder? (c : Cursor) (cs : List Case) : Option Nat :=
  if casesSorted cs then
    ((cs.filter (!·.itemsSorted)).findSome? (·.label)).map (·.position)
  else some c.position

/-- Sorts the cases of switches. -/
def fixer : Fixer Unit where
  node c current _ := do
    if c.kind != .switchExpr then return (none, ())
    else
      let cs := cases c
      match disorder? c cs with
      | none => return (none, ())
      | some position =>
        if canReorder cs then
          return (some ⟨← sortCases cs current, position, [], none⟩, ())
        else return (none, ())

/-- The rule with a severity. -/
def rule (severity : Severity) : Rule where
  description := description
  severity := severity
  find ctx := .ok (ctx.root.postorder.flatMap check)
  fixer? := some fun _ => fixer

/-- The rule before it is configured. -/
def entry : RuleEntry := .ofSeverity description rule

end SortedSwitchCases

end SwiftTidy
