import SwiftTidy.Lint.Rule

/-!
# Runs of empty lines

Empty lines are found in the trivia in front of a token.  Comments divide it into runs of lines;
the first line of a run ends what stands in front of it, except at the start of the file.
-/

namespace SwiftTidy

namespace VerticalWhitespace

/-! ### Examples -/

/-- Code that the rule accepts. -/
def accepted : List Example :=
  [⟨"let abc = 0\n", none⟩,
   ⟨"let abc = 0\n\n", none⟩,
   ⟨"/* bcs \n\n\n\n*/\n", none⟩,
   ⟨"// bca \n\n", none⟩,
   ⟨"let a = \"\"\"\n\n\n\n\"\"\"\n", none⟩,
   ⟨"let a = 0\n\n\n\nlet b = 0\n", some "\x7b max_empty_lines = 3 \x7d"⟩]

/-- Code that the rule reports; an arrow stands in front of every violation. -/
def rejected : List Example :=
  [⟨"let aaaa = 0\n\n↓\n", none⟩,
   ⟨"struct AAAA \x7b\x7d\n\n\n↓\n", none⟩,
   ⟨"class BBBB \x7b\x7d\n  \n  \n↓  \n", none⟩,
   ⟨"// bca \n\n↓\n", none⟩,
   ⟨"\n↓\nlet a = 0\n", none⟩]

/-- Code that the rule corrects, with the corrected code. -/
def corrections : List (Example × String) :=
  [(⟨"let b = 0\n\n↓\nclass AAA \x7b\x7d\n", none⟩, "let b = 0\n\nclass AAA \x7b\x7d\n"),
   (⟨"let c = 0\n\n\n↓\n", none⟩, "let c = 0\n\n"),
   (⟨"// bca \n\n↓\n", none⟩, "// bca \n\n"),
   (⟨"func f() \x7b\n    let a = 0\n\n↓\n    // note\n\n↓\n    let b = 1\n\x7d\n", none⟩,
    "func f() \x7b\n    let a = 0\n\n    // note\n\n    let b = 1\n\x7d\n")]

/-! ### The rule -/

/-- What the rule is. -/
def description : RuleDescription where
  identifier := "vertical_whitespace"
  name := "Vertical Whitespace"
  summary := "Limit vertical whitespace to a single empty line"
  kind := .style
  optIn := false
  correctable := true
  aliases := []
  accepted := accepted
  rejected := rejected
  corrections := corrections

/-- The options of the rule. -/
structure Options where
  severity : Severity := .warning
  maxEmptyLines : Nat := 1
  deriving DecidableEq, Inhabited

/-- Reads the options. -/
def Options.reader : OptionReader Options := do
  let severity ← OptionReader.severity "severity" .warning
  let maxEmptyLines ← OptionReader.number "max_empty_lines" 1
  return ⟨severity, maxEmptyLines⟩

/-- A line that ends in a run of trivia. -/
structure Line where
  /-- The index of its first piece. -/
  first : Nat
  /-- The index of its line break. -/
  last : Nat
  /-- The offset at which it starts. -/
  start : Nat
  deriving DecidableEq, Inhabited

/-- Whether the piece at an index belongs to the line. -/
def Line.contains (l : Line) (index : Nat) : Bool := l.first ≤ index && index ≤ l.last

/-- The lines that end in the pieces from index `index` and offset `offset` on, divided by
comments.  The current line starts with piece `first` at offset `start`, and `lines` are those
that ended behind the last comment. -/
def lineRuns : (index offset first start : Nat) → (lines : List Line) → Trivia → List (List Line)
  | _, _, _, _, lines, [] => [lines]
  | index, offset, first, start, lines, p :: ps =>
    let next := offset + p.len
    if p.isNewline then
      lineRuns (index + 1) next (index + 1) next (lines ++ [⟨first, index, start⟩]) ps
    else if p.isComment then lines :: lineRuns (index + 1) next first start [] ps
    else lineRuns (index + 1) next first start lines ps

/-- The runs of empty lines in the trivia in front of a token.  The first line of a run ends a
line with something on it, unless it is the first line of the file. -/
def emptyRuns (offset : Nat) (leading : Trivia) : List (List Line) :=
  match lineRuns 0 offset 0 offset [] leading with
  | [] => []
  | run :: runs => (if offset = 0 then run else run.drop 1) :: runs.map (·.drop 1)

/-- A run of too many empty lines. -/
structure Excess where
  /-- Where the last of them starts. -/
  position : Nat
  /-- How many there are. -/
  count : Nat
  /-- Those that are too many. -/
  surplus : List Line
  deriving DecidableEq, Inhabited

/-- What is too much in a run of empty lines. -/
def excess? (limit : Nat) (run : List Line) : Option Excess :=
  if limit < run.length then
    run.getLast?.map fun last => ⟨last.start, run.length, run.take (run.length - limit)⟩
  else none

/-- The runs of too many empty lines in front of a token. -/
def excesses (limit : Nat) (token : Cursor) : List Excess :=
  (emptyRuns token.offset token.leadingTrivia).filterMap (excess? limit)

/-- What is said about a run of too many empty lines. -/
def message (limit count : Nat) : String :=
  let allowed := if limit = 1 then "a single empty line" else s!"maximum {limit} empty lines"
  s!"Limit vertical whitespace to {allowed}; currently {count}"

/-- The pieces that belong to none of the given lines, counted from index `index` on. -/
def dropLines (lines : List Line) : (index : Nat) → Trivia → Trivia
  | _, [] => []
  | index, p :: ps =>
    if lines.any (·.contains index) then dropLines lines (index + 1) ps
    else p :: dropLines lines (index + 1) ps

/-- Drops the empty lines that are too many in front of a token, where the rule is not
disabled. -/
def fix? (limit : Nat) (disabled : DisabledRegions) (c : Cursor) : Option Fix := do
  let token ← c.token?
  match (excesses limit c).filter (!disabled.isSuppressed ·.position) with
  | [] => none
  | run :: runs =>
    let leading := dropLines ((run :: runs).flatMap (·.surplus)) 0 token.leading
    return ⟨.token { token with leading := leading }, run.position, runs.map (·.position),
      some c.fullRange⟩

/-- The rule with its options. -/
def rule (o : Options) : Rule where
  description := description
  severity := o.severity
  find ctx :=
    .ok (ctx.root.tokens.flatMap fun token =>
      (excesses o.maxEmptyLines token).map fun e =>
        ⟨e.position, some (message o.maxEmptyLines e.count), none⟩)
  fixer? := some fun ctx =>
    let disabled := ctx.unit.disabledRegions description
    { token := fun c _ => .ok (fix? o.maxEmptyLines disabled c, ()) }

/-- The rule before it is configured. -/
def entry : RuleEntry :=
  ⟨description, fun v => (Options.reader.configure description.identifier {} v).map rule⟩

end VerticalWhitespace

end SwiftTidy
