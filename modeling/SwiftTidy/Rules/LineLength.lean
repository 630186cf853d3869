import SwiftTidy.Lint.Rule
import SwiftTidy.Text.Url
import SwiftTidy.Tree.Walk

/-!
# Length of lines

A line is measured in characters.  Lines can be left out by what is on them, and addresses and
object literals can count less than they take.
-/

namespace SwiftTidy

namespace LineLength

/-! ### Examples -/

/-- Code that the rule accepts. -/
def accepted : List Example :=
  [⟨"//////////////////////////////////////////////////////////////////////////////////////////" ++
     "//////////////////////////////\n", none⟩,
   ⟨"let c = #colorLiteral(red: 0.96, green: 0.70, blue: 0.2, alpha: 1)\n", some "20"⟩,
   ⟨"let i = #imageLiteral(resourceName: \"image.jpg\")\n", some "20"⟩,
   ⟨"// a comment longer than ten\n", some "\x7b warning = 10, ignores_comments = true \x7d"⟩,
   ⟨"/*\n a block comment longer than ten\n*/\n",
    some "\x7b warning = 10, ignores_comments = true \x7d"⟩,
   ⟨"let u = \"https://example.com/a/very/long/path\"\n",
    some "\x7b warning = 20, ignores_urls = true \x7d"⟩,
   ⟨"func f(a: Int, b: Int, c: Int) \x7b\n\x7d\n",
    some "\x7b warning = 20, ignores_function_declarations = true \x7d"⟩,
   ⟨"print(\"\\(value) and some more text\")\n",
    some "\x7b warning = 20, ignores_interpolated_strings = true \x7d"⟩]

/-- Code that the rule reports; an arrow stands in front of every violation. -/
def rejected : List Example :=
  [⟨"↓/////////////////////////////////////////////////////////////////////////////////////////" ++
     "////////////////////////////////\n", none⟩,
   ⟨"let a = 1\n↓let veryLongNameHere = 1\n", some "20"⟩,
   ⟨"↓let a = 1 // a comment that is long\n",
    some "\x7b warning = 10, ignores_comments = true \x7d"⟩,
   ⟨"↓// a comment longer than ten\n", some "10"⟩,
   ⟨"↓let u = \"https://example.com/a/very/long/path\"\n", some "20"⟩]

/-- Code that the rule corrects, with the corrected code. -/
def corrections : List (Example × String) := []

/-! ### The rule -/

/-- What the rule is. -/
def description : RuleDescription where
  identifier := "line_length"
  name := "Line Length"
  summary := "Lines should not span too many characters"
  kind := .metrics
  optIn := false
  correctable := false
  aliases := []
  accepted := accepted
  rejected := rejected
  corrections := corrections

/-- The options of the rule. -/
structure Options where
  length : SeverityLevels := ⟨120, some 200⟩
  /-- Lines with nothing but comments are left out. -/
  ignoresComments : Bool := false
  /-- Addresses do not count. -/
  ignoresUrls : Bool := false
  /-- Lines of the signature of a function are left out. -/
  ignoresFunctionDeclarations : Bool := false
  /-- Lines of a string with interpolation are left out. -/
  ignoresInterpolatedStrings : Bool := false
  deriving DecidableEq, Inhabited

/-- Reads the options from a table. -/
def Options.reader : OptionReader Options := do
  let warning ← OptionReader.number "warning" 120
  let error ← OptionReader.optionalNumber "error" (some 200)
  let comments ← OptionReader.boolean "ignores_comments" false
  let urls ← OptionReader.boolean "ignores_urls" false
  let declarations ← OptionReader.boolean "ignores_function_declarations" false
  let interpolated ← OptionReader.boolean "ignores_interpolated_strings" false
  return ⟨⟨warning, error⟩, comments, urls, declarations, interpolated⟩

/-- Reads the options; other values than tables set the limits. -/
def Options.configure : Option Toml → Except ConfigError Options
  | none => .ok {}
  | some v =>
    match v.table? with
    | some _ => reader.run description.identifier v
    | none =>
      match SeverityLevels.apply ⟨120, some 200⟩ description.identifier "length" v with
      | (l, none) => .ok { length := l }
      | (_, some e) => .error e

/-! ### What is on a line -/

/-- What can be on a line. -/
inductive Fact where
  | code
  | comment
  | declaration
  | interpolation
  deriving DecidableEq, Inhabited

/-- Something that is on all lines of a range. -/
structure Mark where
  fact : Fact
  range : TextRange

/-- The range of the comments in trivia that starts at an offset. -/
def commentMarks (base : Nat) (t : Trivia) : List Mark :=
  t.comments.map fun (offset, piece) =>
    ⟨.comment, ⟨base + offset, base + offset + piece.len, Nat.le_add_right _ _⟩⟩

/-- What a token puts on its lines. -/
def tokenMarks (c : Cursor) : List Mark :=
  commentMarks c.offset c.leadingTrivia ++ commentMarks c.endPosition c.trailingTrivia ++
    if c.kind == .endOfFile then []
    else
      ⟨.code, c.range⟩ ::
        if c.kind == .stringLiteral && Words.containsText ['\\', '('] c.text.toList then
          [⟨.interpolation, c.range⟩]
        else []

/-- The range of the signature of a function: up to the last part in front of its body. -/
def signatureRange? (decl : Cursor) : Option (Except Fault TextRange) :=
  (decl.children.takeWhile (·.kind != .codeBlock)).getLast?.map fun last =>
    TextRange.between decl.position last.endPosition

/-- What a node puts on its lines. -/
def nodeMarks (c : Cursor) : Except Fault (List Mark) :=
  if c.kind == .functionDecl || c.kind == .initializerDecl then
    match signatureRange? c with
    | none => .ok []
    | some r => r.map fun range => [⟨.declaration, range⟩]
  else .ok []

/-- What is on the lines of a source. -/
def marks (root : Cursor) : Except Fault (List Mark) := do
  let declarations ← root.postorder.mapM nodeMarks
  return root.tokens.flatMap tokenMarks ++ declarations.flatten

/-- Whether a mark is on a line, counted from zero: an empty range is on the line of its start. -/
def Mark.isOn (m : Mark) (ix : LineIndex) (line : Nat) : Bool :=
  let first := (ix.lineOf m.range.start).toZeroBased
  let last :=
    if m.range.isEmpty then first else (ix.lineOf (m.range.stop - 1)).toZeroBased
  first ≤ line && line ≤ last

/-- Whether something is on a line. -/
def hasFact (ms : List Mark) (ix : LineIndex) (line : Nat) (f : Fact) : Bool :=
  ms.any fun m => m.fact == f && m.isOn ix line

/-- Whether a line is left out. -/
def isIgnored (o : Options) (ms : List Mark) (ix : LineIndex) (line : Nat) : Bool :=
  (o.ignoresComments && hasFact ms ix line .comment && !hasFact ms ix line .code) ||
    (o.ignoresFunctionDeclarations && hasFact ms ix line .declaration) ||
    (o.ignoresInterpolatedStrings && hasFact ms ix line .interpolation)

/-! ### Length -/

/-- What follows the words for an object literal at the front. -/
def objectLiteral? (cs : List Char) : Option (List Char) :=
  ["#colorLiteral(".toList, "#imageLiteral(".toList].findSome? fun head =>
    if head.isPrefixOf cs then (Words.splitAtFirst (· == ')') (cs.drop head.length)).map (·.2)
    else none

/-- The text with every object literal shortened to one character; `fuel` bounds its length. -/
def shortenLiterals : (fuel : Nat) → List Char → List Char
  | 0, cs => cs
  | _ + 1, [] => []
  | fuel + 1, c :: cs =>
    match objectLiteral? (c :: cs) with
    | none => c :: shortenLiterals fuel cs
    | some rest => '#' :: shortenLiterals fuel rest

/-- The length of a line. -/
def measure (o : Options) (content : String) : Nat :=
  let cs := content.toList
  let cs := if o.ignoresUrls then Url.remove cs else cs
  (shortenLiterals cs.length cs).length

/-- What is said about a line that is too long. -/
def message (limit length : Nat) : String :=
  s!"Line should be {limit} characters or less; currently it has {length} characters"

/-- The least length in bytes that can be too long. -/
def Options.shortest (o : Options) : Nat :=
  match o.length.error with
  | none => o.length.warning
  | some error => min error o.length.warning

/-- The violation of a line, counted from zero.  A line never has more characters than bytes. -/
def checkLine (o : Options) (ms : List Mark) (ix : LineIndex) (line : Nat) :
    Except Fault (Option Violation) := do
  let number := OneIndexed.ofZeroBased line
  let content ← ix.lineText number
  if content.utf8ByteSize ≤ o.shortest || isIgnored o ms ix line then return none
  else
    let length := measure o content
    return (o.length.exceededBy length).map fun (severity, limit) =>
      ⟨ix.lineStart number, some (message limit length), some severity⟩

/-- The violations of all lines. -/
def check (o : Options) (u : SourceUnit) : Except Fault (List Violation) := do
  let ms ← marks u.root
  let found ← (List.range u.lineIndex.lineCount).mapM (checkLine o ms u.lineIndex)
  return found.filterMap id

/-- The rule with its options. -/
def rule (o : Options) : Rule where
  description := description
  severity := .warning
  find ctx := check o ctx.unit

/-- The rule before it is configured. -/
def entry : RuleEntry := ⟨description, fun v => (Options.configure v).map rule⟩

end LineLength

end SwiftTidy
