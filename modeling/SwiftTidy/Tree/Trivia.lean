/-!
# Trivia

Whitespace and comments carry no meaning for the grammar, but they are never thrown away: every
token owns the run of pieces in front of it and the run behind it on the same line.
-/

namespace SwiftTidy

/-- What a piece of trivia is. -/
inductive TriviaKind where
  /-- A run of spaces, tabs, vertical tabs and form feeds. -/
  | whitespace
  /-- One line break: LF, CR LF or a lone CR. -/
  | newline
  /-- `// …` up to the end of the line. -/
  | lineComment
  /-- `/* … */`, possibly nested. -/
  | blockComment
  /-- `/// …` up to the end of the line. -/
  | docLineComment
  /-- `/** … */`, possibly nested. -/
  | docBlockComment
  deriving DecidableEq, Inhabited

namespace TriviaKind

/-- Every kind of trivia. -/
def all : List TriviaKind :=
  [.whitespace, .newline, .lineComment, .blockComment, .docLineComment, .docBlockComment]

/-- The name under which a kind of trivia is printed. -/
def name : TriviaKind → String
  | .whitespace => "Whitespace"
  | .newline => "Newline"
  | .lineComment => "LineComment"
  | .blockComment => "BlockComment"
  | .docLineComment => "DocLineComment"
  | .docBlockComment => "DocBlockComment"

/-- The kind of trivia printed under a given name. -/
def ofName? (s : String) : Option TriviaKind :=
  all.find? (fun k => k.name == s)

/-- The four kinds of comments. -/
def isComment : TriviaKind → Bool
  | .lineComment | .blockComment | .docLineComment | .docBlockComment => true
  | .whitespace | .newline => false

end TriviaKind

/-- One piece of trivia with its text. -/
structure TriviaPiece where
  kind : TriviaKind
  text : String
  deriving DecidableEq, Inhabited

namespace TriviaPiece

/-- The number of bytes of the piece. -/
def len (p : TriviaPiece) : Nat := p.text.utf8ByteSize

/-- Whether the piece is a run of horizontal whitespace. -/
def isWhitespace (p : TriviaPiece) : Bool := p.kind == .whitespace

/-- Whether the piece is a line break. -/
def isNewline (p : TriviaPiece) : Bool := p.kind == .newline

/-- Whether the piece is a comment of any kind. -/
def isComment (p : TriviaPiece) : Bool := p.kind.isComment

/-- A run of `n` spaces. -/
def spaces (n : Nat) : TriviaPiece := ⟨.whitespace, "".pushn ' ' n⟩

/-- A line feed. -/
def lineFeed : TriviaPiece := ⟨.newline, "\n"⟩

end TriviaPiece

/-- An ordered run of trivia pieces. -/
abbrev Trivia := List TriviaPiece

namespace Trivia

/-- The text of the run: its pieces' texts one after another. -/
def text (t : Trivia) : String := String.join (t.map (·.text))

/-- The number of bytes of the run. -/
def len : Trivia → Nat
  | [] => 0
  | p :: t => p.len + len t

/-- Whether some piece is a comment. -/
def containsComment (t : Trivia) : Bool := t.any (·.isComment)

/-- Whether some piece is a line break. -/
def containsNewline (t : Trivia) : Bool := t.any (·.isNewline)

/-- The number of line breaks. -/
def newlineCount (t : Trivia) : Nat := t.countP (·.isNewline)

/-- Whether every piece is horizontal whitespace; the empty run qualifies. -/
def isWhitespaceOnly (t : Trivia) : Bool := t.all (·.isWhitespace)

/-- The comments of a run that starts at byte `start`, each with the byte it starts at. -/
def commentsFrom (start : Nat) : Trivia → List (Nat × TriviaPiece)
  | [] => []
  | p :: t =>
    if p.isComment then (start, p) :: commentsFrom (start + p.len) t
    else commentsFrom (start + p.len) t

/-- The comments, each with its offset from the start of the run. -/
def comments (t : Trivia) : List (Nat × TriviaPiece) := commentsFrom 0 t

/-- The run without its horizontal whitespace. -/
def withoutWhitespace (t : Trivia) : Trivia := t.filter (!·.isWhitespace)

/-- A single run of `n` spaces; no piece at all for zero. -/
def spaces (n : Nat) : Trivia := if n = 0 then [] else [TriviaPiece.spaces n]

@[simp] theorem len_nil : len [] = 0 := rfl

@[simp] theorem len_cons (p : TriviaPiece) (t : Trivia) : len (p :: t) = p.len + len t := rfl

@[simp] theorem len_append (s t : Trivia) : len (s ++ t) = len s + len t := by
  induction s with
  | nil => simp
  | cons p s ih => simp [ih, Nat.add_assoc]

end Trivia

end SwiftTidy
