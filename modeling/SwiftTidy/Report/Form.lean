import SwiftTidy.Text.Words

/-!
# The form of reports

The kinds of reports with the words for them, and the colors in which a report comes to a terminal.
-/

namespace SwiftTidy

/-- The form in which diagnostics are reported. -/
inductive ReportKind where
  | text
  | checkstyle
  deriving DecidableEq, Inhabited

namespace ReportKind

/-- The word for a kind of report. -/
def word : ReportKind → String
  | text => "text"
  | checkstyle => "checkstyle"

/-- Reads the word for a kind of report. -/
def ofWord? (s : String) : Option ReportKind := [text, checkstyle].find? (·.word == s)

/-- The small form of a letter, as far as it is an ASCII letter: the Kelvin sign is the one
character beyond ASCII whose small form is such a letter. -/
def lowerLetter (c : Char) : Char := if c == '\u212a' then 'k' else c.toLower

/-- Reads the word for a kind of report in any letter case. -/
def ofWordFolded? (s : String) : Option ReportKind :=
  ofWord? (String.ofList (s.toList.map lowerLetter))

/-- What to say about a word that names no kind of report. -/
def unknownMessage (word : String) : String :=
  s!"invalid reporter `{word}`, expected `text` or `checkstyle`"

end ReportKind

/-- The colors of reports. -/
inductive Color where
  | red
  | boldRed
  | green
  | yellow
  | blue
  | cyan
  deriving DecidableEq, Inhabited

namespace Color

/-- The number of a color in a control sequence. -/
def code : Color → String
  | red => "31"
  | boldRed => "1;31"
  | green => "32"
  | yellow => "33"
  | blue => "34"
  | cyan => "36"

/-- What switches a color on. -/
def start (c : Color) : String := "\x1b[" ++ c.code ++ "m"

/-- What switches colors off. -/
def reset : String := "\x1b[0m"

/-- The text with `again` behind each place where it switches colors off itself; `fuel` bounds
their number. -/
def reapply (again : List Char) : (fuel : Nat) → List Char → List Char
  | 0, cs => cs
  | fuel + 1, cs =>
    match Words.splitAtText reset.toList cs with
    | none => cs
    | some (front, rest) => front ++ reset.toList ++ again ++ reapply again fuel rest

/-- A text in a color, if colors are on. -/
def paint (c : Color) (on : Bool) (text : String) : String :=
  if on then
    let cs := text.toList
    c.start ++ String.ofList (reapply c.start.toList cs.length cs) ++ reset
  else text

end Color

end SwiftTidy
