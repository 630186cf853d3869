/-!
# Written forms of strings

A string can be written in several forms.  The first one that can hold the text as it is gets
chosen; a text that none of them can hold is written with escapes.
-/

namespace SwiftTidy

namespace Toml

/-- The forms in which a string can be written. -/
inductive StringForm where
  /-- Between quotes. -/
  | basic
  /-- Between apostrophes. -/
  | literal
  /-- Between three quotes. -/
  | multilineBasic
  /-- Between three apostrophes. -/
  | multilineLiteral
  deriving DecidableEq, Inhabited

namespace StringForm

/-- Characters that stand in no form as themselves. -/
def isControl (c : Char) : Bool :=
  (c.toNat < 0x20 && c != '\t' && c != '\n') || c.toNat == 0x7f

/-- The length of the longest run of a character; `run` is the length of the current one. -/
def longestRun (x : Char) : (run : Nat) → List Char → Nat
  | run, [] => run
  | run, c :: cs => if c == x then longestRun x (run + 1) cs else max run (longestRun x 0 cs)

/-- The form in which a text is written: the first that can hold it. -/
def choose (cs : List Char) : StringForm :=
  let plain := !cs.any isControl
  let oneLine := !cs.contains '\n'
  if plain && oneLine && !cs.contains '"' && !cs.contains '\\' then basic
  else if plain && oneLine && !cs.contains '\'' then literal
  else if plain && !cs.contains '\\' && longestRun '"' 0 cs < 3 then multilineBasic
  else if plain && longestRun '\'' 0 cs < 3 then multilineLiteral
  else if oneLine then basic
  else multilineBasic

/-- A hexadecimal digit. -/
def hexDigit (n : Nat) : Char :=
  if n < 10 then Char.ofNat ('0'.toNat + n) else Char.ofNat ('A'.toNat + n - 10)

/-- The escape of a character other than a quote, if it needs one. -/
def escape? (c : Char) : Option (List Char) :=
  match c with
  | '\x08' => some ['\\', 'b']
  | '\t' => some ['\\', 't']
  | '\x0c' => some ['\\', 'f']
  | '\r' => some ['\\', 'r']
  | '\\' => some ['\\', '\\']
  | c =>
    if isControl c then some ['\\', 'u', '0', '0', hexDigit (c.toNat / 16), hexDigit (c.toNat % 16)]
    else none

/-- The characters of a text between quotes. -/
def basicBody : List Char → List Char
  | [] => []
  | '"' :: cs => '\\' :: '"' :: basicBody cs
  | '\n' :: cs => '\\' :: 'n' :: basicBody cs
  | c :: cs => (escape? c).getD [c] ++ basicBody cs

/-- The characters of a text between three quotes.  The third quote of a run is escaped, and a new
run starts behind every escape; `quotes` is the length of the current run. -/
def multilineBody : (quotes : Nat) → List Char → List Char
  | _, [] => []
  | quotes, '"' :: cs =>
    if quotes = 2 then '\\' :: '"' :: multilineBody 0 cs else '"' :: multilineBody (quotes + 1) cs
  | _, c :: cs => (escape? c).getD [c] ++ multilineBody 0 cs

/-- A text in some form.  Between three delimiters a text of several lines starts on a line of its
own. -/
def write (form : StringForm) (cs : List Char) : List Char :=
  let start := if cs.contains '\n' then ['\n'] else []
  match form with
  | basic => ['"'] ++ basicBody cs ++ ['"']
  | literal => ['\''] ++ cs ++ ['\'']
  | multilineBasic => ['"', '"', '"'] ++ start ++ multilineBody 0 cs ++ ['"', '"', '"']
  | multilineLiteral => ['\'', '\'', '\''] ++ start ++ cs ++ ['\'', '\'', '\'']

end StringForm

/-- The written form of a string. -/
def writeString (s : String) : String :=
  String.ofList ((StringForm.choose s.toList).write s.toList)

end Toml

end SwiftTidy
