import SwiftTidy.Text.CharClass.Basic

/-!
# Words

Cutting text at blanks, at a given text and at line ends.
-/

namespace SwiftTidy

namespace Words

/-- The characters without the blanks in front. -/
def trimStart (cs : List Char) : List Char := cs.dropWhile CharClass.isBlank

/-- The characters without the blanks at the end. -/
def trimEnd (cs : List Char) : List Char := (cs.reverse.dropWhile CharClass.isBlank).reverse

/-- The characters without the blanks at both ends. -/
def trim (cs : List Char) : List Char := trimEnd (trimStart cs)

/-- The text without the blanks at both ends. -/
def trimText (s : String) : String := String.ofList (trim s.toList)

/-- The text without the characters of a class at both ends. -/
def trimMatching (p : Char → Bool) (s : String) : String :=
  String.ofList ((s.toList.dropWhile p).reverse.dropWhile p).reverse

/-- The words between blanks.  `word` holds the characters of the current word, last one first. -/
def splitBlanksFrom : (word : List Char) → List Char → List (List Char)
  | word, [] => if word.isEmpty then [] else [word.reverse]
  | word, c :: cs =>
    if CharClass.isBlank c then
      if word.isEmpty then splitBlanksFrom [] cs else word.reverse :: splitBlanksFrom [] cs
    else splitBlanksFrom (c :: word) cs

/-- The words between blanks. -/
def splitBlanks (cs : List Char) : List (List Char) := splitBlanksFrom [] cs

/-- The parts in front of and behind the first character of a class. -/
def splitAtFirst (p : Char → Bool) : List Char → Option (List Char × List Char)
  | [] => none
  | c :: cs =>
    if p c then some ([], cs)
    else (splitAtFirst p cs).map fun (front, rest) => (c :: front, rest)

/-- The parts in front of and behind the first occurrence of `sep`. -/
def splitAtText (sep : List Char) : List Char → Option (List Char × List Char)
  | [] => if sep.isEmpty then some ([], []) else none
  | c :: cs =>
    if sep.isPrefixOf (c :: cs) then some ([], (c :: cs).drop sep.length)
    else (splitAtText sep cs).map fun (front, rest) => (c :: front, rest)

/-- The parts between the occurrences of a character; a text without it is one part. -/
def splitOnChar (sep : Char) : List Char → List (List Char)
  | [] => [[]]
  | c :: cs =>
    match splitOnChar sep cs with
    | [] => [[c]]
    | part :: parts => if c == sep then [] :: part :: parts else (c :: part) :: parts

/-- The characters without the occurrences of `*/` at the end.  `rev` is the text backwards. -/
def dropCommentEnds : (rev : List Char) → List Char
  | '/' :: '*' :: rest => dropCommentEnds rest
  | rest => rest

/-- The characters without the occurrences of `*/` at the end. -/
def trimCommentEnd (cs : List Char) : List Char := (dropCommentEnds cs.reverse).reverse

/-- Whether `needle` occurs in the text. -/
def containsText (needle : List Char) (cs : List Char) : Bool :=
  (splitAtText needle cs).isSome

/-- The lines of a text, without their ends: a line ends with LF or CR LF, and an end of line at
the end of the text starts no further line. -/
def linesFrom : (line : List Char) → List Char → List (List Char)
  | line, [] => if line.isEmpty then [] else [line.reverse]
  | line, '\r' :: '\n' :: cs => line.reverse :: linesFrom [] cs
  | line, '\n' :: cs => line.reverse :: linesFrom [] cs
  | line, c :: cs => linesFrom (c :: line) cs

/-- The lines of a text, without their ends. -/
def lines (s : String) : List String := (linesFrom [] s.toList).map String.ofList

end Words

end SwiftTidy
