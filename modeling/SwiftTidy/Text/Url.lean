import SwiftTidy.Text.CharClass.Basic
import SwiftTidy.Text.CharClass.Word

/-!
# Addresses in text

Finds what looks like an address in running text: a head such as `https://`, `www.` or
`host.tld/`, and a tail of characters and balanced parentheses that does not end with punctuation.
A head may be read in several ways; the first one that a tail follows counts, and of the tails the
longest.
-/

namespace SwiftTidy

namespace Url

/-- The letters of heads: those of ASCII, and the two others that fold to one of these. -/
def isLetter (c : Char) : Bool := c.isAlpha || c == '\u017f' || c == '\u212a'

/-- The characters of host names. -/
def isHostChar (c : Char) : Bool := isLetter c || c.isDigit || c == '.' || c == '-'

/-- The characters of tails, apart from parentheses. -/
def isTailChar (c : Char) : Bool :=
  !(CharClass.isBlank c || c == '(' || c == ')' || c == '<' || c == '>')

/-- Punctuation, which does not end a tail. -/
def punctuation : List Char :=
  ['\x60', '!', '[', ']', '\x7b', '\x7d', ';', ':', '\'', '"', '.', ',', '?', '«', '»', '“', '”',
   '‘', '’']

/-- Whether a tail can end with a character. -/
def canEnd (c : Char) : Bool := isTailChar c && !punctuation.contains c

/-- What follows the closing parenthesis of a group whose opening one was read.  A group may hold
non-empty groups without further ones in them; within such a group, `inner` says whether it holds
something already. -/
def groupEnd? : (inner : Option Bool) → List Char → Option (List Char)
  | _, [] => none
  | none, ')' :: cs => some cs
  | none, '(' :: cs => groupEnd? (some false) cs
  | some filled, ')' :: cs => if filled then groupEnd? none cs else none
  | some _, '(' :: _ => none
  | inner, c :: cs => if isTailChar c then groupEnd? (inner.map fun _ => true) cs else none

/-- One character or group of a tail: whether the tail can end with it, and what follows. -/
def item? : List Char → Option (Bool × List Char)
  | [] => none
  | '(' :: cs => (groupEnd? none cs).map (true, ·)
  | c :: cs => if isTailChar c then some (canEnd c, cs) else none

/-- What follows the longest tail; `best` is what follows the longest one so far, and `fuel`
bounds the number of items. -/
def longestTail : (fuel : Nat) → (best : Option (List Char)) → List Char → Option (List Char)
  | 0, best, _ => best
  | fuel + 1, best, cs =>
    match item? cs with
    | none => best
    | some (ends, rest) => longestTail fuel (if ends then some rest else best) rest

/-- What follows a tail, which has at least two items. -/
def tail? (cs : List Char) : Option (List Char) :=
  (item? cs).bind fun (_, rest) => longestTail rest.length none rest

/-- What follows a scheme with its colon, and up to three slashes or one more character. -/
def schemeEnds : List Char → List (List Char)
  | [] => []
  | c :: cs =>
    let name := cs.takeWhile fun c => CharClass.isWord c || c == '-'
    if isLetter c && !name.isEmpty then
      match cs.drop name.length with
      | ':' :: '/' :: '/' :: '/' :: rest => [rest, '/' :: rest, '/' :: '/' :: rest]
      | ':' :: '/' :: '/' :: rest => [rest, '/' :: rest]
      | ':' :: '/' :: rest => [rest]
      | ':' :: d :: rest => if isLetter d || d.isDigit || d == '%' then [rest] else []
      | _ => []
    else []

/-- What follows `www`, up to three digits and a dot. -/
def wwwEnds : List Char → List (List Char)
  | a :: b :: c :: cs =>
    if [a, b, c].all fun x => x == 'w' || x == 'W' then
      match cs.drop ((cs.take 3).takeWhile CharClass.isDigit).length with
      | '.' :: rest => [rest]
      | _ => []
    else []
  | _ => []

/-- What follows a host name that ends with a dot and two to four letters, and a slash. -/
def hostEnds (cs : List Char) : List (List Char) :=
  let host := cs.takeWhile isHostChar
  match cs.drop host.length with
  | '/' :: rest =>
    let letters := host.reverse.takeWhile isLetter
    match host.reverse.drop letters.length with
    | '.' :: _ :: _ => if 2 ≤ letters.length && letters.length ≤ 4 then [rest] else []
    | _ => []
  | _ => []

/-- Whether a character is a word character. -/
def isWordAt (c : Option Char) : Bool := c.any CharClass.isWord

/-- What follows an address at the front; `before` is the character in front of it, and a word
must start or end in between. -/
def match? (before : Option Char) (cs : List Char) : Option (List Char) :=
  if isWordAt before == isWordAt cs.head? then none
  else (schemeEnds cs ++ wwwEnds cs ++ hostEnds cs).findSome? tail?

/-- The text without the addresses in it; `fuel` bounds its length. -/
def removeFrom : (fuel : Nat) → (before : Option Char) → List Char → List Char
  | 0, _, cs => cs
  | _ + 1, _, [] => []
  | fuel + 1, before, c :: cs =>
    match match? before (c :: cs) with
    | none => c :: removeFrom fuel (some c) cs
    | some rest => removeFrom fuel ((c :: cs).take (cs.length + 1 - rest.length)).getLast? rest

/-- The text without the addresses in it. -/
def remove (cs : List Char) : List Char := removeFrom cs.length none cs

end Url

end SwiftTidy
