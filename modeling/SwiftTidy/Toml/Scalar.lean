import SwiftTidy.Toml.Value

/-!
# TOML scalars

Readers for the parts of a document that hold no other values: strings, numbers, booleans and
dates.  A reader of a delimited string gets the characters behind the opening delimiter and
answers the text and the characters behind the closing one.
-/

namespace SwiftTidy

namespace Toml

/-- Control characters other than tab, which never stand in a document as themselves. -/
def isControl (c : Char) : Bool := (c.toNat < 0x20 && c != '\t') || c.toNat == 0x7f

/-- Spaces and tabs. -/
def isSpace (c : Char) : Bool := c == ' ' || c == '\t'

/-- The value of a hexadecimal digit. -/
def hexValue? (c : Char) : Option Nat :=
  if '0' ≤ c && c ≤ '9' then some (c.toNat - '0'.toNat)
  else if 'a' ≤ c && c ≤ 'f' then some (c.toNat - 'a'.toNat + 10)
  else if 'A' ≤ c && c ≤ 'F' then some (c.toNat - 'A'.toNat + 10)
  else none

/-- The value of a digit in a base up to sixteen. -/
def digitValue? (base : Nat) (c : Char) : Option Nat := (hexValue? c).filter (· < base)

/-- The number written by digits in a base. -/
def digitsValue? (base : Nat) : List Char → Option Nat
  | [] => none
  | c :: cs =>
    (c :: cs).foldlM (fun n d => (digitValue? base d).map (n * base + ·)) 0

/-- The character with a code point; surrogates are no characters. -/
def charOf? (n : Nat) : Option Char :=
  if n.isValidChar then some (Char.ofNat n) else none

/-- The character written by hexadecimal digits. -/
def hexChar? (digits : List Char) : Option Char := (digitsValue? 16 digits).bind charOf?

/-- The character of a short escape. -/
def shortEscape? : Char → Option Char
  | 'b' => some '\x08'
  | 't' => some '\t'
  | 'n' => some '\n'
  | 'f' => some '\x0c'
  | 'r' => some '\r'
  | 'e' => some '\x1b'
  | '"' => some '"'
  | '\\' => some '\\'
  | _ => none

/-- Puts a character in front of what a reader read. -/
def prepend (c : Option Char) (r : Option (List Char × List Char)) :
    Option (List Char × List Char) :=
  match c, r with
  | some c, some (text, rest) => some (c :: text, rest)
  | _, _ => none

/-- The text up to the closing quote of a basic string. -/
def basicString : List Char → Option (List Char × List Char)
  | [] => none
  | '"' :: cs => some ([], cs)
  | '\\' :: 'x' :: a :: b :: cs => prepend (hexChar? [a, b]) (basicString cs)
  | '\\' :: 'u' :: a :: b :: c :: d :: cs => prepend (hexChar? [a, b, c, d]) (basicString cs)
  | '\\' :: 'U' :: a :: b :: c :: d :: e :: f :: g :: h :: cs =>
    prepend (hexChar? [a, b, c, d, e, f, g, h]) (basicString cs)
  | '\\' :: c :: cs => prepend (shortEscape? c) (basicString cs)
  | c :: cs => if isControl c || c == '\\' then none else prepend (some c) (basicString cs)

/-- Whether a line ends here, behind spaces and tabs. -/
def endsLine (cs : List Char) : Bool :=
  match cs.dropWhile isSpace with
  | '\n' :: _ => true
  | '\r' :: '\n' :: _ => true
  | _ => false

/-- The text up to the closing quotes of a basic string over several lines.  Behind a backslash at
the end of a line, blanks and line ends are skipped.  Up to two quotes may stand in front of the
closing three. -/
def multilineBasic : (skipping : Bool) → List Char → Option (List Char × List Char)
  | _, [] => none
  | skipping, '\r' :: '\n' :: cs =>
    if skipping then multilineBasic true cs
    else prepend (some '\r') (prepend (some '\n') (multilineBasic false cs))
  | skipping, '\n' :: cs =>
    if skipping then multilineBasic true cs else prepend (some '\n') (multilineBasic false cs)
  | _, '"' :: '"' :: '"' :: '"' :: '"' :: cs => some (['"', '"'], cs)
  | _, '"' :: '"' :: '"' :: '"' :: cs => some (['"'], cs)
  | _, '"' :: '"' :: '"' :: cs => some ([], cs)
  | _, '\\' :: 'x' :: a :: b :: cs => prepend (hexChar? [a, b]) (multilineBasic false cs)
  | _, '\\' :: 'u' :: a :: b :: c :: d :: cs =>
    prepend (hexChar? [a, b, c, d]) (multilineBasic false cs)
  | _, '\\' :: 'U' :: a :: b :: c :: d :: e :: f :: g :: h :: cs =>
    prepend (hexChar? [a, b, c, d, e, f, g, h]) (multilineBasic false cs)
  | _, '\\' :: c :: cs =>
    if endsLine (c :: cs) then multilineBasic true (c :: cs)
    else prepend (shortEscape? c) (multilineBasic false cs)
  | skipping, c :: cs =>
    if skipping && isSpace c then multilineBasic true cs
    else if isControl c || c == '\\' then none
    else prepend (some c) (multilineBasic false cs)

/-- The text up to the closing quote of a literal string. -/
def literalString : List Char → Option (List Char × List Char)
  | [] => none
  | '\'' :: cs => some ([], cs)
  | c :: cs => if isControl c then none else prepend (some c) (literalString cs)

/-- The text up to the closing quotes of a literal string over several lines. -/
def multilineLiteral : List Char → Option (List Char × List Char)
  | [] => none
  | '\r' :: '\n' :: cs => prepend (some '\r') (prepend (some '\n') (multilineLiteral cs))
  | '\n' :: cs => prepend (some '\n') (multilineLiteral cs)
  | '\'' :: '\'' :: '\'' :: '\'' :: '\'' :: cs => some (['\'', '\''], cs)
  | '\'' :: '\'' :: '\'' :: '\'' :: cs => some (['\''], cs)
  | '\'' :: '\'' :: '\'' :: cs => some ([], cs)
  | c :: cs => if isControl c then none else prepend (some c) (multilineLiteral cs)

/-- The characters behind a line end that directly follows an opening delimiter. -/
def skipFirstLineEnd : List Char → List Char
  | '\n' :: cs => cs
  | '\r' :: '\n' :: cs => cs
  | cs => cs

/-- A string of any form. -/
def readString : List Char → Option (String × List Char)
  | '"' :: '"' :: '"' :: cs => finish (multilineBasic false (skipFirstLineEnd cs))
  | '"' :: cs => finish (basicString cs)
  | '\'' :: '\'' :: '\'' :: cs => finish (multilineLiteral (skipFirstLineEnd cs))
  | '\'' :: cs => finish (literalString cs)
  | _ => none
where
  /-- The text that was read. -/
  finish (r : Option (List Char × List Char)) : Option (String × List Char) :=
    r.map fun (text, rest) => (String.ofList text, rest)

/-! ### Numbers -/

/-- The digits of a number without the underscores between them; an underscore needs a digit on
both sides. -/
def dropUnderscores (isDigit : Char → Bool) : (afterDigit : Bool) → List Char → Option (List Char)
  | _, [] => some []
  | afterDigit, '_' :: c :: cs =>
    if afterDigit && isDigit c then dropUnderscores isDigit false (c :: cs) else none
  | _, c :: cs =>
    if isDigit c then (dropUnderscores isDigit true cs).map (c :: ·) else none

/-- The digits of a decimal number, which has at least one. -/
def decimalDigits? (cs : List Char) : Option (List Char) :=
  if cs.isEmpty then none else dropUnderscores Char.isDigit false cs

/-- The digits of a decimal integer: no zero stands in front of others. -/
def integerDigits? (cs : List Char) : Option (List Char) :=
  match decimalDigits? cs with
  | some ('0' :: _ :: _) => none
  | r => r

/-- Takes a sign off the front. -/
def splitSign : List Char → Bool × List Char
  | '-' :: cs => (true, cs)
  | '+' :: cs => (false, cs)
  | cs => (false, cs)

/-- An integer in a base other than ten. -/
def basedInteger? (base : Nat) (cs : List Char) : Option Int :=
  if cs.isEmpty then none
  else
    ((dropUnderscores (fun c => (digitValue? base c).isSome) false cs).bind (digitsValue? base)).map
      Int.ofNat

/-- An integer. -/
def readInteger? : List Char → Option Int
  | '0' :: 'x' :: cs => basedInteger? 16 cs
  | '0' :: 'o' :: cs => basedInteger? 8 cs
  | '0' :: 'b' :: cs => basedInteger? 2 cs
  | cs =>
    let (negative, digits) := splitSign cs
    ((integerDigits? digits).bind (digitsValue? 10)).map fun n =>
      if negative then -(Int.ofNat n) else Int.ofNat n

/-- The number of decimal digits of a number. -/
def digitCount (n : Nat) : Nat := (Nat.toDigits 10 n).length

/-- The number `digits · 10 ^ exponent`, rounded.  Beyond the exponents of 64 bits it is infinite
or zero whatever the digits are, and no power of ten is computed for it. -/
def magnitude (digits : Nat) (exponent : Int) : Float :=
  if digits = 0 then 0
  else if 400 < exponent then 1 / 0
  else if exponent + digitCount digits < -400 then 0
  else Float.ofScientific digits (exponent < 0) exponent.natAbs

/-- The 64 bits of the number `digits · 10 ^ exponent`; there is none when it is too large. -/
def floatBits? (negative : Bool) (digits : Nat) (exponent : Int) : Option UInt64 :=
  let value := magnitude digits exponent
  if value.isInf then none else some (if negative then -value else value).toBits

/-- The exponent of a number behind its mark. -/
def readExponent? (cs : List Char) : Option Int :=
  let (negative, digits) := splitSign cs
  ((decimalDigits? digits).bind (digitsValue? 10)).map fun n =>
    if negative then -(Int.ofNat n) else Int.ofNat n

/-- A floating-point number: a fraction, an exponent or both, or one of the special values. -/
def readFloat? (cs : List Char) : Option Toml :=
  let (negative, body) := splitSign cs
  match body with
  | ['i', 'n', 'f'] => some (.float (if negative then 0xfff0000000000000 else 0x7ff0000000000000))
  | ['n', 'a', 'n'] => some (.float (if negative then 0xfff8000000000000 else 0x7ff8000000000000))
  | _ => do
    let mantissa := body.takeWhile fun c => c != 'e' && c != 'E'
    let behind := body.drop mantissa.length
    let whole := mantissa.takeWhile (· != '.')
    let fraction := mantissa.drop whole.length
    if behind.isEmpty && fraction.isEmpty then none
    else
      let exponent ← if behind.isEmpty then some 0 else readExponent? (behind.drop 1)
      let wholeDigits ← integerDigits? whole
      let fractionDigits ←
        if fraction.isEmpty then some [] else decimalDigits? (fraction.drop 1)
      let digits ← digitsValue? 10 (wholeDigits ++ fractionDigits)
      match floatBits? negative digits (exponent - fractionDigits.length) with
      | some bits => some (.float bits)
      | none => some .hugeFloat

/-! ### Dates and times -/

/-- The two-digit number at the front. -/
def twoDigits? : List Char → Option (Nat × List Char)
  | a :: b :: cs => if a.isDigit && b.isDigit then (digitsValue? 10 [a, b]).map (·, cs) else none
  | _ => none

/-- The number of days of a month. -/
def daysIn (year month : Nat) : Nat :=
  if month = 2 then if year % 4 = 0 && (year % 100 != 0 || year % 400 = 0) then 29 else 28
  else if month = 4 || month = 6 || month = 9 || month = 11 then 30
  else 31

/-- A date at the front, in normal form. -/
def readDate? : List Char → Option (String × List Char)
  | a :: b :: c :: d :: '-' :: cs => do
    if !(a.isDigit && b.isDigit && c.isDigit && d.isDigit) then none
    else
      let year ← digitsValue? 10 [a, b, c, d]
      let (month, cs) ← twoDigits? cs
      match cs with
      | '-' :: cs' =>
        let (day, rest) ← twoDigits? cs'
        if 1 ≤ month && month ≤ 12 && 1 ≤ day && day ≤ daysIn year month then
          some (String.ofList [a, b, c, d, '-'] ++ two month ++ "-" ++ two day, rest)
        else none
      | _ => none
  | _ => none
where
  /-- A number in two digits. -/
  two (n : Nat) : String := (if n < 10 then "0" else "") ++ toString n

/-- The digits of a fraction of a second, at most nine and without zeros at the end. -/
def fractionText (digits : List Char) : String :=
  match ((digits.take 9).reverse.dropWhile (· == '0')).reverse with
  | [] => ""
  | ds => "." ++ String.ofList ds

/-- A time at the front, in normal form; the seconds may be left out. -/
def readTime? (cs : List Char) : Option (String × List Char) := do
  let (hour, cs) ← twoDigits? cs
  match cs with
  | ':' :: cs =>
    let (minute, cs) ← twoDigits? cs
    if hour > 23 || minute > 59 then none
    else
      let front := readDate?.two hour ++ ":" ++ readDate?.two minute
      match cs with
      | ':' :: cs' =>
        let (second, rest) ← twoDigits? cs'
        if second > 60 then none
        else
          match rest with
          | '.' :: frac =>
            let digits := frac.takeWhile Char.isDigit
            if digits.isEmpty then none
            else
              some (front ++ ":" ++ readDate?.two second ++ fractionText digits,
                frac.drop digits.length)
          | _ => some (front ++ ":" ++ readDate?.two second, rest)
      | _ => some (front ++ ":00", cs)
  | _ => none

/-- The distance from universal time at the front, in normal form; empty when there is none.  No
distance at all is written with a plus. -/
def readZone? : List Char → Option (String × List Char)
  | 'Z' :: cs => some ("Z", cs)
  | 'z' :: cs => some ("Z", cs)
  | '+' :: cs => shifted "+" cs
  | '-' :: cs => shifted "-" cs
  | cs => some ("", cs)
where
  /-- Hours and minutes behind a sign. -/
  shifted (sign : String) (cs : List Char) : Option (String × List Char) := do
    let (hour, cs) ← twoDigits? cs
    match cs with
    | ':' :: cs =>
      let (minute, rest) ← twoDigits? cs
      if hour > 23 || minute > 59 then none
      else
        let sign := if hour = 0 && minute = 0 then "+" else sign
        some (sign ++ readDate?.two hour ++ ":" ++ readDate?.two minute, rest)
    | _ => none

/-- A date, a time or both at the front, in normal form. -/
def readDatetime? (cs : List Char) : Option (String × List Char) :=
  match readDate? cs with
  | some (date, sep :: rest) =>
    let timed : Option (String × List Char) :=
      if sep == 'T' || sep == 't' || (sep == ' ' && rest.head?.any Char.isDigit) then do
        let (time, rest) ← readTime? rest
        let (zone, rest) ← readZone? rest
        return (date ++ "T" ++ time ++ zone, rest)
      else none
    if sep == 'T' || sep == 't' then timed
    else if sep == ' ' && rest.head?.any Char.isDigit then timed
    else some (date, sep :: rest)
  | some (date, []) => some (date, [])
  | none => readTime? cs

/-- The normal form of a text that is a date, a time or both. -/
def datetimeOf? (text : String) : Option String :=
  match readDatetime? text.toList with
  | some (normal, []) => some normal
  | _ => none

/-! ### Scalars without delimiters -/

/-- The characters of scalars without delimiters. -/
def isScalarChar (c : Char) : Bool :=
  c.isAlphanum || c == '_' || c == '+' || c == '-' || c == '.' || c == ':'

/-- Whether a date or a time starts here. -/
def startsDatetime : List Char → Bool
  | a :: b :: ':' :: _ => a.isDigit && b.isDigit
  | a :: b :: c :: d :: '-' :: _ => a.isDigit && b.isDigit && c.isDigit && d.isDigit
  | _ => false

/-- A boolean, a number or a date at the front. -/
def readPlain (cs : List Char) : Option (Toml × List Char) :=
  if startsDatetime cs then do
    let (text, rest) ← readDatetime? cs
    if rest.head?.any isScalarChar then none else some (.datetime text, rest)
  else
    let word := cs.takeWhile isScalarChar
    let rest := cs.drop word.length
    match word with
    | [] => none
    | ['t', 'r', 'u', 'e'] => some (.boolean true, rest)
    | ['f', 'a', 'l', 's', 'e'] => some (.boolean false, rest)
    | _ =>
      match readInteger? word with
      | some i => some (.integer i, rest)
      | none => (readFloat? word).map fun x => (x, rest)

end Toml

end SwiftTidy
