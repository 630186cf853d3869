import SwiftTidy.Parse.Error
import SwiftTidy.Text.CharClass.Numeric
import SwiftTidy.Tree.Element

/-!
# From text to tokens

The text is cut into tokens with the trivia they own: leading trivia runs from the end of the
previous token's trailing trivia up to the token, and trailing trivia stops before the first line
break.

Every scanner looks at the characters that are left and answers how many of them its lexeme
takes; the lexeme is then the front of that length, so whatever a scanner decides, nothing of the
text is lost.  A scanner that rejects its input says at which character.

An operator is classified by how it binds to its neighbours: bound on both sides or on neither it
is binary, otherwise it belongs to the side it touches.
-/

namespace SwiftTidy

namespace Lexer

/-- Why a scanner rejects its input, and at which character of it. -/
structure Rejection where
  cause : ParseError.Cause
  index : Nat
  deriving DecidableEq, Inhabited

/-- The text of the first `n` characters. -/
def front (n : Nat) (cs : List Char) : String := String.ofList (cs.take n)

/-- The number of bytes of a list of characters. -/
def byteLength : List Char → Nat
  | [] => 0
  | c :: cs => c.utf8Size + byteLength cs

/-! ### Trivia -/

/-- The characters of a whitespace piece. -/
def isHorizontal (c : Char) : Bool :=
  c == ' ' || c == '\t' || c == '\x0b' || c == '\x0c'

/-- The two characters that end a line. -/
def isLineEnd (c : Char) : Bool := c == '\n' || c == '\r'

/-- Whether a comment starts here. -/
def startsComment : List Char → Bool
  | '/' :: c :: _ => c == '/' || c == '*'
  | _ => false

/-- The length of what is left of a block comment in which `depth` openings wait for their end. -/
def blockCommentLength : Nat → List Char → Option Nat
  | 0, _ => some 0
  | depth + 1, '/' :: '*' :: cs => (blockCommentLength (depth + 2) cs).map (· + 2)
  | depth + 1, '*' :: '/' :: cs => (blockCommentLength depth cs).map (· + 2)
  | depth + 1, _ :: cs => (blockCommentLength (depth + 1) cs).map (· + 1)
  | _ + 1, [] => none

/-- The number of characters before the end of the line. -/
def lineLength (cs : List Char) : Nat := (cs.takeWhile (!isLineEnd ·)).length

/-- Three slashes open a documentation comment, four do not. -/
def lineCommentKind : List Char → TriviaKind
  | '/' :: '/' :: '/' :: '/' :: _ => .lineComment
  | '/' :: '/' :: '/' :: _ => .docLineComment
  | _ => .lineComment

/-- `/**` opens a documentation comment, unless the comment is `/**/`. -/
def blockCommentKind : List Char → TriviaKind
  | '/' :: '*' :: '*' :: '/' :: _ => .blockComment
  | '/' :: '*' :: '*' :: _ => .docBlockComment
  | _ => .blockComment

/-- The kind and length of the trivia piece at the front, if there is one.  Trailing trivia takes
no line breaks. -/
def triviaPiece? (trailing : Bool) : List Char → Except Rejection (Option (TriviaKind × Nat))
  | [] => .ok none
  | '\n' :: _ => .ok (if trailing then none else some (.newline, 1))
  | '\r' :: '\n' :: _ => .ok (if trailing then none else some (.newline, 2))
  | '\r' :: _ => .ok (if trailing then none else some (.newline, 1))
  | '/' :: '/' :: cs =>
    .ok (some (lineCommentKind ('/' :: '/' :: cs), lineLength cs + 2))
  | '/' :: '*' :: cs =>
    match blockCommentLength 1 cs with
    | some n => .ok (some (blockCommentKind ('/' :: '*' :: cs), n + 2))
    | none => .error ⟨.unterminatedComment, 0⟩
  | c :: cs =>
    if isHorizontal c then .ok (some (.whitespace, (cs.takeWhile isHorizontal).length + 1))
    else .ok none

/-- The trivia at byte `pos`, and the text behind it; `fuel` bounds the number of pieces. -/
def trivia (trailing : Bool) :
    (fuel pos : Nat) → List Char → Except ParseError (Trivia × List Char)
  | 0, _, cs => .ok ([], cs)
  | fuel + 1, pos, cs =>
    match triviaPiece? trailing cs with
    | .error r => .error ⟨pos + byteLength (cs.take r.index), r.cause⟩
    | .ok none => .ok ([], cs)
    | .ok (some (kind, n)) =>
      match trivia trailing fuel (pos + byteLength (cs.take n)) (cs.drop n) with
      | .error e => .error e
      | .ok (t, rest) => .ok (⟨kind, front n cs⟩ :: t, rest)

/-- A first line that starts with `#!` names an interpreter and counts as a comment. -/
def interpreterLine : List Char → Trivia × List Char
  | '#' :: '!' :: cs =>
    let n := lineLength cs + 2
    ([⟨.lineComment, front n ('#' :: '!' :: cs)⟩], cs.drop (lineLength cs))
  | cs => ([], cs)

/-! ### Operators -/

/-- The characters operators are made of. -/
def isOperatorChar (c : Char) : Bool :=
  c == '/' || c == '=' || c == '-' || c == '+' || c == '!' || c == '*' || c == '%' || c == '<' ||
  c == '>' || c == '&' || c == '|' || c == '^' || c == '~' || c == '?'

/-- The kind of an operator, from its text and the sides it is bound on. -/
def classifyOperator (text : String) (leftBound rightBound : Bool) : SyntaxKind :=
  if text == "->" then .arrow
  else if text == "=" then .equal
  else if text == "?" then if leftBound then .postfixQuestionMark else .infixQuestionMark
  else if text == "!" && leftBound then .exclamationMark
  else if leftBound == rightBound then .binaryOperator
  else if leftBound then .postfixOperator
  else .prefixOperator

/-- The characters behind which an operator is not bound to the left. -/
def isOpening (c : Char) : Bool :=
  c == '(' || c == '[' || c == '\x7b' || c == ',' || c == ';' || c == ':'

/-- Whether a token touches the token before it and is not kept apart from it by an opening
bracket or a separator. -/
def isLeftBound (previous : Option Token) (leading : Trivia) : Bool :=
  match previous with
  | none => false
  | some t =>
    leading.isEmpty && t.trailing.isEmpty && !(t.text.toList.getLast?.any isOpening)

/-- Whether an operator touches what follows it: neither the end, nor a space, tab or line break,
nor a closing bracket or separator, nor a comment. -/
def isRightBound : List Char → Bool
  | [] => false
  | c :: cs =>
    !(c == ' ' || c == '\t' || c == '\n' || c == '\r' || c == ')' || c == ']' || c == '\x7d' ||
      c == ',' || c == ';' || c == ':' || startsComment (c :: cs))

/-- The length of a run of operator characters; it ends where a comment starts. -/
def operatorRunLength : List Char → Nat
  | [] => 0
  | c :: cs =>
    if startsComment (c :: cs) || !isOperatorChar c then 0 else operatorRunLength cs + 1

/-- The length of an operator that starts with an operator character.  A `?` or `!` glued to what
is on its left is a marker by itself. -/
def operatorLength (leftBound : Bool) : List Char → Nat
  | [] => 0
  | c :: cs =>
    if (c == '?' || c == '!') && leftBound then 1 else operatorRunLength cs + 1

/-- The length of a range operator: a run of dots with an optional `<`. -/
def rangeOperatorLength (cs : List Char) : Nat :=
  let dots := (cs.takeWhile (· == '.')).length
  if (cs.drop dots).head? == some '<' then dots + 1 else dots

/-- An operator of `n` characters with its kind. -/
def operator (leftBound : Bool) (n : Nat) (cs : List Char) : SyntaxKind × Nat :=
  (classifyOperator (front n cs) leftBound (isRightBound (cs.drop n)), n)

/-! ### Names and numbers -/

/-- The characters a name goes on with. -/
def isNameChar (c : Char) : Bool := c == '_' || CharClass.isAlphanumeric c

/-- The length of the part of a name at the front. -/
def nameLength (cs : List Char) : Nat := (cs.takeWhile isNameChar).length

/-- The kind of a name: `_`, a reserved word or an identifier. -/
def nameKind (text : String) : SyntaxKind :=
  if text == "_" then .wildcard else (SyntaxKind.ofKeyword? text).getD .identifier

/-- The length of what is left of a number, and whether it has a fraction or an exponent.  A
fraction needs a digit behind its point; the exponent mark is `p` in hexadecimal numbers and `e`
in all others, and may be signed. -/
def numberRest (hex : Bool) : List Char → Nat × Bool
  | [] => (0, false)
  | '.' :: d :: cs =>
    if d.isDigit then
      let (n, _) := numberRest hex (d :: cs)
      (n + 1, true)
    else (0, false)
  | c :: s :: cs =>
    if c.isAlphanum || c == '_' then
      if if hex then c == 'p' || c == 'P' else c == 'e' || c == 'E' then
        if s == '+' || s == '-' then
          let (n, _) := numberRest hex cs
          (n + 2, true)
        else
          let (n, _) := numberRest hex (s :: cs)
          (n + 1, true)
      else
        let (n, float) := numberRest hex (s :: cs)
        (n + 1, float)
    else (0, false)
  | [c] =>
    if c.isAlphanum || c == '_' then
      (1, if hex then c == 'p' || c == 'P' else c == 'e' || c == 'E')
    else (0, false)

/-- A number with its kind. -/
def number (cs : List Char) : SyntaxKind × Nat :=
  let (n, float) := numberRest (['0', 'x'].isPrefixOf cs) cs
  (if float then .floatLiteral else .integerLiteral, n)

/-- The length of an identifier between backticks; it is not empty and does not cross a line
feed. -/
def escapedNameLength (cs : List Char) : Option Nat :=
  let body := cs.takeWhile fun c => !(c == '\x60' || c == '\n')
  match cs.drop body.length with
  | '\x60' :: _ => if body.isEmpty then none else some (body.length + 2)
  | _ => none

/-! ### String literals -/

/-- How a string literal is delimited: by one quote or three, and with how many `#`. -/
structure Delimiter where
  hashes : Nat
  multiline : Bool
  deriving DecidableEq, Inhabited

namespace Delimiter

/-- The quotes of the delimiter. -/
def quotes (d : Delimiter) : List Char := if d.multiline then ['"', '"', '"'] else ['"']

/-- What ends the literal. -/
def closing (d : Delimiter) : List Char := d.quotes ++ List.replicate d.hashes '#'

/-- What starts an escape. -/
def escape (d : Delimiter) : List Char := '\\' :: List.replicate d.hashes '#'

end Delimiter

/-- The delimiter that opens at the quote in front of `cs`, behind `hashes` marks. -/
def openingDelimiter (hashes : Nat) (cs : List Char) : Delimiter :=
  ⟨hashes, ['"', '"', '"'].isPrefixOf cs⟩

/-- The number of `#` in front, when a quote follows them. -/
def rawHashes? (cs : List Char) : Option Nat :=
  let hashes := (cs.takeWhile (· == '#')).length
  if (cs.drop hashes).head? == some '"' then some hashes else none

mutual
/-- From inside a literal that started at character `start`, now at character `i`: where it ends,
and the characters behind it.  A literal within a line ends with the line; escapes and
interpolations are stepped over whole. -/
def literalEnd (start : Nat) (d : Delimiter) :
    (fuel i : Nat) → List Char → Except Rejection (Nat × List Char)
  | 0, _, _ => .error ⟨.unterminatedString, start⟩
  | _ + 1, _, [] => .error ⟨.unterminatedString, start⟩
  | fuel + 1, i, c :: cs =>
    if d.closing.isPrefixOf (c :: cs) then
      .ok (i + d.closing.length, (c :: cs).drop d.closing.length)
    else if d.escape.isPrefixOf (c :: cs) then
      let j := i + d.escape.length
      match (c :: cs).drop d.escape.length with
      | [] => .error ⟨.unterminatedString, start⟩
      | '(' :: rest =>
        match interpolationEnd start fuel 0 j ('(' :: rest) with
        | .error r => .error r
        | .ok (k, rest) => literalEnd start d fuel k rest
      | _ :: rest => literalEnd start d fuel (j + 1) rest
    else if !d.multiline && isLineEnd c then .error ⟨.unterminatedString, start⟩
    else literalEnd start d fuel (i + 1) cs
/-- From inside an interpolation with `depth` open parentheses, at character `i`: where it ends,
and the characters behind it.  String literals inside are literals of their own. -/
def interpolationEnd (start : Nat) :
    (fuel depth i : Nat) → List Char → Except Rejection (Nat × List Char)
  | 0, _, _, _ => .error ⟨.unterminatedInterpolation, start⟩
  | _ + 1, _, _, [] => .error ⟨.unterminatedInterpolation, start⟩
  | fuel + 1, depth, i, c :: cs =>
    if c == '(' then interpolationEnd start fuel (depth + 1) (i + 1) cs
    else if c == ')' then
      if depth ≤ 1 then .ok (i + 1, cs) else interpolationEnd start fuel (depth - 1) (i + 1) cs
    else
      match rawHashes? (c :: cs) with
      | some hashes =>
        let d := openingDelimiter hashes ((c :: cs).drop hashes)
        let opening := hashes + d.quotes.length
        match literalEnd i d fuel (i + opening) ((c :: cs).drop opening) with
        | .error r => .error r
        | .ok (k, rest) => interpolationEnd start fuel depth k rest
      | none => interpolationEnd start fuel depth (i + 1) cs
end

/-- The length of the string literal at the front, which has `hashes` marks and then a quote. -/
def literalLength (fuel hashes : Nat) (cs : List Char) : Except Rejection Nat :=
  let d := openingDelimiter hashes (cs.drop hashes)
  let opening := hashes + d.quotes.length
  match literalEnd 0 d fuel opening (cs.drop opening) with
  | .error r => .error r
  | .ok (n, _) => .ok n

/-! ### Tokens -/

/-- The kind and length of the token at the front of a text that is not empty and starts with no
trivia. -/
def token (fuel : Nat) (leftBound : Bool) : List Char → Except Rejection (SyntaxKind × Nat)
  | [] => .ok (.endOfFile, 0)
  | '(' :: _ => .ok (.leftParen, 1)
  | ')' :: _ => .ok (.rightParen, 1)
  | '\x7b' :: _ => .ok (.leftBrace, 1)
  | '\x7d' :: _ => .ok (.rightBrace, 1)
  | '[' :: _ => .ok (.leftBracket, 1)
  | ']' :: _ => .ok (.rightBracket, 1)
  | ',' :: _ => .ok (.comma, 1)
  | ':' :: _ => .ok (.colon, 1)
  | ';' :: _ => .ok (.semicolon, 1)
  | '@' :: _ => .ok (.atSign, 1)
  | '.' :: '.' :: cs =>
    .ok (operator leftBound (rangeOperatorLength ('.' :: '.' :: cs)) ('.' :: '.' :: cs))
  | '.' :: _ => .ok (.period, 1)
  | '"' :: cs => (literalLength fuel 0 ('"' :: cs)).map fun n => (.stringLiteral, n)
  | '#' :: cs =>
    match rawHashes? ('#' :: cs) with
    | some hashes => (literalLength fuel hashes ('#' :: cs)).map fun n => (.stringLiteral, n)
    | none =>
      if nameLength cs = 0 then .error ⟨.poundWithoutName, 0⟩
      else .ok (.poundKeyword, nameLength cs + 1)
  | '\x60' :: cs =>
    match escapedNameLength cs with
    | some n => .ok (.identifier, n)
    | none => .error ⟨.unterminatedIdentifier, 0⟩
  | '$' :: cs => .ok (.dollarIdentifier, nameLength cs + 1)
  | c :: cs =>
    if c.isDigit then .ok (number (c :: cs))
    else if c == '_' || CharClass.isAlphabetic c then
      let n := nameLength cs + 1
      .ok (nameKind (front n (c :: cs)), n)
    else if isOperatorChar c then
      .ok (operator leftBound (operatorLength leftBound (c :: cs)) (c :: cs))
    else .error ⟨.unexpectedCharacter c, 0⟩

/-- The tokens of a text in order, and the end-of-file token that owns what trivia is left. -/
structure Tokens where
  pending : List Token
  endOfFile : Token
  deriving DecidableEq, Inhabited

/-- Cuts the text at byte `pos` into tokens, the first of them with `leading` in front.  Each step
takes at least one character, so `fuel` beyond the length of the text is never used up. -/
def tokensFrom : (fuel : Nat) → (previous : Option Token) → (leading : Trivia) → (pos : Nat) →
    List Char → Except ParseError Tokens
  | 0, _, _, pos, _ => .error ⟨pos, .tooDeep⟩
  | _ + 1, _, leading, _, [] => .ok ⟨[], ⟨.endOfFile, "", leading, []⟩⟩
  | fuel + 1, previous, leading, pos, c :: cs =>
    match token (fuel + 1) (isLeftBound previous leading) (c :: cs) with
    | .error r => .error ⟨pos + byteLength ((c :: cs).take r.index), r.cause⟩
    | .ok (kind, n) => do
      let stop := pos + byteLength ((c :: cs).take n)
      let (trailing, rest) ← trivia true fuel stop ((c :: cs).drop n)
      let next := stop + trailing.len
      let (leading', rest) ← trivia false fuel next rest
      let t : Token := ⟨kind, front n (c :: cs), leading, trailing⟩
      let ts ← tokensFrom fuel (some t) leading' (next + leading'.len) rest
      return ⟨t :: ts.pending, ts.endOfFile⟩

/-- Cuts a source into tokens. -/
def tokens (source : String) : Except ParseError Tokens := do
  let cs := source.toList
  let (line, rest) := interpreterLine cs
  let (t, rest) ← trivia false cs.length (Trivia.len line) rest
  tokensFrom (cs.length + 1) none (line ++ t) (Trivia.len (line ++ t)) rest

end Lexer

end SwiftTidy
