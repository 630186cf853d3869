import SwiftTidy.Text.Offset

/-!
# Lines and columns

Lines and columns are counted from one, and columns count characters.  A line ends with LF, CR LF
or a lone CR, and the terminator belongs to the line; a terminator at the end of the text starts
one more line, which is empty.
-/

namespace SwiftTidy

/-- A number counted from one, in 64 bits. -/
structure OneIndexed where
  val : Nat
  pos : 0 < val := by omega
  deriving DecidableEq

namespace OneIndexed

/-- The greatest value. -/
def greatest : Nat := 0xffffffffffffffff

/-- One. -/
def one : OneIndexed := ⟨1, Nat.one_pos⟩

instance : Inhabited OneIndexed := ⟨one⟩

/-- The number with the given value; there is none for zero. -/
def ofNat? (n : Nat) : Option OneIndexed := if h : 0 < n then some ⟨n, h⟩ else none

/-- The number of the item with `n` items before it; it stops at the greatest value. -/
def ofZeroBased (n : Nat) : OneIndexed :=
  ⟨min (n + 1) greatest, by unfold greatest; omega⟩

/-- The number of items before this one. -/
def toZeroBased (i : OneIndexed) : Nat := i.val - 1

/-- The sum, which stops at the greatest value. -/
def saturatingAdd (i : OneIndexed) (n : Nat) : OneIndexed :=
  ⟨max 1 (min (i.val + n) greatest), by omega⟩

/-- The difference, which stops at one. -/
def saturatingSub (i : OneIndexed) (n : Nat) : OneIndexed := ⟨max 1 (i.val - n), by omega⟩

end OneIndexed

/-- A line and a column. -/
structure SourceLocation where
  line : OneIndexed
  column : OneIndexed
  deriving DecidableEq, Inhabited

/-- The printed form of a location. -/
def SourceLocation.display (l : SourceLocation) : String :=
  toString l.line.val ++ ":" ++ toString l.column.val

/-- A text with the offsets at which its lines start. -/
structure LineIndex where
  text : String
  starts : List Nat
  /-- Every character is one byte, so that columns are distances in bytes. -/
  ascii : Bool
  deriving DecidableEq, Inhabited

namespace LineIndex

/-- The starts of the lines behind the first, in a text of which `pos` bytes were passed. -/
def startsFrom : (pos : Nat) → List Char → List Nat
  | _, [] => []
  | pos, '\r' :: '\n' :: cs => (pos + 2) :: startsFrom (pos + 2) cs
  | pos, c :: cs =>
    let next := pos + c.utf8Size
    if c == '\n' || c == '\r' then next :: startsFrom next cs else startsFrom next cs

/-- The index of a text. -/
def ofText (text : String) : LineIndex :=
  let cs := text.toList
  ⟨text, 0 :: startsFrom 0 cs, cs.all fun c => c.toNat < 0x80⟩

/-- The length of the text. -/
def len (ix : LineIndex) : Nat := ix.text.utf8ByteSize

/-- The number of lines. -/
def lineCount (ix : LineIndex) : Nat := ix.starts.length

/-- The line an offset is on: the last line that does not start behind it. -/
def lineOf (ix : LineIndex) (offset : Nat) : OneIndexed :=
  OneIndexed.ofZeroBased (ix.starts.countP (· ≤ offset) - 1)

/-- Where a line starts; a line that does not exist starts at the end of the text. -/
def lineStart (ix : LineIndex) (line : OneIndexed) : Nat :=
  ix.starts.getD line.toZeroBased ix.len

/-- Where a line ends, its terminator included. -/
def lineEnd (ix : LineIndex) (line : OneIndexed) : Nat :=
  ix.starts.getD line.val ix.len

/-- The range of a line, its terminator included. -/
def lineRange (ix : LineIndex) (line : OneIndexed) : Except Fault TextRange :=
  TextRange.between (ix.lineStart line) (ix.lineEnd line)

/-- The text of a line without its terminator. -/
def lineText (ix : LineIndex) (line : OneIndexed) : Except Fault String := do
  let cs ← Text.sliceChars ix.text.toList (← ix.lineRange line)
  return String.ofList (cs.reverse.dropWhile fun c => c == '\n' || c == '\r').reverse

/-- The range of a line without its terminator. -/
def contentRange (ix : LineIndex) (line : OneIndexed) : Except Fault TextRange := do
  TextRange.ofLength (ix.lineStart line) (← ix.lineText line).utf8ByteSize

/-- The location of an offset; there is none beyond the end or inside a character. -/
def location? (ix : LineIndex) (offset : Nat) : Option SourceLocation :=
  if ix.len < offset then none
  else
    let line := ix.lineOf offset
    let start := ix.lineStart line
    let column? : Option Nat :=
      if ix.ascii then some (offset - start)
      else
        match Text.splitBytes start ix.text.toList with
        | .error _ => none
        | .ok (_, rest) =>
          match Text.splitBytes (offset - start) rest with
          | .error _ => none
          | .ok (front, _) => some front.length
    column?.map fun n => ⟨line, OneIndexed.ofZeroBased n⟩

/-- The location of an offset.  An offset beyond the end counts as the end, and one inside a
character as the first column of its line. -/
def location (ix : LineIndex) (offset : Nat) : SourceLocation :=
  let clamped := min offset ix.len
  (ix.location? clamped).getD ⟨ix.lineOf clamped, OneIndexed.one⟩

/-- The offset of a location; there is none on a line that does not exist, and a column beyond
the end of a line counts as its end. -/
def offset? (ix : LineIndex) (line column : OneIndexed) : Option Nat :=
  if ix.lineCount ≤ line.toZeroBased then none
  else
    match ix.lineText line with
    | .error _ => none
    | .ok content =>
      let n := column.toZeroBased
      let within :=
        if ix.ascii then min n content.utf8ByteSize
        else (String.ofList (content.toList.take n)).utf8ByteSize
      some (ix.lineStart line + within)

end LineIndex

end SwiftTidy
