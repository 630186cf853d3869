/-!
# Offsets

A position in a source is a number of bytes counted in 32 bits.  Arithmetic that leaves this
range does not wrap: it is a `Fault`, and so is every other step that a well-formed computation
on positions never takes.

Offsets count bytes and text is made of characters, so a cut can fail in two ways: beyond the end
of the text, or inside a character.
-/

namespace SwiftTidy

/-- What stops a computation on positions. -/
inductive Fault where
  /-- A sum beyond 32 bits, or a difference below zero. -/
  | overflow
  /-- A range whose end lies before its start. -/
  | invertedRange
  /-- A position beyond the end of the text. -/
  | outOfBounds
  /-- A position inside a character. -/
  | offBoundary
  /-- A child that a node does not have. -/
  | missingChild
  /-- A rule that gave up on its own. -/
  | broken
  deriving DecidableEq, Inhabited

namespace Offset

/-- Offsets are below this bound. -/
def limit : Nat := 0x100000000

/-- The offset with the given value, if 32 bits hold it. -/
def ofNat? (n : Nat) : Option Nat := if n < limit then some n else none

/-- The sum of two offsets. -/
def add (a b : Nat) : Except Fault Nat :=
  if a + b < limit then .ok (a + b) else .error .overflow

/-- The distance from `b` up to `a`. -/
def sub (a b : Nat) : Except Fault Nat :=
  if b ≤ a then .ok (a - b) else .error .overflow

/-- The sum of two offsets, if 32 bits hold it. -/
def checkedAdd (a b : Nat) : Option Nat := (add a b).toOption

/-- The distance from `b` up to `a`, if `a` is not before `b`. -/
def checkedSub (a b : Nat) : Option Nat := (sub a b).toOption

/-- The distance from `b` up to `a`; zero if `a` is before `b`. -/
def saturatingSub (a b : Nat) : Nat := a - b

/-- The sum of a list of offsets, added from the left. -/
def sum (as : List Nat) : Except Fault Nat := as.foldlM add 0

end Offset

/-- A half-open range of bytes: the start belongs to it, the end does not. -/
structure TextRange where
  start : Nat
  stop : Nat
  start_le_stop : start ≤ stop := by omega
  deriving DecidableEq

namespace TextRange

instance : Inhabited TextRange := ⟨⟨0, 0, Nat.le_refl 0⟩⟩

/-- The range between two offsets; the end must not lie before the start. -/
def between (start stop : Nat) : Except Fault TextRange :=
  if h : start ≤ stop then .ok ⟨start, stop, h⟩ else .error .invertedRange

/-- The range of the given length at an offset. -/
def ofLength (start len : Nat) : Except Fault TextRange := do
  between start (← Offset.add start len)

/-- The empty range at an offset. -/
def empty (offset : Nat) : TextRange := ⟨offset, offset, Nat.le_refl _⟩

/-- The range from the start of the text up to an offset. -/
def upTo (stop : Nat) : TextRange := ⟨0, stop, Nat.zero_le _⟩

/-- The number of bytes of the range. -/
def len (r : TextRange) : Nat := r.stop - r.start

/-- Whether the range holds no byte. -/
def isEmpty (r : TextRange) : Bool := r.start == r.stop

/-- Whether the byte at an offset belongs to the range. -/
def contains (r : TextRange) (offset : Nat) : Bool := r.start ≤ offset && offset < r.stop

/-- Whether an offset lies inside the range or at its end. -/
def containsInclusive (r : TextRange) (offset : Nat) : Bool :=
  r.start ≤ offset && offset ≤ r.stop

/-- Whether `q` lies within `r`. -/
def containsRange (r q : TextRange) : Bool := r.start ≤ q.start && q.stop ≤ r.stop

/-- The common part of two ranges that touch or overlap. -/
def intersect (r q : TextRange) : Option TextRange :=
  (between (max r.start q.start) (min r.stop q.stop)).toOption

/-- The smallest range that contains both ranges. -/
def cover (r q : TextRange) : TextRange :=
  ⟨min r.start q.start, max r.stop q.stop, by have := r.start_le_stop; omega⟩

/-- The range with its start moved to the right. -/
def addStart (r : TextRange) (amount : Nat) : Except Fault TextRange := do
  between (← Offset.add r.start amount) r.stop

/-- The range with its end moved to the left. -/
def subEnd (r : TextRange) (amount : Nat) : Except Fault TextRange := do
  between r.start (← Offset.sub r.stop amount)

/-- The printed form of a range: its two offsets with two dots between them. -/
def display (r : TextRange) : String := toString r.start ++ ".." ++ toString r.stop

end TextRange

/-! ### Cutting text at byte offsets -/

namespace Text

/-- Cuts a list of characters after `n` bytes. -/
def splitBytes : (n : Nat) → List Char → Except Fault (List Char × List Char)
  | 0, cs => .ok ([], cs)
  | _ + 1, [] => .error .outOfBounds
  | n + 1, c :: cs =>
    if c.utf8Size ≤ n + 1 then
      match splitBytes (n + 1 - c.utf8Size) cs with
      | .error f => .error f
      | .ok (front, rest) => .ok (c :: front, rest)
    else .error .offBoundary

/-- The characters of a range of bytes. -/
def sliceChars (cs : List Char) (r : TextRange) : Except Fault (List Char) := do
  let (_, rest) ← splitBytes r.start cs
  let (piece, _) ← splitBytes r.len rest
  return piece

/-- The text of a range of bytes. -/
def slice (text : String) (r : TextRange) : Except Fault String :=
  (sliceChars text.toList r).map String.ofList

/-- The text with the letters of a range of bytes in ASCII upper case. -/
def upperSlice (text : String) (r : TextRange) : Except Fault String := do
  let (before, rest) ← splitBytes r.start text.toList
  let (piece, after) ← splitBytes r.len rest
  return String.ofList (before ++ piece.map Char.toUpper ++ after)

/-- Whether an offset is the start of a character or the end of the text. -/
def isBoundary (text : String) (offset : Nat) : Bool :=
  (splitBytes offset text.toList).isOk

end Text

end SwiftTidy
