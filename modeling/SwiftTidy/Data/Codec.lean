import SwiftTidy.Lint.Diagnostic
import SwiftTidy.Text.LineIndex

/-!
# Structured data

The values that other programs exchange with this one.  Each type has a written form and a reader for it.
-/

namespace SwiftTidy

/-- A structured value. -/
inductive Data where
  | null
  | boolean (b : Bool)
  | integer (i : Int)
  /-- A number that is not written as an integer. -/
  | fraction
  | string (s : String)
  | array (items : List Data)
  | object (fields : List (String × Data))
  deriving Inhabited

/-- Why a value could not be read. -/
inductive DataError where
  /-- It is not of the expected form, or out of range. -/
  | mismatch
  /-- It is a range whose end lies before its start. -/
  | invertedRange (start stop : Nat)
  deriving DecidableEq, Inhabited

/-- What is said about an error beyond its kind. -/
def DataError.message? : DataError → Option String
  | mismatch => none
  | invertedRange start stop => some s!"invalid range: {start} > {stop}"

namespace Data

/-- A natural number below a bound. -/
def natBelow (bound : Nat) : Data → Except DataError Nat
  | integer i => if 0 ≤ i && i < bound then .ok i.toNat else .error .mismatch
  | _ => .error .mismatch

/-- A field of an object. -/
def get (fields : List (String × Data)) (key : String) : Except DataError Data :=
  match fields.lookup key with
  | some v => .ok v
  | none => .error .mismatch

end Data

/-! ### Positions and severities -/

namespace Data

/-- An offset is a number. -/
def ofOffset (n : Nat) : Data := .integer n

/-- Reads an offset. -/
def readOffset (v : Data) : Except DataError Nat := v.natBelow Offset.limit

/-- A range is a pair of its ends. -/
def ofRange (r : TextRange) : Data := .array [ofOffset r.start, ofOffset r.stop]

/-- Reads a range. -/
def readRange : Data → Except DataError TextRange
  | .array [a, b] => do
    let start ← readOffset a
    let stop ← readOffset b
    if h : start ≤ stop then .ok ⟨start, stop, h⟩ else .error (.invertedRange start stop)
  | _ => .error .mismatch

/-- A number counted from one is a number. -/
def ofOneIndexed (i : OneIndexed) : Data := .integer i.val

/-- Reads a number counted from one. -/
def readOneIndexed (v : Data) : Except DataError OneIndexed := do
  match OneIndexed.ofNat? (← v.natBelow (OneIndexed.greatest + 1)) with
  | some i => .ok i
  | none => .error .mismatch

/-- A location is an object with a line and a column. -/
def ofLocation (l : SourceLocation) : Data :=
  .object [("line", ofOneIndexed l.line), ("column", ofOneIndexed l.column)]

/-- Reads a location; a pair will do, and other fields do not matter. -/
def readLocation : Data → Except DataError SourceLocation
  | .object fields => do
    return ⟨← readOneIndexed (← get fields "line"), ← readOneIndexed (← get fields "column")⟩
  | .array [line, column] => do
    return ⟨← readOneIndexed line, ← readOneIndexed column⟩
  | _ => .error .mismatch

/-- A severity is its word. -/
def ofSeverity (s : Severity) : Data := .string s.word

/-- The severity with a given word. -/
def severityOfWord (s : String) : Except DataError Severity :=
  match Severity.ofWord? s with
  | some s => .ok s
  | none => .error .mismatch

/-- Reads a severity: its word, or an object that holds nothing under its word alone. -/
def readSeverity : Data → Except DataError Severity
  | .string s => severityOfWord s
  | .object [(s, .null)] => severityOfWord s
  | _ => .error .mismatch

end Data

end SwiftTidy
