import SwiftTidy.Toml.Document

/-!
# Plain values

A document may say more than a program takes from it: its integers have any size, and a date may
be written as a table with its text.  Plain values are what the options of rules are made of:
their integers fit into 64 bits with a sign, and dates stand for themselves.
-/

namespace SwiftTidy

namespace Toml

/-- The key of the text of a date or time that is written as a table. -/
def datetimeKey : String := "$__toml_private_datetime"

/-- The entries of a table, or of the table that a date or time is written as. -/
def entries? : Toml → Option (List (String × Toml))
  | table es => some es
  | datetime text => some [(datetimeKey, .string text)]
  | _ => none

/-- Whether 64 bits with a sign hold an integer. -/
def isInt64 (i : Int) : Bool := -0x8000000000000000 ≤ i && i < 0x8000000000000000

/-- The date or time that a table is written for, if `datetimeKey` is its first key: the text under
it must be one, and what stands under other keys does not matter. -/
def tableDatetime? : List (String × Toml) → Option (Option Toml)
  | [] => none
  | (k, v) :: _ =>
    if k == datetimeKey then some ((v.string?.bind datetimeOf?).map .datetime) else none

mutual
/-- The plain value of what a document says. -/
def plain? : Toml → Option Toml
  | string s => some (.string s)
  | integer i => if isInt64 i then some (.integer i) else none
  | float bits => some (.float bits)
  | hugeFloat => none
  | boolean b => some (.boolean b)
  | datetime text => some (.datetime text)
  | array xs => (plainAll? xs).map .array
  | table es =>
    match tableDatetime? es with
    | some date => date
    | none => (plainEntries? es).map .table
/-- The plain values of a list of values. -/
def plainAll? : List Toml → Option (List Toml)
  | [] => some []
  | x :: xs => do return (← plain? x) :: (← plainAll? xs)
/-- The entries of a table with plain values. -/
def plainEntries? : List (String × Toml) → Option (List (String × Toml))
  | [] => some []
  | (k, x) :: es => do return (k, ← plain? x) :: (← plainEntries? es)
end

/-- Whether 128 bits hold an integer, with a sign or without. -/
def isInt128 (i : Int) : Bool :=
  -0x80000000000000000000000000000000 ≤ i && i < 0x100000000000000000000000000000000

mutual
/-- Whether a value that nothing is taken from can be passed over: no number in it is too large for
any word. -/
def isReadable : Toml → Bool
  | integer i => isInt128 i
  | hugeFloat => false
  | array xs => areReadable xs
  | table es => entriesReadable es
  | string _ => true
  | float _ => true
  | boolean _ => true
  | datetime _ => true
/-- Whether every value of a list can be passed over. -/
def areReadable : List Toml → Bool
  | [] => true
  | x :: xs => isReadable x && areReadable xs
/-- Whether every value under a key can be passed over. -/
def entriesReadable : List (String × Toml) → Bool
  | [] => true
  | (_, x) :: es => isReadable x && entriesReadable es
end

/-- Reads a document of plain values. -/
def parseTable? (text : String) : Option (List (String × Toml)) :=
  (parse? text).bind plainEntries?

/-- Reads the text of a plain value. -/
def parseValue? (text : String) : Option Toml :=
  (parseTable? ("v = " ++ text)).bind (·.lookup "v")

end Toml

end SwiftTidy
