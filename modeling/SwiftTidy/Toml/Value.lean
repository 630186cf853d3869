/-!
# TOML values

The values of a TOML document.  Tables keep their entries in increasing order of the keys, so
that "the first unknown key" of a table is well defined.
-/

namespace SwiftTidy

/-- A TOML value. -/
inductive Toml where
  | string (s : String)
  | integer (i : Int)
  /-- A floating-point number, by its 64 bits. -/
  | float (bits : UInt64)
  /-- A floating-point number that is too large for 64 bits.  It may stand in a document where
  nothing reads it. -/
  | hugeFloat
  | boolean (b : Bool)
  /-- A date, a time or both, in normal form. -/
  | datetime (text : String)
  | array (items : List Toml)
  | table (entries : List (String × Toml))
  deriving Inhabited

namespace Toml

/-- The text of a string. -/
def string? : Toml → Option String
  | string s => some s
  | _ => none

/-- The value of an integer. -/
def integer? : Toml → Option Int
  | integer i => some i
  | _ => none

/-- The value of an integer from zero on that fits into 64 bits. -/
def natural? (v : Toml) : Option Nat :=
  v.integer?.bind fun i => if 0 ≤ i && i < 0x10000000000000000 then some i.toNat else none

/-- The value of a boolean. -/
def boolean? : Toml → Option Bool
  | boolean b => some b
  | _ => none

/-- The items of an array. -/
def array? : Toml → Option (List Toml)
  | array xs => some xs
  | _ => none

/-- The entries of a table. -/
def table? : Toml → Option (List (String × Toml))
  | table es => some es
  | _ => none

end Toml

end SwiftTidy
