import SwiftTidy.Config.Error
import SwiftTidy.Lint.Diagnostic
import SwiftTidy.Toml.Value

/-!
# Limits with severities

A rule that measures something reports a warning beyond one limit and, if there is a second one,
an error beyond that.  Limits are numbers of 32 bits.
-/

namespace SwiftTidy

/-- The limits of a rule that measures something. -/
structure SeverityLevels where
  warning : Nat
  error : Option Nat
  deriving DecidableEq, Inhabited

namespace SeverityLevels

/-- The limits of a rule that says nothing else. -/
def standard : SeverityLevels := ⟨1, none⟩

/-- The limit that a value is above, and how serious that is. -/
def exceededBy (l : SeverityLevels) (value : Nat) : Option (Severity × Nat) :=
  let asWarning := if l.warning < value then some (.warning, l.warning) else none
  match l.error with
  | some limit => if limit < value then some (.error, limit) else asWarning
  | none => asWarning

/-- The limit that a value is below, and how serious that is. -/
def undercutBy (l : SeverityLevels) (value : Nat) : Option (Severity × Nat) :=
  let asWarning := if value < l.warning then some (.warning, l.warning) else none
  match l.error with
  | some limit => if value < limit then some (.error, limit) else asWarning
  | none => asWarning

/-- Reads a limit. -/
def readLimit (rule key : String) (v : Toml) : Except ConfigError Nat :=
  match v.integer? with
  | none => .error (.invalidType rule key "an integer")
  | some i =>
    if 0 ≤ i && i < 0x100000000 then .ok i.toNat
    else .error (.invalidValue rule key (toString i))

/-- Sets the limits that the entries of a table name, one after another up to the first that is
not in order. -/
def applyEntries (rule : String) (l : SeverityLevels) :
    List (String × Toml) → SeverityLevels × Option ConfigError
  | [] => (l, none)
  | (name, v) :: es =>
    if name == "warning" then
      match readLimit rule name v with
      | .ok n => applyEntries rule { l with warning := n } es
      | .error e => (l, some e)
    else if name == "error" then
      match readLimit rule name v with
      | .ok n => applyEntries rule { l with error := some n } es
      | .error e => (l, some e)
    else (l, some (.unknownKey rule name))

/-- Sets the limits from an option: one number, an array of a warning and an error limit, or a
table that names them.  What was set before an error stays set. -/
def apply (l : SeverityLevels) (rule key : String) (v : Toml) :
    SeverityLevels × Option ConfigError :=
  match v with
  | .integer _ =>
    match readLimit rule key v with
    | .ok n => (⟨n, none⟩, none)
    | .error e => (l, some e)
  | .array [] => (l, some (.nothingApplied rule))
  | .array (x :: xs) =>
    match readLimit rule key x with
    | .error e => (l, some e)
    | .ok n =>
      match xs.head?.map (readLimit rule key) with
      | none => (⟨n, none⟩, none)
      | some (.ok m) => (⟨n, some m⟩, none)
      | some (.error e) => ({ l with warning := n }, some e)
  | .table [] => (l, some (.nothingApplied rule))
  | .table (x :: xs) => applyEntries rule l (x :: xs)
  | _ => (l, some (.nothingApplied rule))

end SeverityLevels

end SwiftTidy
