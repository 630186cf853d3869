import SwiftTidy.Config.Levels

/-!
# Options of rules

The options of a rule are a table.  A rule reads those it knows, each with a value to keep when the
option is not there, and in the end no option may be left that it did not read.
-/

namespace SwiftTidy

/-- Reads a severity. -/
def readSeverity (rule key : String) (v : Toml) : Except ConfigError Severity :=
  match v.string? with
  | none => .error (.invalidType rule key "`warning` or `error`")
  | some text =>
    match Severity.ofWord? text with
    | some s => .ok s
    | none => .error (.invalidValue rule key text)

/-- The options of a rule, with the keys that were read. -/
structure OptionTable where
  rule : String
  entries : List (String × Toml)
  consumed : List String

namespace OptionTable

/-- The options in a value, which must be a table. -/
def ofValue (rule : String) (v : Toml) : Except ConfigError OptionTable :=
  match v.table? with
  | some es => .ok ⟨rule, es, []⟩
  | none => .error (.invalidType rule "configuration" "a table")

/-- The value of an option, which counts as read from now on. -/
def get? (t : OptionTable) (key : String) : Option Toml × OptionTable :=
  match t.entries.lookup key with
  | none => (none, t)
  | some v => (some v, { t with consumed := key :: t.consumed })

/-- The first option that was not read. -/
def unread? (t : OptionTable) : Option String :=
  (t.entries.map (·.1)).find? (!t.consumed.contains ·)

/-- Ends the reading: the first option that was not read is unknown. -/
def finish (t : OptionTable) : Except ConfigError Unit :=
  match t.unread? with
  | none => .ok ()
  | some key => .error (.unknownKey t.rule key)

end OptionTable

/-- What is read from the options of a rule. -/
abbrev OptionReader := StateT OptionTable (Except ConfigError)

namespace OptionReader

/-- Reads an option with `decode`; `start` is its value when it is not there. -/
def read {α : Type} (key : String) (start : α)
    (decode : (rule : String) → Toml → Except ConfigError α) : OptionReader α := fun t =>
  match t.get? key with
  | (none, t') => .ok (start, t')
  | (some v, t') => (decode t.rule v).map (·, t')

/-- Reads a boolean. -/
def boolean (key : String) (start : Bool) : OptionReader Bool :=
  read key start fun rule v =>
    match v.boolean? with
    | some b => .ok b
    | none => .error (.invalidType rule key "a boolean")

/-- Reads a number. -/
def number (key : String) (start : Nat) : OptionReader Nat :=
  read key start fun rule v => SeverityLevels.readLimit rule key v

/-- Reads a number that may be left open. -/
def optionalNumber (key : String) (start : Option Nat) : OptionReader (Option Nat) :=
  read key start fun rule v => (SeverityLevels.readLimit rule key v).map some

/-- Reads a list of texts. -/
def strings (key : String) (start : List String) : OptionReader (List String) :=
  read key start fun rule v =>
    match v.array?.bind (·.mapM Toml.string?) with
    | some xs => .ok xs
    | none => .error (.invalidType rule key "a list of strings")

/-- Reads a severity. -/
def severity (key : String) (start : Severity) : OptionReader Severity :=
  read key start fun rule v => readSeverity rule key v

/-- Reads a severity that can be switched off with `false`, and on again with `true`. -/
def optionalSeverity (key : String) (start : Option Severity) : OptionReader (Option Severity) :=
  read key start fun rule v =>
    match v with
    | .boolean false => .ok none
    | .boolean true => .ok (some (start.getD .error))
    | v => (readSeverity rule key v).map some

/-- Reads limits. -/
def levels (key : String) (start : SeverityLevels) : OptionReader SeverityLevels :=
  read key start fun rule v =>
    match start.apply rule key v with
    | (l, none) => .ok l
    | (_, some e) => .error e

/-- Reads all options of a rule from a value. -/
def run {α : Type} (r : OptionReader α) (rule : String) (v : Toml) : Except ConfigError α := do
  let (a, t) ← StateT.run r (← OptionTable.ofValue rule v)
  t.finish
  return a

/-- What a rule takes from its options; `start` is taken when there are none. -/
def configure {α : Type} (r : OptionReader α) (rule : String) (start : α) :
    Option Toml → Except ConfigError α
  | none => .ok start
  | some v => r.run rule v

end OptionReader

/-- The options of a rule that has only a severity: its word, or a table with it.  What was set
before an error stays set. -/
def applySeverity (start : Severity) (rule : String) (v : Toml) :
    Severity × Option ConfigError :=
  match v with
  | .string _ =>
    match readSeverity rule "severity" v with
    | .ok s => (s, none)
    | .error e => (start, some e)
  | v =>
    match OptionTable.ofValue rule v with
    | .error e => (start, some e)
    | .ok t =>
      match StateT.run (OptionReader.severity "severity" start) t with
      | .error e => (start, some e)
      | .ok (s, t') =>
        match t'.finish with
        | .ok () => (s, none)
        | .error e => (s, some e)

/-- The severity that a rule without other options takes from its options. -/
def configureSeverity (rule : String) (options : Option Toml) : Except ConfigError Severity :=
  match options with
  | none => .ok .warning
  | some v =>
    match applySeverity .warning rule v with
    | (s, none) => .ok s
    | (_, some e) => .error e

end SwiftTidy
