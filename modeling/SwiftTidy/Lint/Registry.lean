import SwiftTidy.Config.Settings
import SwiftTidy.Lint.Rule

/-!
# Registry of rules

The rules that can be run, each known under its current name and under its earlier ones.  A registry
keeps two tables: the rules by their current names, and the current name for every name.  A rule is
added only if none of its names is in the second one.
-/

namespace SwiftTidy

/-- Inserts a text into an increasing list without repetition. -/
def insertSorted (s : String) : List String → List String
  | [] => [s]
  | t :: ts => if s < t then s :: t :: ts else if s == t then t :: ts else t :: insertSorted s ts

/-- Texts in increasing order without repetition. -/
def sortedSet (ss : List String) : List String := ss.foldl (fun acc s => insertSorted s acc) []

/-- The rules that can be run. -/
structure Registry where
  /-- The rules by their current names. -/
  rules : KeyTable RuleEntry
  /-- For every name under which a rule is known its current name. -/
  currentNames : KeyTable String

namespace Registry

/-- No rule at all. -/
def empty : Registry := ⟨.empty, .empty⟩

/-- The rules in increasing order of their current names. -/
def entries (r : Registry) : List RuleEntry := r.rules.entries.map (·.2)

/-- The rule with a current name. -/
def rule? (r : Registry) (id : String) : Option RuleEntry := r.rules.lookup? id

/-- The current name of the rule known under a name. -/
def resolve? (r : Registry) (name : String) : Option String := r.currentNames.lookup? name

/-- The rule known under a name. -/
def find? (r : Registry) (name : String) : Option RuleEntry := (r.resolve? name).bind r.rule?

/-- Whether a rule is known under a name. -/
def contains (r : Registry) (name : String) : Bool := (r.resolve? name).isSome

/-- Every name under which a rule is known, in increasing order. -/
def names (r : Registry) : List String := r.currentNames.entries.map (·.1)

/-- Puts a rule under its current name, and this name under each of its names. -/
def insert (r : Registry) (e : RuleEntry) : Registry :=
  ⟨r.rules.set e.identifier e,
   e.description.identifiers.foldl (fun t name => t.set name e.identifier) r.currentNames⟩

/-- Adds a rule; the error is the first of its names that is taken. -/
def add (e : RuleEntry) : ExceptT String (StateM Registry) Unit := do
  match e.description.identifiers.find? (← get).contains with
  | some taken => throw taken
  | none => modify (·.insert e)

/-- Tries to add rules one after the other, and answers for each of them. -/
def addAll (es : List RuleEntry) : StateM Registry (List (Except String Unit)) :=
  es.mapM fun e => (add e).run

/-- The registry with one more rule, unless one of its names is taken. -/
def register (r : Registry) (e : RuleEntry) : Except String Registry :=
  match (add e).run.run r with
  | (.ok _, r) => .ok r
  | (.error taken, _) => .error taken

/-- What is said about a name that is taken. -/
def takenMessage (name : String) : String := s!"rule identifier `{name}` is already registered"

/-- The registry of some rules; one with a name that is taken is left out. -/
def ofList (es : List RuleEntry) : Registry := ((addAll es).run empty).2

/-- The current name of the rule known under a name, which must exist. -/
def resolve (r : Registry) (name : String) : Except ConfigError String :=
  match r.resolve? name with
  | some id => .ok id
  | none => .error (.unknownRule name)

/-- The rule with a current name, with the given options. -/
def build (r : Registry) (id : String) (options : Option Toml) : Except ConfigError Rule :=
  match r.rule? id with
  | some e => e.create options
  | none => .error (.unknownRule id)

/-- The rule known under a name, with the given options. -/
def create (r : Registry) (name : String) (options : Option Toml) : Except ConfigError Rule := do
  r.build (← r.resolve name) options

/-- The options of the rules by their current names.  Of several for one rule the last count. -/
def resolveOptions (r : Registry) : List (String × Toml) → Except ConfigError (List (String × Toml))
  | [] => .ok []
  | (name, v) :: rest => do
    let id ← r.resolve name
    let later ← r.resolveOptions rest
    return if later.any (·.1 == id) then later else (id, v) :: later

/-- The current names of the rules that run: those that are asked for alone, or else the common
ones and those that are asked for, without the disabled ones. -/
def selected (r : Registry) (disabled optIn : List String) (only : Option (List String)) :
    List String :=
  match only with
  | some only => sortedSet only
  | none =>
    let common := (r.rules.entries.filter (!·.2.description.optIn)).map (·.1)
    sortedSet ((common ++ optIn).filter (!disabled.contains ·))

/-- The current names of the rules that run under some settings, in increasing order, with their
options.  Every rule that the settings name must exist, whether it runs or not. -/
def selection (r : Registry) (s : Settings) :
    Except ConfigError (List (String × Option Toml)) := do
  let disabled ← s.disabledRules.mapM r.resolve
  let optIn ← s.optInRules.mapM r.resolve
  let only ← s.onlyRules.mapM fun names => names.mapM r.resolve
  let options ← r.resolveOptions s.rules
  return (r.selected disabled optIn only).map fun id => (id, options.lookup id)

/-- The rules that run under some settings. -/
def activeRules (r : Registry) (s : Settings) : Except ConfigError (List Rule) := do
  (← r.selection s).mapM fun p => r.build p.1 p.2

end Registry

end SwiftTidy
