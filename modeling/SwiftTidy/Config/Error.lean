/-!
# Configuration errors
-/

namespace SwiftTidy

/-- What can be wrong with a configuration. -/
inductive ConfigError where
  /-- An option that the rule does not have. -/
  | unknownKey (rule key : String)
  /-- An option with a value of the wrong type. -/
  | invalidType (rule key expected : String)
  /-- An option with a value of the right type that is not allowed. -/
  | invalidValue (rule key value : String)
  /-- Options that set nothing. -/
  | nothingApplied (rule : String)
  /-- A name that no rule is known under. -/
  | unknownRule (name : String)
  /-- A text that is no configuration at all. -/
  | malformed
  /-- A file that cannot be read. -/
  | unreadable (cause : String)
  deriving DecidableEq, Inhabited

namespace ConfigError

/-- The name of the kind of error. -/
def kind : ConfigError → String
  | unknownKey _ _ => "UnknownKey"
  | invalidType _ _ _ => "InvalidType"
  | invalidValue _ _ _ => "InvalidValue"
  | nothingApplied _ => "NothingApplied"
  | unknownRule _ => "UnknownRule"
  | malformed => "Toml"
  | unreadable _ => "Io"

/-- What is said about the error. -/
def message : ConfigError → String
  | unknownKey rule key => s!"rule `{rule}`: unknown option `{key}`"
  | invalidType rule key expected => s!"rule `{rule}`: option `{key}` expects {expected}"
  | invalidValue rule key value => s!"rule `{rule}`: invalid value `{value}` for option `{key}`"
  | nothingApplied rule => s!"rule `{rule}`: configuration does not set any option"
  | unknownRule name => s!"unknown rule `{name}`"
  | malformed => "failed to parse TOML: TOML parse error"
  | unreadable cause => s!"failed to read config file: {cause}"

end ConfigError

end SwiftTidy
