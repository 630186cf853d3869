/-!
# Why a source is rejected

A source that cannot be turned into a syntax tree is rejected at a byte offset, for one of a
closed list of causes.  The wording of every cause is in `ParseError.Cause.message`.
-/

namespace SwiftTidy

/-- The causes for which a source is rejected. -/
inductive ParseError.Cause where
  /-- Offsets are counted in 32 bits, and the source is too long for them. -/
  | tooLarge
  | unterminatedComment
  | unterminatedString
  | unterminatedInterpolation
  | unterminatedIdentifier
  /-- A `#` that starts neither a raw string nor a name. -/
  | poundWithoutName
  | unexpectedCharacter (c : Char)
  /-- A closing brace that no open block is waiting for. -/
  | unexpectedBrace
  | conditionalCompilation
  /-- Something else was due here than the lexeme `found`, or than the end of the file. -/
  | expected (what : String) (found : Option String)
  /-- The bound on nested productions was reached. -/
  | tooDeep
  deriving DecidableEq, Inhabited

/-- The wording of a cause. -/
def ParseError.Cause.message : ParseError.Cause → String
  | .tooLarge => "source files larger than 4 GiB are not supported"
  | .unterminatedComment => "unterminated block comment"
  | .unterminatedString => "unterminated string literal"
  | .unterminatedInterpolation => "unterminated string interpolation"
  | .unterminatedIdentifier => "unterminated escaped identifier"
  | .poundWithoutName => "expected identifier after `#`"
  | .unexpectedCharacter c => "unexpected character `" ++ toString c ++ "`"
  | .unexpectedBrace => "unexpected `\x7d`"
  | .conditionalCompilation => "conditional compilation blocks are not supported"
  | .expected what (some found) => "expected " ++ what ++ ", found `" ++ found ++ "`"
  | .expected what none => "expected " ++ what ++ ", found end of file"
  | .tooDeep => "source is nested too deeply"

/-- A rejected source: where, in bytes from its start, and why. -/
structure ParseError where
  offset : Nat
  cause : ParseError.Cause
  deriving DecidableEq, Inhabited

namespace ParseError

/-- The wording of the cause. -/
def message (e : ParseError) : String := e.cause.message

/-- The wording of the cause with the place it was found at. -/
def display (e : ParseError) : String :=
  e.message ++ " (at byte " ++ toString e.offset ++ ")"

end ParseError

end SwiftTidy
