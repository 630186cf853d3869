import SwiftTidy.Text.CharClass.Visible

/-!
# Quoted text

Text between double quotes in which every character that would not show is escaped: by a short
escape where there is one, by its code point otherwise.
-/

namespace SwiftTidy

namespace Quoted

/-- The digits of a number in lower-case hexadecimal. -/
def hex (n : Nat) : String := String.ofList (Nat.toDigits 16 n)

/-- The written form of one character. -/
def escape (c : Char) : String :=
  if c == '\x00' then "\\0"
  else if c == '\t' then "\\t"
  else if c == '\n' then "\\n"
  else if c == '\r' then "\\r"
  else if c == '"' then "\\\""
  else if c == '\\' then "\\\\"
  else if CharClass.isExtender c || !CharClass.isVisible c then
    "\\u\x7b" ++ hex c.toNat ++ "\x7d"
  else c.toString

/-- The quoted form of a text. -/
def quote (text : String) : String :=
  "\"" ++ String.join (text.toList.map escape) ++ "\""

end Quoted

end SwiftTidy
