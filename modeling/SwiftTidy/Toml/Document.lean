import SwiftTidy.Toml.Scalar

/-!
# TOML documents

A document is a sequence of headers and of keys with values.  Headers and dotted keys build tables
step by step, and what may still be added to a table depends on how it came to be, so the reader
works on slots that remember this.  The finished document is a table of plain values.
-/

namespace SwiftTidy

namespace Toml

/-! ### Tables under construction -/

/-- How a table came to be. -/
inductive Origin where
  /-- It is on the way to a header. -/
  | implied
  /-- A header names it. -/
  | header
  /-- It is on the way to the last part of a dotted key. -/
  | dotted
  deriving DecidableEq, Inhabited

/-- What a key stands for while the document is read. -/
inductive Slot where
  /-- A value that nothing can be added to, inline tables included. -/
  | value (v : Toml)
  | table (origin : Origin) (entries : List (String × Slot))
  /-- An array of tables that headers build; only the last one still grows. -/
  | tables (front : List Toml) (last : List (String × Slot))
  deriving Inhabited

mutual
/-- The value of a slot. -/
def Slot.freeze : Slot → Toml
  | .value v => v
  | .table _ es => .table (freezeAll es)
  | .tables front last => .array (front ++ [.table (freezeAll last)])
/-- The values of the slots of a table. -/
def freezeAll : List (String × Slot) → List (String × Toml)
  | [] => []
  | (k, s) :: es => (k, s.freeze) :: freezeAll es
end

/-- Puts a slot under a key, in increasing order of the keys. -/
def putSlot (k : String) (s : Slot) : List (String × Slot) → List (String × Slot)
  | [] => [(k, s)]
  | (j, t) :: es =>
    if k == j then (k, s) :: es
    else if k < j then (k, s) :: (j, t) :: es
    else (j, t) :: putSlot k s es

/-- Applies `edit` to the table that the front part of a header leads to.  Tables on the way that
do not exist yet are implied. -/
def within (edit : List (String × Slot) → Option (List (String × Slot))) :
    (path : List String) → List (String × Slot) → Option (List (String × Slot))
  | [], es => edit es
  | k :: ks, es =>
    match es.lookup k with
    | none => (within edit ks []).map fun sub => putSlot k (.table .implied sub) es
    | some (.table origin sub) =>
      (within edit ks sub).map fun sub' => putSlot k (.table origin sub') es
    | some (.tables front last) =>
      (within edit ks last).map fun last' => putSlot k (.tables front last') es
    | some (.value _) => none

/-- Opens the table that a header names; it must not be there yet, or be implied only. -/
def openTable (k : String) (es : List (String × Slot)) : Option (List (String × Slot)) :=
  match es.lookup k with
  | none => some (putSlot k (.table .header []) es)
  | some (.table .implied sub) => some (putSlot k (.table .header sub) es)
  | some _ => none

/-- Starts one more table of the array that a header names. -/
def openElement (k : String) (es : List (String × Slot)) : Option (List (String × Slot)) :=
  match es.lookup k with
  | none => some (putSlot k (.tables [] []) es)
  | some (.tables front last) =>
    some (putSlot k (.tables (front ++ [.table (freezeAll last)]) []) es)
  | some _ => none

/-- Gives a value to a dotted key.  A table on the way must not come from a header, and the last
one, if there is any, must come from a dotted key: `fits` says whether the current table does. -/
def assign (k : String) (v : Toml) :
    (path : List String) → (fits : Bool) → List (String × Slot) → Option (List (String × Slot))
  | [], fits, es =>
    if !fits || (es.lookup k).isSome then none else some (putSlot k (.value v) es)
  | p :: ps, _, es =>
    match es.lookup p with
    | none => (assign k v ps true []).map fun sub => putSlot p (.table .dotted sub) es
    | some (.table .header _) => none
    | some (.table origin sub) =>
      (assign k v ps (origin == .dotted) sub).map fun sub' => putSlot p (.table origin sub') es
    | some (.tables front last) =>
      (assign k v ps false last).map fun last' => putSlot p (.tables front last') es
    | some (.value _) => none

/-! ### Blanks, comments and keys -/

/-- Skips spaces, line ends and comments. -/
def skipVoid : (inComment : Bool) → List Char → Option (List Char)
  | _, [] => some []
  | _, '\n' :: cs => skipVoid false cs
  | _, '\r' :: '\n' :: cs => skipVoid false cs
  | true, c :: cs => if isControl c then none else skipVoid true cs
  | false, '#' :: cs => skipVoid true cs
  | false, c :: cs => if isSpace c then skipVoid false cs else some (c :: cs)

/-- Skips the rest of a line, which holds nothing but spaces and a comment. -/
def skipLine : (inComment : Bool) → List Char → Option (List Char)
  | _, [] => some []
  | _, '\n' :: cs => some cs
  | _, '\r' :: '\n' :: cs => some cs
  | true, c :: cs => if isControl c then none else skipLine true cs
  | false, '#' :: cs => skipLine true cs
  | false, c :: cs => if isSpace c then skipLine false cs else none

/-- The characters of keys without quotes. -/
def isBareChar (c : Char) : Bool := c.isAlphanum || c == '_' || c == '-'

/-- One part of a key. -/
def readKeyPart : List Char → Option (String × List Char)
  | '"' :: cs => (basicString cs).map fun (text, rest) => (String.ofList text, rest)
  | '\'' :: cs => (literalString cs).map fun (text, rest) => (String.ofList text, rest)
  | cs =>
    match cs.takeWhile isBareChar with
    | [] => none
    | word => some (String.ofList word, cs.drop word.length)

/-- A key has at most this many parts, and arrays and inline tables may stand in one another up to
this depth. -/
def nestingLimit : Nat := 80

/-- The parts of a dotted key, at most `room`, and what follows the spaces behind it. -/
def readKeyParts : (room : Nat) → List Char → Option (List String × List Char)
  | 0, _ => none
  | room + 1, cs => do
    let (part, cs) ← readKeyPart (cs.dropWhile isSpace)
    match cs.dropWhile isSpace with
    | '.' :: rest =>
      let (parts, rest) ← readKeyParts room rest
      return (part :: parts, rest)
    | rest => return ([part], rest)

/-- A dotted key as the parts in front and the last one. -/
def readKey (cs : List Char) : Option (List String × String × List Char) := do
  let (parts, rest) ← readKeyParts nestingLimit cs
  return (parts.dropLast, ← parts.getLast?, rest)

/-! ### Values -/

mutual
/-- A value at the front; `room` is the depth that is left, and `fuel` bounds the recursion. -/
def readValueFuel : (fuel room : Nat) → List Char → Option (Toml × List Char)
  | 0, _, _ => none
  | _ + 1, 0, '[' :: _ => none
  | _ + 1, 0, '\x7b' :: _ => none
  | fuel + 1, room + 1, '[' :: cs =>
    (readItemsFuel fuel room cs).map fun (xs, rest) => (.array xs, rest)
  | fuel + 1, room + 1, '\x7b' :: cs =>
    (readEntriesFuel fuel room [] cs).map fun (es, rest) => (.table (freezeAll es), rest)
  | _ + 1, _, '"' :: cs => (readString ('"' :: cs)).map fun (s, rest) => (.string s, rest)
  | _ + 1, _, '\'' :: cs => (readString ('\'' :: cs)).map fun (s, rest) => (.string s, rest)
  | _ + 1, _, cs => readPlain cs
/-- The items of an array up to its closing bracket. -/
def readItemsFuel : (fuel room : Nat) → List Char → Option (List Toml × List Char)
  | 0, _, _ => none
  | fuel + 1, room, cs => do
    match ← skipVoid false cs with
    | ']' :: rest => return ([], rest)
    | cs =>
      let (x, cs) ← readValueFuel fuel room cs
      match ← skipVoid false cs with
      | ']' :: rest => return ([x], rest)
      | ',' :: rest =>
        let (xs, rest) ← readItemsFuel fuel room rest
        return (x :: xs, rest)
      | _ => none
/-- The entries of an inline table up to its closing brace, behind the entries `es`. -/
def readEntriesFuel : (fuel room : Nat) → List (String × Slot) → List Char →
    Option (List (String × Slot) × List Char)
  | 0, _, _, _ => none
  | fuel + 1, room, es, cs => do
    match ← skipVoid false cs with
    | '\x7d' :: rest => return (es, rest)
    | cs =>
      let (path, k, cs) ← readKey cs
      match cs with
      | '=' :: cs =>
        let (v, cs) ← readValueFuel fuel room (cs.dropWhile isSpace)
        let es ← assign k v path true es
        match ← skipVoid false cs with
        | '\x7d' :: rest => return (es, rest)
        | ',' :: rest => readEntriesFuel fuel room es rest
        | _ => none
      | _ => none
end

/-- A value at the front. -/
def readValue (cs : List Char) : Option (Toml × List Char) :=
  readValueFuel (2 * cs.length + 2) nestingLimit cs

/-! ### Documents -/

/-- Reads the lines of a document into the table `es`; keys belong to the table that `header`
leads to, and `fuel` bounds the number of lines. -/
def readLines : (fuel : Nat) → (header : List String) → List (String × Slot) → List Char →
    Option (List (String × Slot))
  | 0, _, _, _ => none
  | fuel + 1, header, es, cs => do
    match ← skipVoid false cs with
    | [] => return es
    | '[' :: '[' :: cs =>
      let (path, k, cs) ← readKey cs
      match cs with
      | ']' :: ']' :: cs =>
        readLines fuel (path ++ [k]) (← within (openElement k) path es) (← skipLine false cs)
      | _ => none
    | '[' :: cs =>
      let (path, k, cs) ← readKey cs
      match cs with
      | ']' :: cs =>
        readLines fuel (path ++ [k]) (← within (openTable k) path es) (← skipLine false cs)
      | _ => none
    | cs =>
      let (path, k, cs) ← readKey cs
      match cs with
      | '=' :: cs =>
        let (v, cs) ← readValue (cs.dropWhile isSpace)
        readLines fuel header (← within (assign k v path true) header es) (← skipLine false cs)
      | _ => none

/-- Reads a document: the entries of its table, in increasing order of the keys. -/
def parse? (text : String) : Option (List (String × Toml)) :=
  let cs :=
    match text.toList with
    | '\ufeff' :: cs => cs
    | cs => cs
  (readLines (cs.length + 1) [] [] cs).map freezeAll

end Toml

end SwiftTidy
