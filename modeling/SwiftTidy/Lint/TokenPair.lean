import SwiftTidy.Lint.Fixer

/-!
# Spacing between neighbouring tokens

The whitespace between two tokens is the trailing trivia of the first.  An edit of this trivia is
made at the lowest node that holds both tokens, because only there both are still to be reached.
-/

namespace SwiftTidy

namespace Cursor

/-- Whether two cursors point at the same place of one tree. -/
def samePlace (a b : Cursor) : Bool := a.path == b.path

/-- The lowest place that holds a token and the token in front of it. -/
def commonAncestorWithPrevious? (c : Cursor) : Option Cursor :=
  c.prevToken?.bind fun prev => c.ancestors.find? (·.fullRange.containsRange prev.fullRange)

end Cursor

namespace TokenPair

/-- The largest index below `n` of an element with a leaf; the elements at all indices on the way
down must exist. -/
def lastWithLeaf (es : List Element) : (n : Nat) → Except Fault (Option Nat)
  | 0 => .ok none
  | n + 1 =>
    match es[n]? with
    | none => .error .missingChild
    | some e => if e.lastToken?.isSome then .ok (some n) else lastWithLeaf es n

/-- Edits the token at `right` and the token in front of it below the place `c`, whose element has
become `current`.  It is not possible where `c` does not hold both. -/
def edit (c : Cursor) (current : Element) (right : Cursor)
    (editLeft editRight : Token → Token) : Except Fault (Option Element) := do
  match (right :: right.ancestors).find? fun x => x.parent?.any (·.samePlace c) with
  | none => return none
  | some x =>
    let es := current.children
    match ← lastWithLeaf es x.index with
    | none => return none
    | some i =>
      match es[i]?, es[x.index]? with
      | some l, some r =>
        let es := (es.set i (l.mapLastToken editLeft)).set x.index (r.mapFirstToken editRight)
        return some (.node current.kind es)
      | _, _ => .error .missingChild

end TokenPair

/-- A change of the spacing around a token. -/
structure SpacingEdit where
  /-- The position of the violation that it corrects. -/
  position : Nat
  token : Cursor
  /-- What comes between the token and the one in front of it. -/
  before : Option Trivia
  /-- What comes behind the token. -/
  after : Option Trivia

namespace SpacingEdit

/-- Whether nothing is to be changed. -/
def isEmpty (e : SpacingEdit) : Bool := e.before.isNone && e.after.isNone

/-- A token with other trivia behind it, if there is any to be set. -/
def setTrailing (trivia : Option Trivia) (t : Token) : Token :=
  match trivia with
  | some trivia => { t with trailing := trivia }
  | none => t

/-- Makes the edit below the place `c`, whose element has become `current`. -/
def apply (e : SpacingEdit) (c : Cursor) (current : Element) : Except Fault (Option Element) :=
  TokenPair.edit c current e.token (setTrailing e.before) (setTrailing e.after)

/-- The edits that change something, each with the way to the place where its tokens meet. -/
def located (edits : List SpacingEdit) : List (List Nat × SpacingEdit) :=
  (edits.filter (!·.isEmpty)).filterMap fun e =>
    e.token.commonAncestorWithPrevious?.map fun c => (c.path, e)

/-- Makes every edit where its tokens meet.  Of several edits that meet in one place only the
first is made. -/
def fixer (edits : List SpacingEdit) : Fixer Unit :=
  let byPath := located edits
  { node := fun c current _ => do
      match byPath.lookup c.path with
      | none => return (none, ())
      | some e =>
        let replacement ← e.apply c current
        return (replacement.map fun r => ⟨r, e.position, [], none⟩, ()) }

end SpacingEdit

/-- Whether a run of trivia is exactly one space. -/
def Trivia.isSingleSpace (t : Trivia) : Bool := t == [TriviaPiece.spaces 1]

end SwiftTidy
