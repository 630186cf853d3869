import SwiftTidy.Tree.Cursor

/-!
# Layout of a tree

A layout numbers the elements of a tree breadth-first, so that the children of every node have
consecutive numbers.  Each entry holds the number of its parent, its position among the parent's
children and the offset at which it starts.
-/

namespace SwiftTidy

/-- One element of a tree with its place in the layout. -/
structure LayoutEntry where
  element : Element
  parent : Option Nat
  offset : Nat
  index : Nat
  /-- The number of the first child, when there are children. -/
  firstChild : Nat
  deriving Inhabited

namespace LayoutEntry

/-- The number of children. -/
def childCount (e : LayoutEntry) : Nat := e.element.children.length

/-- The numbers of the children. -/
def children (e : LayoutEntry) : List Nat := List.range' e.firstChild e.childCount

/-- The range of the element with its outer trivia. -/
def fullRange (e : LayoutEntry) : TextRange :=
  ⟨e.offset, e.offset + e.element.fullLen, Nat.le_add_right _ _⟩

/-- The range of the element without its outer trivia: the full range without the trivia of the
first and of the last token. -/
def range (e : LayoutEntry) : Except Fault TextRange := do
  let full ← TextRange.ofLength e.offset e.element.fullLen
  match e.element.firstToken?, e.element.lastToken? with
  | some first, some last =>
    let start ← Offset.add full.start first.leading.len
    let stop ← Offset.sub full.stop last.trailing.len
    TextRange.between start stop
  | _, _ => return full

end LayoutEntry

/-- The elements of a tree in breadth-first order. -/
abbrev Layout := Array LayoutEntry

namespace Layout

/-- The entries of the elements `es`, which are children of entry `parent` from index `i` and
offset `o` on. -/
def childEntries (parent : Nat) : (i o : Nat) → (es : List Element) → List LayoutEntry
  | _, _, [] => []
  | i, o, e :: es => ⟨e, some parent, o, i, 0⟩ :: childEntries parent (i + 1) (o + e.fullLen) es

/-- Lays out the children of entry `i` and of all behind it; `fuel` bounds their number. -/
def grow : (fuel i : Nat) → Layout → Layout
  | 0, _, entries => entries
  | fuel + 1, i, entries =>
    match entries[i]? with
    | none => entries
    | some e =>
      let entries' := entries.setIfInBounds i { e with firstChild := entries.size }
      grow fuel (i + 1) (entries' ++ (childEntries i 0 e.offset e.element.children).toArray)

/-- The layout of a tree. -/
def ofElement (e : Element) : Layout := grow e.size 0 #[⟨e, none, 0, 0, 0⟩]

/-- The number of the element a cursor points at. -/
def idOf (l : Layout) : Cursor → Nat
  | .root _ => 0
  | .child p i _ _ => (l.getD (idOf l p) default).firstChild + i

/-- The cursor of an entry, found by going up to the root; `fuel` bounds the depth. -/
def cursorOf (l : Layout) : (fuel id : Nat) → Option Cursor
  | 0, _ => none
  | fuel + 1, id =>
    match l[id]? with
    | none => none
    | some e =>
      match e.parent with
      | none => some (.root e.element)
      | some p => (cursorOf l fuel p).map fun c => .child c e.index e.offset e.element

/-- The cursor of the entry with the given number. -/
def cursor? (l : Layout) (id : Nat) : Option Cursor := cursorOf l (id + 1) id

end Layout

end SwiftTidy
