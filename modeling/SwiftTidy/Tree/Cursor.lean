import SwiftTidy.Text.Offset
import SwiftTidy.Tree.Element

/-!
# Cursors

A cursor points at an element of a tree and knows the way it took from the root, and thereby the
element's position: the way is a chain of parents, each with the index of the child taken and the
offset at which this child starts.

What is a token and what is a node is read off the kind, as everywhere above the tree itself.
-/

namespace SwiftTidy

/-- A place in a tree: the root, or a child of another place. -/
inductive Cursor where
  | root (element : Element)
  | child (parent : Cursor) (index : Nat) (offset : Nat) (element : Element)
  deriving Inhabited

namespace Cursor

/-- The element a cursor points at. -/
def element : Cursor → Element
  | root e => e
  | child _ _ _ e => e

/-- The offset at which the element starts, leading trivia included. -/
def offset : Cursor → Nat
  | root _ => 0
  | child _ _ o _ => o

/-- The place above, if this is not the root. -/
def parent? : Cursor → Option Cursor
  | root _ => none
  | child p _ _ _ => some p

/-- The position among the children of the parent; zero for the root. -/
def index : Cursor → Nat
  | root _ => 0
  | child _ i _ _ => i

/-- The indices of the children taken, from the root down. -/
def path : Cursor → List Nat
  | root _ => []
  | child p i _ _ => p.path ++ [i]

/-- The number of places above this one. -/
def depth : Cursor → Nat
  | root _ => 0
  | child p _ _ _ => p.depth + 1

/-- The tree the cursor is in. -/
def rootElement : Cursor → Element
  | root e => e
  | child p _ _ _ => p.rootElement

/-- The kind of the element. -/
def kind (c : Cursor) : SyntaxKind := c.element.kind

/-- Whether the element counts as a token. -/
def isToken (c : Cursor) : Bool := c.kind.isToken

/-- The token the cursor points at, if its element is one. -/
def token? (c : Cursor) : Option Token := c.element.token?

/-- The places above, the parent first. -/
def ancestors : Cursor → List Cursor
  | root _ => []
  | child p _ _ _ => p :: p.ancestors

/-! ### Ranges -/

/-- The offset behind the element, trailing trivia included. -/
def fullEnd (c : Cursor) : Nat := c.offset + c.element.fullLen

/-- The range of the element with its outer trivia. -/
def fullRange (c : Cursor) : TextRange := ⟨c.offset, c.fullEnd, Nat.le_add_right _ _⟩

/-- The offset of the first character that is no outer trivia. -/
def position (c : Cursor) : Nat := c.offset + c.element.leadingTrivia.len

/-- The offset behind the last character that is no outer trivia. -/
def endPosition (c : Cursor) : Nat := c.position + c.element.len

/-- The range of the element without its outer trivia. -/
def range (c : Cursor) : TextRange := ⟨c.position, c.endPosition, Nat.le_add_right _ _⟩

/-- The text of the element without its outer trivia. -/
def text (c : Cursor) : String := c.element.text

/-! ### Children and siblings -/

/-- The places of the elements `es`, which are children of `p` from index `i` and offset `o` on. -/
def childrenFrom (p : Cursor) : (i : Nat) → (o : Nat) → (es : List Element) → List Cursor
  | _, _, [] => []
  | i, o, e :: es => child p i o e :: childrenFrom p (i + 1) (o + e.fullLen) es

/-- The children, in source order. -/
def children (c : Cursor) : List Cursor := childrenFrom c 0 c.offset c.element.children

/-- The number of children. -/
def childCount (c : Cursor) : Nat := c.element.children.length

/-- The child at an index. -/
def child? (c : Cursor) (i : Nat) : Option Cursor := c.children[i]?

/-- The first child of the given kind. -/
def childOfKind? (c : Cursor) (k : SyntaxKind) : Option Cursor := c.children.find? (·.kind == k)

/-- The children of the given kind. -/
def childrenOfKind (c : Cursor) (k : SyntaxKind) : List Cursor := c.children.filter (·.kind == k)

/-- The siblings behind this place, the nearest first. -/
def following : Cursor → List Cursor
  | root _ => []
  | child p i _ _ => p.children.drop (i + 1)

/-- The siblings in front of this place, the nearest first. -/
def preceding : Cursor → List Cursor
  | root _ => []
  | child p i _ _ => (p.children.take i).reverse

/-- The sibling behind this place. -/
def nextSibling? (c : Cursor) : Option Cursor := c.following.head?

/-- The sibling in front of this place. -/
def prevSibling? (c : Cursor) : Option Cursor := c.preceding.head?

/-! ### Traversals

Each one follows the shape of the element `e` that the cursor `c` points at, or of the children
`es` of `p` from index `i` and offset `o` on. -/

mutual
/-- The place and all below it, parents first. -/
def descendantsOf : (e : Element) → (c : Cursor) → List Cursor
  | .token _, c => [c]
  | .node _ es, c => c :: descendantsOfAll es c 0 c.offset
/-- The children of a place with all below them. -/
def descendantsOfAll : (es : List Element) → (p : Cursor) → (i : Nat) → (o : Nat) → List Cursor
  | [], _, _, _ => []
  | e :: es, p, i, o =>
    descendantsOf e (child p i o e) ++ descendantsOfAll es p (i + 1) (o + e.fullLen)
end

/-- The place and all below it, parents first. -/
def descendants (c : Cursor) : List Cursor := descendantsOf c.element c

/-- The tokens at or below a place, in source order. -/
def tokens (c : Cursor) : List Cursor := c.descendants.filter (·.isToken)

mutual
/-- The first token at or below a place. -/
def firstTokenOf? : (e : Element) → (c : Cursor) → Option Cursor
  | .token t, c => if t.kind.isToken then some c else none
  | .node k es, c => if k.isToken then some c else firstTokenOfAll? es c 0 c.offset
/-- The first token at or below the children of a place. -/
def firstTokenOfAll? :
    (es : List Element) → (p : Cursor) → (i : Nat) → (o : Nat) → Option Cursor
  | [], _, _, _ => none
  | e :: es, p, i, o =>
    match firstTokenOf? e (child p i o e) with
    | some c => some c
    | none => firstTokenOfAll? es p (i + 1) (o + e.fullLen)
end

/-- The first token at or below a place. -/
def firstToken? (c : Cursor) : Option Cursor := firstTokenOf? c.element c

mutual
/-- The last token at or below a place. -/
def lastTokenOf? : (e : Element) → (c : Cursor) → Option Cursor
  | .token t, c => if t.kind.isToken then some c else none
  | .node k es, c => if k.isToken then some c else lastTokenOfAll? es c 0 c.offset
/-- The last token at or below the children of a place. -/
def lastTokenOfAll? :
    (es : List Element) → (p : Cursor) → (i : Nat) → (o : Nat) → Option Cursor
  | [], _, _, _ => none
  | e :: es, p, i, o =>
    match lastTokenOfAll? es p (i + 1) (o + e.fullLen) with
    | some c => some c
    | none => lastTokenOf? e (child p i o e)
end

/-- The last token at or below a place. -/
def lastToken? (c : Cursor) : Option Cursor := lastTokenOf? c.element c

/-- The token that follows a place in source order. -/
def nextToken? : Cursor → Option Cursor
  | root _ => none
  | c@(child p _ _ _) =>
    match c.following.findSome? firstToken? with
    | some t => some t
    | none => p.nextToken?

/-- The token that precedes a place in source order. -/
def prevToken? : Cursor → Option Cursor
  | root _ => none
  | c@(child p _ _ _) =>
    match c.preceding.findSome? lastToken? with
    | some t => some t
    | none => p.prevToken?

/-- The trivia in front of the first token below a place. -/
def leadingTrivia (c : Cursor) : Trivia :=
  match c.firstToken?.bind token? with
  | some t => t.leading
  | none => []

/-- The trivia behind the last token below a place. -/
def trailingTrivia (c : Cursor) : Trivia :=
  match c.lastToken?.bind token? with
  | some t => t.trailing
  | none => []

/-- Whether some token at or below a place carries a comment. -/
def containsComments (c : Cursor) : Bool :=
  c.tokens.any fun t =>
    t.token?.any fun x => x.leading.containsComment || x.trailing.containsComment

/-- Whether some place above has one of the given kinds. -/
def hasAncestor (c : Cursor) (ks : List SyntaxKind) : Bool :=
  c.ancestors.any fun a => ks.contains a.kind

mutual
/-- The token below a place whose full range contains an offset. -/
def tokenAtOf? (target : Nat) : (e : Element) → (c : Cursor) → Option Cursor
  | .token t, c => if t.kind.isToken then some c else none
  | .node k es, c => if k.isToken then some c else tokenAtOfAll? target es c 0 c.offset
/-- The token whose full range contains an offset, below the child that contains it. -/
def tokenAtOfAll? (target : Nat) :
    (es : List Element) → (p : Cursor) → (i : Nat) → (o : Nat) → Option Cursor
  | [], _, _, _ => none
  | e :: es, p, i, o =>
    let c := child p i o e
    if c.fullRange.contains target then tokenAtOf? target e c
    else tokenAtOfAll? target es p (i + 1) (o + e.fullLen)
end

/-- The token at or below a place whose full range, trivia included, contains an offset. -/
def tokenAt? (c : Cursor) (target : Nat) : Option Cursor :=
  if c.fullRange.contains target then tokenAtOf? target c.element c else none

end Cursor

end SwiftTidy
