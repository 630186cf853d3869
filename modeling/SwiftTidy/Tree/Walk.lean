import SwiftTidy.Tree.Cursor

/-!
# Walking a tree

A visitor is called before and after the children of every node and once for every token, in
source order, and may skip the children of a node.  `Visitor.walk` follows the shape of the tree;
`Visitor.walkStack` does the same with a stack of pending steps.  A `Walker` yields the places of
a tree one by one, parents first, and can be told to skip what is below the last one.
-/

namespace SwiftTidy

/-- What is called on a walk over a tree, with a state of type `σ`. -/
structure Visitor (σ : Type) where
  /-- Called before the children of a node; the answer says whether to visit them. -/
  enter : Cursor → σ → Bool × σ
  /-- Called after the children of a node, also when they were skipped. -/
  leave : Cursor → σ → σ
  /-- Called for every token. -/
  token : Cursor → σ → σ

namespace Visitor

variable {σ : Type}

mutual
/-- Walks over the element `e`, which `c` points at. -/
def walkOf (v : Visitor σ) : (e : Element) → (c : Cursor) → σ → σ
  | .token t, c, s =>
    if t.kind.isToken then v.token c s else v.leave c (v.enter c s).2
  | .node k es, c, s =>
    if k.isToken then v.token c s
    else
      match v.enter c s with
      | (true, s') => v.leave c (walkOfAll v es c 0 c.offset s')
      | (false, s') => v.leave c s'
/-- Walks over the children `es` of `p` from index `i` and offset `o` on. -/
def walkOfAll (v : Visitor σ) :
    (es : List Element) → (p : Cursor) → (i o : Nat) → σ → σ
  | [], _, _, _, s => s
  | e :: es, p, i, o, s =>
    walkOfAll v es p (i + 1) (o + e.fullLen) (walkOf v e (.child p i o e) s)
end

/-- Walks over everything at and below a place: a node, then its children from left to right
unless they are skipped, then the node again. -/
def walk (v : Visitor σ) (c : Cursor) (s : σ) : σ := walkOf v c.element c s

/-- A step that a walk still has to take. -/
inductive Step where
  | enter (c : Cursor)
  | leave (c : Cursor)

/-- Takes the pending steps one after another; `fuel` bounds their number. -/
def run (v : Visitor σ) : (fuel : Nat) → List Step → σ → σ
  | 0, _, s => s
  | _ + 1, [], s => s
  | fuel + 1, .leave c :: steps, s => run v fuel steps (v.leave c s)
  | fuel + 1, .enter c :: steps, s =>
    if c.isToken then run v fuel steps (v.token c s)
    else
      match v.enter c s with
      | (true, s') => run v fuel (c.children.map .enter ++ .leave c :: steps) s'
      | (false, s') => run v fuel (.leave c :: steps) s'

/-- Walks over everything at and below a place with a stack of pending steps.  Every element is
entered and left at most once. -/
def walkStack (v : Visitor σ) (c : Cursor) (s : σ) : σ :=
  run v (2 * c.element.size + 1) [.enter c] s

end Visitor

/-- An enumeration of the places of a tree, parents first. -/
structure Walker where
  stack : List Cursor

namespace Walker

/-- Enumerates a place and all below it. -/
def ofCursor (c : Cursor) : Walker := ⟨[c]⟩

/-- The next place, and the enumeration behind it. -/
def next? (w : Walker) : Option (Cursor × Walker) :=
  match w.stack with
  | [] => none
  | c :: rest => some (c, ⟨c.children ++ rest⟩)

/-- Whether a place is a child of `c`. -/
def isChildOf (x c : Cursor) : Bool := x.parent?.any fun p => p.path == c.path

/-- Skips what is below the place returned last. -/
def skipChildren (w : Walker) (c : Cursor) : Walker := ⟨w.stack.dropWhile (isChildOf · c)⟩

/-- The places enumerated when what is below each chosen one is skipped; `fuel` bounds their
number. -/
def places (skip : Cursor → Bool) : (fuel : Nat) → Walker → List Cursor
  | 0, _ => []
  | fuel + 1, w =>
    match w.next? with
    | none => []
    | some (c, w') => c :: places skip fuel (if skip c then w'.skipChildren c else w')

end Walker

namespace Cursor

/-- The places at and below this one, without what is below the chosen ones. -/
def descendantsSkipping (c : Cursor) (skip : Cursor → Bool) : List Cursor :=
  Walker.places skip c.element.size (Walker.ofCursor c)

mutual
/-- The nodes at and below a place, children first. -/
def postorderOf : (e : Element) → (c : Cursor) → List Cursor
  | .token _, _ => []
  | .node _ es, c => postorderOfAll es c 0 c.offset ++ [c]
/-- The nodes at and below the children of a place, children first. -/
def postorderOfAll : (es : List Element) → (p : Cursor) → (i o : Nat) → List Cursor
  | [], _, _, _ => []
  | e :: es, p, i, o =>
    postorderOf e (child p i o e) ++ postorderOfAll es p (i + 1) (o + e.fullLen)
end

/-- The nodes at and below a place, in the order in which a walk leaves them. -/
def postorder (c : Cursor) : List Cursor := postorderOf c.element c

end Cursor

end SwiftTidy
