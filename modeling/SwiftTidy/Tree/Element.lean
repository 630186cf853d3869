import SwiftTidy.Tree.Kind
import SwiftTidy.Tree.Trivia

/-!
# Syntax tree elements

A syntax tree is a tree whose leaves are tokens with the trivia they own.  Elements know nothing
of their position, so a subtree can be moved or replaced freely; positions come from a `Cursor`.

The view of an element is its list of `leaves` in source order: its text, its edge tokens and the
edits at its edges are all determined by it, and nothing of the source is outside it.
-/

namespace SwiftTidy

/-- A leaf of the tree: a lexeme with the trivia in front of it and behind it. -/
structure Token where
  kind : SyntaxKind
  text : String
  leading : Trivia
  trailing : Trivia
  deriving DecidableEq, Inhabited

namespace Token

/-- The number of bytes of the lexeme. -/
def len (t : Token) : Nat := t.text.utf8ByteSize

/-- The number of bytes of the lexeme and of the trivia around it. -/
def fullLen (t : Token) : Nat := t.leading.len + t.len + t.trailing.len

/-- The lexeme with the trivia around it. -/
def fullText (t : Token) : String := t.leading.text ++ t.text ++ t.trailing.text

end Token

/-- A token, or an inner node with its children in source order. -/
inductive Element where
  | token (t : Token)
  | node (kind : SyntaxKind) (children : List Element)
  deriving Inhabited

namespace Element

/-- The kind of the token or node. -/
def kind : Element → SyntaxKind
  | token t => t.kind
  | node k _ => k

/-- The children of a node; a token has none. -/
def children : Element → List Element
  | token _ => []
  | node _ cs => cs

/-- The token an element is, if it is one. -/
def token? : Element → Option Token
  | token t => some t
  | node _ _ => none

/-! ### Structural equality -/

mutual
/-- Whether two elements are the same tree: same shape, kinds, texts and trivia. -/
def beq : Element → Element → Bool
  | token s, token t => s == t
  | node j as, node k bs => j == k && beqAll as bs
  | token _, node _ _ => false
  | node _ _, token _ => false
/-- Whether two lists of elements agree one by one. -/
def beqAll : List Element → List Element → Bool
  | [], [] => true
  | a :: as, b :: bs => beq a b && beqAll as bs
  | [], _ :: _ => false
  | _ :: _, [] => false
end

instance : BEq Element := ⟨beq⟩

mutual
theorem eq_of_beq : ∀ {a b : Element}, beq a b = true → a = b
  | token s, token t, h => by rw [beq] at h; rw [LawfulBEq.eq_of_beq h]
  | node j as, node k bs, h => by
    rw [beq, Bool.and_eq_true] at h
    rw [LawfulBEq.eq_of_beq h.1, eq_of_beqAll h.2]
  | token _, node _ _, h => by simp [beq] at h
  | node _ _, token _, h => by simp [beq] at h
theorem eq_of_beqAll : ∀ {as bs : List Element}, beqAll as bs = true → as = bs
  | [], [], _ => rfl
  | a :: as, b :: bs, h => by
    rw [beqAll, Bool.and_eq_true] at h
    rw [eq_of_beq h.1, eq_of_beqAll h.2]
  | [], _ :: _, h => by simp [beqAll] at h
  | _ :: _, [], h => by simp [beqAll] at h
end

mutual
theorem beq_refl : ∀ a : Element, beq a a = true
  | token t => by simp [beq]
  | node k cs => by simp [beq, beqAll_refl cs]
theorem beqAll_refl : ∀ as : List Element, beqAll as as = true
  | [] => rfl
  | a :: as => by simp [beqAll, beq_refl a, beqAll_refl as]
end

instance : LawfulBEq Element where
  eq_of_beq := eq_of_beq
  rfl := beq_refl _

instance : DecidableEq Element := fun a b =>
  if h : beq a b = true then isTrue (eq_of_beq h)
  else isFalse fun e => h (e ▸ beq_refl a)

/-! ### Leaves, text and length -/

mutual
/-- The tokens of an element, in source order. -/
def leaves : Element → List Token
  | token t => [t]
  | node _ cs => leavesAll cs
/-- The tokens of a list of elements, in source order. -/
def leavesAll : List Element → List Token
  | [] => []
  | e :: es => leaves e ++ leavesAll es
end

mutual
/-- The number of bytes of an element, outer trivia included. -/
def fullLen : Element → Nat
  | token t => t.fullLen
  | node _ cs => fullLenAll cs
/-- The number of bytes of a list of elements. -/
def fullLenAll : List Element → Nat
  | [] => 0
  | e :: es => fullLen e + fullLenAll es
end

mutual
/-- The number of tokens and nodes of an element, itself included. -/
def size : Element → Nat
  | token _ => 1
  | node _ cs => sizeAll cs + 1
/-- The number of tokens and nodes in a list of elements. -/
def sizeAll : List Element → Nat
  | [] => 0
  | e :: es => size e + sizeAll es
end

/-- The source text of an element, outer trivia included. -/
def fullText (e : Element) : String :=
  String.join (e.leaves.map Token.fullText)

mutual
/-- The first leaf, if there is any. -/
def firstToken? : Element → Option Token
  | token t => some t
  | node _ cs => firstTokenOf? cs
/-- The first leaf of a list of elements. -/
def firstTokenOf? : List Element → Option Token
  | [] => none
  | e :: es =>
    match firstToken? e with
    | some t => some t
    | none => firstTokenOf? es
end

mutual
/-- The last leaf, if there is any. -/
def lastToken? : Element → Option Token
  | token t => some t
  | node _ cs => lastTokenOf? cs
/-- The last leaf of a list of elements. -/
def lastTokenOf? : List Element → Option Token
  | [] => none
  | e :: es =>
    match lastTokenOf? es with
    | some t => some t
    | none => lastToken? e
end

/-- The trivia in front of the first leaf; empty for an element without leaves. -/
def leadingTrivia (e : Element) : Trivia :=
  match e.firstToken? with
  | some t => t.leading
  | none => []

/-- The trivia behind the last leaf; empty for an element without leaves. -/
def trailingTrivia (e : Element) : Trivia :=
  match e.lastToken? with
  | some t => t.trailing
  | none => []

/-- The number of bytes of an element without its outer trivia. -/
def len (e : Element) : Nat :=
  e.fullLen - (e.leadingTrivia.len + e.trailingTrivia.len)

/-! ### Edits at the edges -/

mutual
/-- Applies `f` to the first leaf; `none` when there is no leaf. -/
def mapFirstToken? (f : Token → Token) : Element → Option Element
  | token t => some (token (f t))
  | node k cs => (mapFirstTokenOf? f cs).map (node k)
/-- Applies `f` to the first leaf of a list of elements. -/
def mapFirstTokenOf? (f : Token → Token) : List Element → Option (List Element)
  | [] => none
  | e :: es =>
    match mapFirstToken? f e with
    | some e' => some (e' :: es)
    | none => (mapFirstTokenOf? f es).map (e :: ·)
end

mutual
/-- Applies `f` to the last leaf; `none` when there is no leaf. -/
def mapLastToken? (f : Token → Token) : Element → Option Element
  | token t => some (token (f t))
  | node k cs => (mapLastTokenOf? f cs).map (node k)
/-- Applies `f` to the last leaf of a list of elements. -/
def mapLastTokenOf? (f : Token → Token) : List Element → Option (List Element)
  | [] => none
  | e :: es =>
    match mapLastTokenOf? f es with
    | some es' => some (e :: es')
    | none => (mapLastToken? f e).map (· :: es)
end

/-- Applies `f` to the first leaf; an element without leaves stays as it is. -/
def mapFirstToken (f : Token → Token) (e : Element) : Element :=
  (e.mapFirstToken? f).getD e

/-- Applies `f` to the last leaf; an element without leaves stays as it is. -/
def mapLastToken (f : Token → Token) (e : Element) : Element :=
  (e.mapLastToken? f).getD e

/-- The element with other trivia in front. -/
def withLeading (e : Element) (t : Trivia) : Element :=
  e.mapFirstToken fun x => { x with leading := t }

/-- The element with other trivia behind. -/
def withTrailing (e : Element) (t : Trivia) : Element :=
  e.mapLastToken fun x => { x with trailing := t }

/-- The element with the outer trivia of `donor`.  Trivia belongs to a slot in the source, not to
the element that moves through it. -/
def transplantTrivia (e donor : Element) : Element :=
  (e.withLeading donor.leadingTrivia).withTrailing donor.trailingTrivia

/-- A node with its child at `index` exchanged; `none` when there is no such child.  A token has
no children. -/
def replaceChild? (e : Element) (index : Nat) (child : Element) : Option Element :=
  match e with
  | token _ => none
  | node k cs => if index < cs.length then some (node k (cs.set index child)) else none

/-- The source text of an element without its outer trivia. -/
def text (e : Element) : String :=
  ((e.withLeading []).withTrailing []).fullText

/-! ### Kinds in their place -/

mutual
/-- Leaves carry token kinds and inner nodes carry node kinds. -/
def WellKinded : Element → Prop
  | token t => t.kind.isToken = true
  | node k cs => k.isNode = true ∧ WellKindedAll cs
/-- Every element of the list is well kinded. -/
def WellKindedAll : List Element → Prop
  | [] => True
  | e :: es => WellKinded e ∧ WellKindedAll es
end

end Element

end SwiftTidy
