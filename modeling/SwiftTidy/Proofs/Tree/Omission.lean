import SwiftTidy.Proofs.Parse.Omission
import SwiftTidy.Proofs.Tree.Places

/-!
# Trees without some of the semicolons

`Element.without M o e` is the element `e`, which starts at byte `o`, without the leaves that start at
a mark, and `Element.stripped` is an element without its trivia.  An element `Fits` the marks where each
semicolon to leave out stands behind a statement that is at its end there: declarations may go on
with a parenthesis or a brace on the next line.
-/

namespace SwiftTidy

/-- Whether a statement of this kind is at its end in front of a token of kind `next`, on whatever line
that stands. -/
def SyntaxKind.endsBefore (statement next : SyntaxKind) : Bool :=
  match statement with
  | .enumCaseDecl => next != .leftParen
  | .variableDecl | .functionDecl | .initializerDecl => next != .leftBrace
  | _ => true

namespace Element

mutual
/-- The element without its trivia. -/
def stripped : Element → Element
  | token t => token ⟨t.kind, t.text, [], []⟩
  | node k es => node k (strippedAll es)
/-- The elements without their trivia. -/
def strippedAll : List Element → List Element
  | [] => []
  | e :: es => stripped e :: strippedAll es
end

/-- Whether an element is a leaf that starts at a mark. -/
def isMarked (M : Marks) (o : Nat) (e : Element) : Bool := e.token?.isSome && (M o).isSome

mutual
/-- The element, which starts at byte `o`, without the leaves at marks below it. -/
def without (M : Marks) : (o : Nat) → Element → Element
  | _, token t => token t
  | o, node k es => node k (withoutAll M o es)
/-- The elements, the first of which starts at byte `o`, without the leaves at marks. -/
def withoutAll (M : Marks) : (o : Nat) → List Element → List Element
  | _, [] => []
  | o, e :: es =>
    if isMarked M o e then withoutAll M (o + e.fullLen) es
    else without M o e :: withoutAll M (o + e.fullLen) es
end

mutual
/-- Whether each semicolon to leave out stands behind a statement that is at its end. -/
def Fits (M : Marks) : (o : Nat) → Element → Prop
  | _, token _ => True
  | o, node k es =>
    (k = .codeBlockItem → ∀ statement semicolon next, es = [statement, token semicolon] →
      M (o + statement.fullLen) = some next → statement.kind.endsBefore next = true) ∧
    FitsAll M o es
/-- Whether each of the elements fits the marks. -/
def FitsAll (M : Marks) : (o : Nat) → List Element → Prop
  | _, [] => True
  | o, e :: es => Fits M o e ∧ FitsAll M (o + e.fullLen) es
end

variable {M : Marks} {o : Nat} {e e' : Element} {es es' fs fs' : List Element} {k : SyntaxKind}

/-! ### Equations -/

@[simp] theorem stripped_token (t : Token) : stripped (token t) = token ⟨t.kind, t.text, [], []⟩ := by
  rw [stripped]

@[simp] theorem stripped_node (k : SyntaxKind) (es : List Element) :
    stripped (node k es) = node k (strippedAll es) := by
  rw [stripped]

@[simp] theorem strippedAll_nil : strippedAll [] = [] := by rw [strippedAll]

@[simp] theorem strippedAll_cons (e : Element) (es : List Element) :
    strippedAll (e :: es) = stripped e :: strippedAll es := by
  rw [strippedAll]

theorem strippedAll_eq_map (es : List Element) : strippedAll es = es.map stripped := by
  induction es with
  | nil => simp
  | cons e es ih => simp [ih]

@[simp] theorem strippedAll_append (es fs : List Element) :
    strippedAll (es ++ fs) = strippedAll es ++ strippedAll fs := by
  induction es with
  | nil => simp
  | cons e es ih => simp [ih]

@[simp] theorem length_strippedAll (es : List Element) : (strippedAll es).length = es.length := by
  induction es with
  | nil => simp
  | cons e es ih => simp [ih]

@[simp] theorem kind_stripped (e : Element) : (stripped e).kind = e.kind := by
  cases e <;> simp [Element.kind]

@[simp] theorem without_token (t : Token) : without M o (token t) = token t := by rw [without]

@[simp] theorem without_node (k : SyntaxKind) (es : List Element) :
    without M o (node k es) = node k (withoutAll M o es) := by
  rw [without]

@[simp] theorem kind_without (e : Element) : (without M o e).kind = e.kind := by
  cases e <;> simp [Element.kind]

@[simp] theorem withoutAll_nil : withoutAll M o [] = [] := by rw [withoutAll]

@[simp] theorem isMarked_node (k : SyntaxKind) (es : List Element) :
    isMarked M o (node k es) = false := rfl

theorem isMarked_of_none (h : M o = none) (e : Element) : isMarked M o e = false := by
  rw [isMarked, h, Option.isSome_none, Bool.and_false]

theorem withoutAll_cons (h : isMarked M o e = false) :
    withoutAll M o (e :: es) = without M o e :: withoutAll M (o + e.fullLen) es := by
  rw [withoutAll, if_neg (by simp [h])]

theorem withoutAll_marked (h : isMarked M o e = true) :
    withoutAll M o (e :: es) = withoutAll M (o + e.fullLen) es := by
  rw [withoutAll, if_pos h]

@[simp] theorem withoutAll_node_cons (k : SyntaxKind) (es fs : List Element) :
    withoutAll M o (node k es :: fs) =
      node k (withoutAll M o es) :: withoutAll M (o + (node k es).fullLen) fs := by
  rw [withoutAll_cons (isMarked_node k es), without_node]

theorem withoutAll_append (es fs : List Element) :
    withoutAll M o (es ++ fs) = withoutAll M o es ++ withoutAll M (o + fullLenAll es) fs := by
  induction es generalizing o with
  | nil => simp [fullLenAll]
  | cons e es ih =>
    rw [List.cons_append, fullLenAll, ← Nat.add_assoc]
    cases h : isMarked M o e with
    | true => rw [withoutAll_marked h, withoutAll_marked h, ih]
    | false => rw [withoutAll_cons h, withoutAll_cons h, ih, List.cons_append]

theorem fullLenAll_single (e : Element) : fullLenAll [e] = e.fullLen := by
  rw [fullLenAll, fullLenAll, Nat.add_zero]

theorem fitsAll_append (es fs : List Element) :
    FitsAll M o (es ++ fs) ↔ FitsAll M o es ∧ FitsAll M (o + fullLenAll es) fs := by
  induction es generalizing o with
  | nil => simp [FitsAll, fullLenAll]
  | cons e es ih =>
    rw [List.cons_append, FitsAll, FitsAll, ih, fullLenAll, ← Nat.add_assoc, and_assoc]

theorem FitsAll.of_node (h : FitsAll M o [node k es]) : FitsAll M o es := by
  rw [FitsAll, Fits] at h
  exact h.1.2

/-! ### Testing -/

/-- Whether the statement in front of a semicolon that is left out is at its end. -/
def isAtEnd (M : Marks) (o : Nat) : List Element → Bool
  | [statement, token _] => (M (o + statement.fullLen)).all statement.kind.endsBefore
  | _ => true

theorem isAtEnd_iff : isAtEnd M o es = true ↔
    ∀ statement semicolon next, es = [statement, token semicolon] →
      M (o + statement.fullLen) = some next → statement.kind.endsBefore next = true := by
  constructor
  · rintro h statement semicolon next rfl hnext
    rw [isAtEnd, hnext] at h
    exact h
  · intro h
    unfold isAtEnd
    split
    · next statement semicolon =>
      cases hnext : M (o + statement.fullLen) with
      | none => rfl
      | some next => exact h statement semicolon next rfl hnext
    · rfl

mutual
instance decidableFits (M : Marks) : (o : Nat) → (e : Element) → Decidable (Fits M o e)
  | o, token t => isTrue (by rw [Fits]; trivial)
  | o, node k es =>
    have := decidableFitsAll M o es
    decidable_of_iff ((k = .codeBlockItem → isAtEnd M o es = true) ∧ FitsAll M o es) (by
      rw [Fits, isAtEnd_iff])
instance decidableFitsAll (M : Marks) : (o : Nat) → (es : List Element) → Decidable (FitsAll M o es)
  | o, [] => isTrue (by rw [FitsAll]; trivial)
  | o, e :: es =>
    have := decidableFits M o e
    have := decidableFitsAll M (o + e.fullLen) es
    decidable_of_iff (Fits M o e ∧ FitsAll M (o + e.fullLen) es) (by rw [FitsAll])
end

/-! ### The same elements -/

/-- As many elements, of which the second are the first without the leaves at marks below them and
with other trivia. -/
structure Omits (M : Marks) (o : Nat) (es es' : List Element) : Prop where
  length : es'.length = es.length
  stripped : strippedAll es' = strippedAll (withoutAll M o es)

namespace Omits

theorem nil : Omits M o [] [] := ⟨rfl, by simp⟩

/-- A single element is not a leaf at a mark. -/
theorem single (h : Omits M o [e] es') :
    ∃ e', es' = [e'] ∧ e'.stripped = (e.without M o).stripped ∧ isMarked M o e = false := by
  obtain ⟨e', rfl⟩ := List.length_eq_one_iff.mp h.length
  have hstripped := h.stripped
  cases hmarked : isMarked M o e with
  | true =>
    rw [withoutAll_marked hmarked] at hstripped
    simp at hstripped
  | false =>
    rw [withoutAll_cons hmarked] at hstripped
    simp only [withoutAll_nil, strippedAll_cons, strippedAll_nil, List.cons.injEq, and_true] at hstripped
    exact ⟨e', rfl, hstripped, rfl⟩

theorem of_single (hstripped : e'.stripped = (e.without M o).stripped) (hmarked : isMarked M o e = false) :
    Omits M o [e] [e'] :=
  ⟨rfl, by simp [withoutAll_cons hmarked, hstripped]⟩

theorem append (h : Omits M o es es') (h' : Omits M (o + fullLenAll es) fs fs') :
    Omits M o (es ++ fs) (es' ++ fs') where
  length := by rw [List.length_append, List.length_append, h.length, h'.length]
  stripped := by rw [strippedAll_append, h.stripped, h'.stripped, withoutAll_append, strippedAll_append]

theorem node (h : Omits M o es es') : Omits M o [.node k es] [.node k es'] :=
  ⟨rfl, by simp [h.stripped]⟩

theorem kind_eq (h : Omits M o [e] [e']) : e'.kind = e.kind := by
  obtain ⟨e'', heq, hstripped, -⟩ := h.single
  cases heq
  rw [← kind_stripped e', hstripped, kind_stripped, kind_without]

end Omits

end Element

end SwiftTidy
