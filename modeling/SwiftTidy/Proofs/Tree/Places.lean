import Mathlib.Algebra.GroupWithZero.Nat
import SwiftTidy.Tree.Cursor
import SwiftTidy.Tree.Element

/-!
# The tokens of a tree and their places

`Token.spell ts` is the list of characters that a run of tokens stands for, trivia included.  The
text of an element is the spelling of its leaves (`Element.toList_fullText`), so a statement about
what a tree renders to is a statement about its list of leaves.

In a tree whose leaves have the kinds of tokens and whose nodes have the kinds of nodes, the places
that count as tokens are the leaves, in order and one behind the other: a token starts where the
one in front of it ends (`map_tokensOf`).  The first and the last token of a place are the ends of
the list of its tokens, and the token in front of a token and the one behind it are its neighbours
in the list (`linked_tokensOf`).
-/

namespace SwiftTidy

/-! ### Runs of tokens -/

namespace Token

/-- The characters of a run of tokens, each with the trivia around it. -/
def spell (ts : List Token) : List Char := ts.flatMap fun t => t.fullText.toList

@[simp] theorem spell_nil : spell [] = [] := rfl

@[simp] theorem spell_cons (t : Token) (ts : List Token) :
    spell (t :: ts) = t.fullText.toList ++ spell ts := rfl

@[simp] theorem spell_append (ts us : List Token) : spell (ts ++ us) = spell ts ++ spell us :=
  List.flatMap_append

theorem toList_fullText (t : Token) :
    t.fullText.toList = t.leading.text.toList ++ t.text.toList ++ t.trailing.text.toList := by
  rw [fullText, String.toList_append, String.toList_append]

end Token

/-! ### Runs of trivia -/

namespace Trivia

@[simp] theorem toList_text_nil : (text []).toList = [] := rfl

@[simp] theorem toList_text_cons (p : TriviaPiece) (t : Trivia) :
    (text (p :: t)).toList = p.text.toList ++ (text t).toList := by
  rw [text, text, List.map_cons, String.join_cons, String.toList_append]

@[simp] theorem toList_text_append (s t : Trivia) :
    (text (s ++ t)).toList = (text s).toList ++ (text t).toList := by
  rw [text, text, text, List.map_append, String.join_append, String.toList_append]

end Trivia

/-! ### Elements -/

namespace Element

@[simp] theorem leaves_token (t : Token) : leaves (.token t) = [t] := by rw [leaves]

@[simp] theorem leaves_node (k : SyntaxKind) (es : List Element) :
    leaves (.node k es) = leavesAll es := by rw [leaves]

@[simp] theorem leavesAll_nil : leavesAll [] = [] := by rw [leavesAll]

@[simp] theorem leavesAll_cons (e : Element) (es : List Element) :
    leavesAll (e :: es) = leaves e ++ leavesAll es := by rw [leavesAll]

@[simp] theorem leavesAll_append (es fs : List Element) :
    leavesAll (es ++ fs) = leavesAll es ++ leavesAll fs := by
  induction es with
  | nil => rw [List.nil_append, leavesAll_nil, List.nil_append]
  | cons e es ih =>
    rw [List.cons_append, leavesAll_cons, leavesAll_cons, ih, List.append_assoc]

/-- The text of an element is the spelling of its leaves. -/
theorem toList_fullText (e : Element) : e.fullText.toList = Token.spell e.leaves := by
  rw [fullText, String.toList_join, List.flatMap_map]
  rfl

end Element

/-! ### Lengths -/

namespace Token

/-- The number of bytes of a run of tokens. -/
def fullLenAll (ts : List Token) : Nat := (ts.map fullLen).sum

@[simp] theorem fullLenAll_nil : fullLenAll [] = 0 := rfl

@[simp] theorem fullLenAll_cons (t : Token) (ts : List Token) :
    fullLenAll (t :: ts) = t.fullLen + fullLenAll ts := by
  rw [fullLenAll, List.map_cons, List.sum_cons, fullLenAll]

@[simp] theorem fullLenAll_append (ts us : List Token) :
    fullLenAll (ts ++ us) = fullLenAll ts + fullLenAll us := by
  rw [fullLenAll, List.map_append, List.sum_append, fullLenAll, fullLenAll]

/-- Tokens with the offsets at which they start, one behind the other from an offset on. -/
def placed : Nat → List Token → List (Nat × Token)
  | _, [] => []
  | o, t :: ts => (o, t) :: placed (o + t.fullLen) ts

@[simp] theorem placed_append (o : Nat) (ts us : List Token) :
    placed o (ts ++ us) = placed o ts ++ placed (o + fullLenAll ts) us := by
  induction ts generalizing o with
  | nil => rfl
  | cons t ts ih =>
    rw [List.cons_append, placed, placed, ih, fullLenAll_cons, List.cons_append, Nat.add_assoc]

@[simp] theorem map_snd_placed (o : Nat) (ts : List Token) : (placed o ts).map Prod.snd = ts := by
  induction ts generalizing o with
  | nil => rfl
  | cons t ts ih => rw [placed, List.map_cons, ih]

end Token

namespace Element

mutual
/-- The length of an element is that of its leaves. -/
theorem fullLen_eq : ∀ e : Element, e.fullLen = Token.fullLenAll e.leaves
  | token t => by rw [fullLen, leaves_token, Token.fullLenAll_cons, Token.fullLenAll_nil, Nat.add_zero]
  | node k es => by rw [fullLen, leaves_node, fullLenAll_eq es]
theorem fullLenAll_eq : ∀ es : List Element, fullLenAll es = Token.fullLenAll (leavesAll es)
  | [] => by rw [fullLenAll, leavesAll_nil, Token.fullLenAll_nil]
  | e :: es => by
    rw [fullLenAll, leavesAll_cons, Token.fullLenAll_append, fullLen_eq e, fullLenAll_eq es]
end

theorem fullLenAll_append (es fs : List Element) :
    fullLenAll (es ++ fs) = fullLenAll es + fullLenAll fs := by
  rw [fullLenAll_eq, fullLenAll_eq, fullLenAll_eq, leavesAll_append, Token.fullLenAll_append]

@[simp] theorem fullLenAll_singleton (e : Element) : fullLenAll [e] = e.fullLen := by
  rw [fullLenAll, fullLenAll, Nat.add_zero]

mutual
theorem firstToken?_eq : ∀ e : Element, e.firstToken? = e.leaves.head?
  | token t => by rw [firstToken?, leaves_token, List.head?_cons]
  | node k es => by rw [firstToken?, leaves_node, firstTokenOf?_eq es]
theorem firstTokenOf?_eq : ∀ es : List Element, firstTokenOf? es = (leavesAll es).head?
  | [] => by rw [firstTokenOf?, leavesAll_nil, List.head?_nil]
  | e :: es => by
    rw [firstTokenOf?, leavesAll_cons, List.head?_append, firstToken?_eq e, firstTokenOf?_eq es]
    cases e.leaves.head? <;> rfl
end

mutual
theorem lastToken?_eq : ∀ e : Element, e.lastToken? = e.leaves.getLast?
  | token t => by rw [lastToken?, leaves_token, List.getLast?_singleton]
  | node k es => by rw [lastToken?, leaves_node, lastTokenOf?_eq es]
theorem lastTokenOf?_eq : ∀ es : List Element, lastTokenOf? es = (leavesAll es).getLast?
  | [] => by rw [lastTokenOf?, leavesAll_nil, List.getLast?_nil]
  | e :: es => by
    rw [lastTokenOf?, leavesAll_cons, List.getLast?_append, lastToken?_eq e, lastTokenOf?_eq es]
    cases (leavesAll es).getLast? <;> rfl
end

theorem leadingTrivia_eq (e : Element) :
    e.leadingTrivia = (e.leaves.head?.map (·.leading)).getD [] := by
  rw [leadingTrivia, firstToken?_eq]
  cases e.leaves.head? <;> rfl

theorem trailingTrivia_eq (e : Element) :
    e.trailingTrivia = (e.leaves.getLast?.map (·.trailing)).getD [] := by
  rw [trailingTrivia, lastToken?_eq]
  cases e.leaves.getLast? <;> rfl

@[simp] theorem len_token (t : Token) : (token t).len = t.len := by
  rw [len, leadingTrivia_eq, trailingTrivia_eq, leaves_token, fullLen, Token.fullLen]
  simp only [List.head?_cons, List.getLast?_singleton, Option.map_some, Option.getD_some]
  omega

/-! ### Kinds -/

@[simp] theorem wellKinded_token (t : Token) : (token t).WellKinded ↔ t.kind.isToken = true := by
  rw [WellKinded]

@[simp] theorem wellKinded_node (k : SyntaxKind) (es : List Element) :
    (node k es).WellKinded ↔ k.isNode = true ∧ WellKindedAll es := by
  rw [WellKinded]

@[simp] theorem wellKindedAll_nil : WellKindedAll [] := by rw [WellKindedAll]; trivial

@[simp] theorem wellKindedAll_cons (e : Element) (es : List Element) :
    WellKindedAll (e :: es) ↔ e.WellKinded ∧ WellKindedAll es := by
  rw [WellKindedAll]

@[simp] theorem wellKindedAll_append (es fs : List Element) :
    WellKindedAll (es ++ fs) ↔ WellKindedAll es ∧ WellKindedAll fs := by
  induction es with
  | nil => simp
  | cons e es ih => rw [List.cons_append, wellKindedAll_cons, wellKindedAll_cons, ih, and_assoc]

/-- A node of a well-kinded tree does not count as a token. -/
theorem WellKinded.isToken_eq_false {k : SyntaxKind} {es : List Element}
    (h : (node k es).WellKinded) : k.isToken = false := by
  have hnode := ((wellKinded_node k es).mp h).1
  simpa [SyntaxKind.isNode] using hnode

end Element

namespace Cursor

/-! ### The list of tokens -/

/-- The tokens at or below the place `c` of the element `e`. -/
def tokensOf (e : Element) (c : Cursor) : List Cursor := (descendantsOf e c).filter (·.isToken)

/-- The tokens at or below the children `es` of `p` from index `i` and offset `o` on. -/
def tokensOfAll (es : List Element) (p : Cursor) (i o : Nat) : List Cursor :=
  (descendantsOfAll es p i o).filter (·.isToken)

theorem tokens_eq (c : Cursor) : c.tokens = tokensOf c.element c := rfl

theorem tokensOf_token {t : Token} {c : Cursor} (h : (Element.token t).WellKinded)
    (hc : c.element = .token t) : tokensOf (.token t) c = [c] := by
  have hkind : c.isToken = true := by
    rw [isToken, kind, hc]
    exact (Element.wellKinded_token t).mp h
  rw [tokensOf, descendantsOf, List.filter_cons_of_pos hkind, List.filter_nil]

theorem tokensOf_node {k : SyntaxKind} {es : List Element} {c : Cursor}
    (h : (Element.node k es).WellKinded) (hc : c.element = .node k es) :
    tokensOf (.node k es) c = tokensOfAll es c 0 c.offset := by
  have hkind : ¬ c.isToken = true := by
    rw [isToken, kind, hc, Element.kind, h.isToken_eq_false]
    exact Bool.false_ne_true
  rw [tokensOf, descendantsOf, List.filter_cons_of_neg hkind, tokensOfAll]

@[simp] theorem tokensOfAll_nil (p : Cursor) (i o : Nat) : tokensOfAll [] p i o = [] := by
  rw [tokensOfAll, descendantsOfAll, List.filter_nil]

@[simp] theorem tokensOfAll_cons (e : Element) (es : List Element) (p : Cursor) (i o : Nat) :
    tokensOfAll (e :: es) p i o =
      tokensOf e (.child p i o e) ++ tokensOfAll es p (i + 1) (o + e.fullLen) := by
  rw [tokensOfAll, descendantsOfAll, List.filter_append, tokensOf, tokensOfAll]

mutual
/-- The tokens of a place are the leaves of its element, one behind the other. -/
theorem map_tokensOf : ∀ (e : Element) (c : Cursor), e.WellKinded → c.element = e →
    (tokensOf e c).map (fun x => (x.offset, x.element)) =
      (Token.placed c.offset e.leaves).map fun p => (p.1, .token p.2)
  | .token t, c, h, hc => by
    rw [tokensOf_token h hc, Element.leaves_token, List.map_singleton, hc]
    rfl
  | .node k es, c, h, hc => by
    rw [tokensOf_node h hc, Element.leaves_node,
      map_tokensOfAll es c 0 c.offset ((Element.wellKinded_node k es).mp h).2]
theorem map_tokensOfAll : ∀ (es : List Element) (p : Cursor) (i o : Nat),
    Element.WellKindedAll es →
    (tokensOfAll es p i o).map (fun x => (x.offset, x.element)) =
      (Token.placed o (Element.leavesAll es)).map fun p => (p.1, .token p.2)
  | [], p, i, o, _ => by rw [tokensOfAll_nil, Element.leavesAll_nil]; rfl
  | e :: es, p, i, o, h => by
    obtain ⟨he, hes⟩ := (Element.wellKindedAll_cons e es).mp h
    rw [tokensOfAll_cons, Element.leavesAll_cons, Token.placed_append, List.map_append,
      List.map_append, map_tokensOf e (.child p i o e) he rfl, map_tokensOfAll es p _ _ hes,
      Element.fullLen_eq]
    rfl
end

theorem length_tokensOfAll {es : List Element} (h : Element.WellKindedAll es) (p : Cursor)
    (i o : Nat) : (tokensOfAll es p i o).length = (Element.leavesAll es).length := by
  have hlength := congrArg List.length (map_tokensOfAll es p i o h)
  rw [List.length_map, List.length_map] at hlength
  rw [hlength, ← List.length_map (f := Prod.snd), Token.map_snd_placed]

theorem map_element_tokensOf {e : Element} {c : Cursor} (he : e.WellKinded) (hc : c.element = e) :
    (tokensOf e c).map element = e.leaves.map .token := by
  have hmap := congrArg (List.map Prod.snd) (map_tokensOf e c he hc)
  rw [List.map_map, List.map_map] at hmap
  calc (tokensOf e c).map element
    _ = (Token.placed c.offset e.leaves).map (Element.token ∘ Prod.snd) := hmap
    _ = e.leaves.map .token := by rw [← List.map_map, Token.map_snd_placed]

/-- A token of a place is a leaf. -/
theorem exists_token_of_mem_tokensOf {e : Element} {c x : Cursor} (he : e.WellKinded)
    (hc : c.element = e) (hx : x ∈ tokensOf e c) : ∃ t, x.element = .token t ∧ t ∈ e.leaves := by
  have hmem := List.mem_map_of_mem (f := element) hx
  rw [map_element_tokensOf he hc] at hmem
  obtain ⟨t, ht, heq⟩ := List.mem_map.mp hmem
  exact ⟨t, heq.symm, ht⟩

/-! ### First and last tokens -/

mutual
theorem firstTokenOf?_eq : ∀ (e : Element) (c : Cursor), e.WellKinded → c.element = e →
    firstTokenOf? e c = (tokensOf e c).head?
  | .token t, c, h, hc => by
    rw [tokensOf_token h hc, firstTokenOf?, if_pos ((Element.wellKinded_token t).mp h),
      List.head?_cons]
  | .node k es, c, h, hc => by
    rw [tokensOf_node h hc, firstTokenOf?, if_neg (by simp [h.isToken_eq_false]),
      firstTokenOfAll?_eq es c 0 c.offset ((Element.wellKinded_node k es).mp h).2]
theorem firstTokenOfAll?_eq : ∀ (es : List Element) (p : Cursor) (i o : Nat),
    Element.WellKindedAll es → firstTokenOfAll? es p i o = (tokensOfAll es p i o).head?
  | [], p, i, o, _ => by rw [tokensOfAll_nil, firstTokenOfAll?, List.head?_nil]
  | e :: es, p, i, o, h => by
    obtain ⟨he, hes⟩ := (Element.wellKindedAll_cons e es).mp h
    rw [tokensOfAll_cons, List.head?_append, firstTokenOfAll?,
      firstTokenOf?_eq e (.child p i o e) he rfl, firstTokenOfAll?_eq es p _ _ hes]
    cases (tokensOf e (.child p i o e)).head? <;> rfl
end

theorem firstTokenOf?_eq_none_iff {e : Element} {c : Cursor} (he : e.WellKinded)
    (hc : c.element = e) : firstTokenOf? e c = none ↔ e.leaves = [] := by
  rw [firstTokenOf?_eq e c he hc, List.head?_eq_none_iff, ← List.map_eq_nil_iff (f := element),
    map_element_tokensOf he hc, List.map_eq_nil_iff]

theorem leadingTrivia_token {t : Token} {c : Cursor} (h : (Element.token t).WellKinded)
    (hc : c.element = .token t) : c.leadingTrivia = t.leading := by
  rw [leadingTrivia, firstToken?, hc, firstTokenOf?, if_pos ((Element.wellKinded_token t).mp h),
    Option.bind_some, token?, hc]
  rfl

mutual
theorem lastTokenOf?_eq : ∀ (e : Element) (c : Cursor), e.WellKinded → c.element = e →
    lastTokenOf? e c = (tokensOf e c).getLast?
  | .token t, c, h, hc => by
    rw [tokensOf_token h hc, lastTokenOf?, if_pos ((Element.wellKinded_token t).mp h),
      List.getLast?_singleton]
  | .node k es, c, h, hc => by
    rw [tokensOf_node h hc, lastTokenOf?, if_neg (by simp [h.isToken_eq_false]),
      lastTokenOfAll?_eq es c 0 c.offset ((Element.wellKinded_node k es).mp h).2]
theorem lastTokenOfAll?_eq : ∀ (es : List Element) (p : Cursor) (i o : Nat),
    Element.WellKindedAll es → lastTokenOfAll? es p i o = (tokensOfAll es p i o).getLast?
  | [], p, i, o, _ => by rw [tokensOfAll_nil, lastTokenOfAll?, List.getLast?_nil]
  | e :: es, p, i, o, h => by
    obtain ⟨he, hes⟩ := (Element.wellKindedAll_cons e es).mp h
    rw [tokensOfAll_cons, List.getLast?_append, lastTokenOfAll?,
      lastTokenOf?_eq e (.child p i o e) he rfl, lastTokenOfAll?_eq es p _ _ hes]
    cases (tokensOfAll es p (i + 1) (o + e.fullLen)).getLast? <;> rfl
end

theorem trailingTrivia_token {t : Token} {c : Cursor} (h : (Element.token t).WellKinded)
    (hc : c.element = .token t) : c.trailingTrivia = t.trailing := by
  rw [trailingTrivia, lastToken?, hc, lastTokenOf?, if_pos ((Element.wellKinded_token t).mp h),
    Option.bind_some, token?, hc]
  rfl

/-- The trivia in front of a place is that of its element. -/
theorem leadingTrivia_eq {c : Cursor} (h : c.element.WellKinded) :
    c.leadingTrivia = c.element.leadingTrivia := by
  have hhead := congrArg List.head? (map_element_tokensOf h rfl)
  rw [List.head?_map, List.head?_map, ← firstTokenOf?_eq c.element c h rfl] at hhead
  rw [leadingTrivia, firstToken?, Element.leadingTrivia, Element.firstToken?_eq]
  cases hfirst : firstTokenOf? c.element c with
  | none =>
    rw [hfirst, Option.map_none, eq_comm, Option.map_eq_none_iff] at hhead
    rw [hhead]
    rfl
  | some x =>
    rw [hfirst, Option.map_some, eq_comm] at hhead
    obtain ⟨t, ht, htx⟩ := Option.map_eq_some_iff.mp hhead
    rw [ht, Option.bind_some, token?, ← htx]
    rfl

theorem trailingTrivia_eq {c : Cursor} (h : c.element.WellKinded) :
    c.trailingTrivia = c.element.trailingTrivia := by
  have hlast := congrArg List.getLast? (map_element_tokensOf h rfl)
  rw [List.getLast?_map, List.getLast?_map, ← lastTokenOf?_eq c.element c h rfl] at hlast
  rw [trailingTrivia, lastToken?, Element.trailingTrivia, Element.lastToken?_eq]
  cases hfound : lastTokenOf? c.element c with
  | none =>
    rw [hfound, Option.map_none, eq_comm, Option.map_eq_none_iff] at hlast
    rw [hlast]
    rfl
  | some x =>
    rw [hfound, Option.map_some, eq_comm] at hlast
    obtain ⟨t, ht, htx⟩ := Option.map_eq_some_iff.mp hlast
    rw [ht, Option.bind_some, token?, ← htx]
    rfl

/-! ### Neighbours -/

theorem childrenFrom_append (p : Cursor) (i o : Nat) (es fs : List Element) :
    childrenFrom p i o (es ++ fs) =
      childrenFrom p i o es ++ childrenFrom p (i + es.length) (o + Element.fullLenAll es) fs := by
  induction es generalizing i o with
  | nil => rw [List.nil_append, Element.fullLenAll]; rfl
  | cons e es ih =>
    rw [List.cons_append, childrenFrom, childrenFrom, ih, List.cons_append, List.length_cons,
      Element.fullLenAll, Nat.add_assoc o, Nat.add_assoc i, Nat.add_comm 1]

theorem map_element_childrenFrom (p : Cursor) (i o : Nat) (es : List Element) :
    (childrenFrom p i o es).map element = es := by
  induction es generalizing i o with
  | nil => rfl
  | cons e es ih => rw [childrenFrom, List.map_cons, ih, element]

theorem map_element_children (c : Cursor) : c.children.map element = c.element.children :=
  map_element_childrenFrom c 0 c.offset c.element.children

/-- The children of a node, by their places. -/
theorem eq_map_element_children {c : Cursor} {k : SyntaxKind} {es : List Element}
    (hc : c.element = .node k es) :
    es = c.children.map element := by
  rw [map_element_children, hc]
  rfl

theorem takeWhile_childrenFrom (q : Element → Bool) (p : Cursor) (i o : Nat) (es : List Element) :
    (childrenFrom p i o es).takeWhile (fun c => q c.element) =
      childrenFrom p i o (es.takeWhile q) := by
  induction es generalizing i o with
  | nil => rfl
  | cons e es ih =>
    rw [childrenFrom, List.takeWhile_cons, List.takeWhile_cons, element]
    cases q e with
    | true => rw [if_pos rfl, if_pos rfl, ih, childrenFrom]
    | false => rfl

/-- The first child of a kind stands behind children of other kinds. -/
theorem find?_children {p : Cursor} {front back : List Element} {e : Element} (q : SyntaxKind → Bool)
    (h : p.element.children = front ++ e :: back) (hfront : ∀ f ∈ front, q f.kind = false)
    (he : q e.kind = true) : p.children.find? (fun c => q c.kind) =
      some (child p front.length (p.offset + Element.fullLenAll front) e) := by
  have hnone : (childrenFrom p 0 p.offset front).find? (fun c => q c.kind) = none := by
    rw [List.find?_eq_none]
    intro c hc hq
    have hmem := List.mem_map_of_mem (f := element) hc
    rw [map_element_childrenFrom] at hmem
    rw [kind, hfront _ hmem] at hq
    cases hq
  rw [children, h, childrenFrom_append, List.find?_append, hnone, Option.none_or, childrenFrom,
    List.find?_cons, kind, element, he, Nat.zero_add]

theorem map_index_childrenFrom (p : Cursor) (i o : Nat) (es : List Element) :
    (childrenFrom p i o es).map index = List.range' i es.length := by
  induction es generalizing i o with
  | nil => rfl
  | cons e es ih => rw [childrenFrom, List.map_cons, ih, List.length_cons, List.range'_succ, index]

/-- No two children of a place have the same index. -/
theorem map_index_children_nodup (p : Cursor) : (p.children.map index).Nodup := by
  rw [children, map_index_childrenFrom]
  exact List.nodup_range'

@[simp] theorem length_childrenFrom (p : Cursor) (i o : Nat) (es : List Element) :
    (childrenFrom p i o es).length = es.length := by
  induction es generalizing i o with
  | nil => rfl
  | cons e es ih => rw [childrenFrom, List.length_cons, ih, List.length_cons]

theorem tokensOfAll_append (es fs : List Element) (p : Cursor) (i o : Nat) :
    tokensOfAll (es ++ fs) p i o =
      tokensOfAll es p i o ++ tokensOfAll fs p (i + es.length) (o + Element.fullLenAll es) := by
  induction es generalizing i o with
  | nil => rw [List.nil_append, tokensOfAll_nil, Element.fullLenAll]; rfl
  | cons e es ih =>
    rw [List.cons_append, tokensOfAll_cons, tokensOfAll_cons, ih, List.append_assoc,
      List.length_cons, Element.fullLenAll, Nat.add_assoc o, Nat.add_assoc i, Nat.add_comm 1]

theorem findSome?_firstToken? {es : List Element} (h : Element.WellKindedAll es) (p : Cursor)
    (i o : Nat) : (childrenFrom p i o es).findSome? firstToken? = (tokensOfAll es p i o).head? := by
  induction es generalizing i o with
  | nil => rw [tokensOfAll_nil]; rfl
  | cons e es ih =>
    obtain ⟨he, hes⟩ := (Element.wellKindedAll_cons e es).mp h
    have hfirst : firstToken? (.child p i o e) = (tokensOf e (.child p i o e)).head? :=
      firstTokenOf?_eq e _ he rfl
    rw [childrenFrom, List.findSome?_cons, hfirst, ih hes, tokensOfAll_cons, List.head?_append]
    cases (tokensOf e (.child p i o e)).head? <;> rfl

theorem findSome?_lastToken? {es : List Element} (h : Element.WellKindedAll es) (p : Cursor)
    (i o : Nat) :
    (childrenFrom p i o es).reverse.findSome? lastToken? = (tokensOfAll es p i o).getLast? := by
  induction es generalizing i o with
  | nil => rw [tokensOfAll_nil]; rfl
  | cons e es ih =>
    obtain ⟨he, hes⟩ := (Element.wellKindedAll_cons e es).mp h
    have hlast : lastToken? (.child p i o e) = (tokensOf e (.child p i o e)).getLast? :=
      lastTokenOf?_eq e _ he rfl
    rw [childrenFrom, List.reverse_cons, List.findSome?_append, ih hes, tokensOfAll_cons,
      List.getLast?_append, List.findSome?_cons, hlast]
    cases (tokensOf e (.child p i o e)).getLast? <;> rfl

section Neighbours

variable {p : Cursor} {front back : List Element} {e : Element}

theorem preceding_child (h : p.element.children = front ++ e :: back) (o : Nat) :
    (child p front.length o e).preceding = (childrenFrom p 0 p.offset front).reverse := by
  rw [preceding, children, h, childrenFrom_append,
    List.take_left' (length_childrenFrom p 0 p.offset front)]

theorem following_child (h : p.element.children = front ++ e :: back) (o : Nat) :
    (child p front.length o e).following = childrenFrom p (front.length + 1)
      (p.offset + Element.fullLenAll front + e.fullLen) back := by
  rw [following, children, h, childrenFrom_append, childrenFrom, Nat.zero_add,
    List.drop_append, List.drop_eq_nil_of_le (by simp), length_childrenFrom,
    Nat.add_sub_cancel_left, List.nil_append]
  rfl

/-- The token in front of a child is the last one of the children in front of it, or the one in
front of the parent. -/
theorem prevToken?_child (h : p.element.children = front ++ e :: back)
    (hkinds : Element.WellKindedAll p.element.children) (o : Nat) :
    (child p front.length o e).prevToken? =
      (tokensOfAll front p 0 p.offset).getLast?.or p.prevToken? := by
  rw [prevToken?, preceding_child h]
  rw [h, Element.wellKindedAll_append] at hkinds
  rw [findSome?_lastToken? hkinds.1]
  cases (tokensOfAll front p 0 p.offset).getLast? <;> rfl

/-- The token behind a child is the first one of the children behind it, or the one behind the
parent. -/
theorem nextToken?_child (h : p.element.children = front ++ e :: back)
    (hkinds : Element.WellKindedAll p.element.children) :
    (child p front.length (p.offset + Element.fullLenAll front) e).nextToken? =
      (tokensOfAll back p (front.length + 1)
        (p.offset + Element.fullLenAll front + e.fullLen)).head?.or p.nextToken? := by
  rw [nextToken?, following_child h]
  rw [h, Element.wellKindedAll_append, Element.wellKindedAll_cons] at hkinds
  rw [findSome?_firstToken? hkinds.2.2]
  cases (tokensOfAll back p (front.length + 1)
    (p.offset + Element.fullLenAll front + e.fullLen)).head? <;> rfl

end Neighbours

/-- Tokens each of which has its neighbours in the list as its neighbours in the tree; `before` and
`behind` are the tokens around the list. -/
def Linked (before : Option Cursor) : List Cursor → (behind : Option Cursor) → Prop
  | [], _ => True
  | x :: xs, behind =>
    x.prevToken? = before ∧ x.nextToken? = xs.head?.or behind ∧ Linked (some x) xs behind

theorem Linked.append {before behind : Option Cursor} {xs ys : List Cursor}
    (hxs : Linked before xs (ys.head?.or behind)) (hys : Linked (xs.getLast?.or before) ys behind) :
    Linked before (xs ++ ys) behind := by
  induction xs generalizing before with
  | nil => exact hys
  | cons x xs ih =>
    obtain ⟨hprev, hnext, hrest⟩ := hxs
    rw [List.cons_append]
    refine ⟨hprev, ?_, ih hrest ?_⟩
    · rw [hnext, List.head?_append]
      cases xs.head? <;> rfl
    · rw [List.getLast?_cons] at hys
      cases hlast : xs.getLast? with
      | none => simpa [hlast] using hys
      | some y => simpa [hlast] using hys

section Linked

variable {before behind : Option Cursor} {xs : List Cursor} {x y : Cursor}

/-- A token in front of one of the list is not the last of the list, or stands around the list. -/
theorem Linked.mem_dropLast_of_prevToken? (h : Linked before xs behind) (hx : x ∈ xs)
    (hy : x.prevToken? = some y) : before = some y ∨ y ∈ xs.dropLast := by
  induction xs generalizing before with
  | nil => cases hx
  | cons z xs ih =>
    obtain ⟨hprev, -, hrest⟩ := h
    rcases List.mem_cons.mp hx with rfl | hx
    · exact .inl (hprev.symm.trans hy)
    · rw [List.dropLast_cons_of_ne_nil (List.ne_nil_of_mem hx), List.mem_cons]
      exact .inr ((ih hrest hx).imp (fun hz => (Option.some.inj hz).symm) id)

/-- A token in front of another one is not the last of the list, or the other one stands around the
list. -/
theorem Linked.mem_dropLast_of_nextToken? (h : Linked before xs behind) (hx : x ∈ xs)
    (hy : x.nextToken? = some y) : behind = some y ∨ x ∈ xs.dropLast := by
  induction xs generalizing before with
  | nil => cases hx
  | cons z xs ih =>
    obtain ⟨-, hnext, hrest⟩ := h
    cases xs with
    | nil =>
      rw [List.mem_singleton] at hx
      subst hx
      exact .inl (hnext.symm.trans hy)
    | cons w xs =>
      rw [List.dropLast_cons_of_ne_nil (List.cons_ne_nil w xs), List.mem_cons]
      rcases List.mem_cons.mp hx with rfl | hx
      · exact .inr (.inl rfl)
      · exact (ih hrest hx).imp id .inr

end Linked

mutual
/-- **Neighbours**: the token in front of a token and the one behind it are its neighbours in the
list of tokens. -/
theorem linked_tokensOf : ∀ (e : Element) (c : Cursor), e.WellKinded → c.element = e →
    Linked c.prevToken? (tokensOf e c) c.nextToken?
  | .token t, c, h, hc => by
    rw [tokensOf_token h hc]
    exact ⟨rfl, rfl, trivial⟩
  | .node k es, c, h, hc => by
    have hkinds := ((Element.wellKinded_node k es).mp h).2
    have hchildren : c.element.children = [] ++ es := by rw [hc]; rfl
    rw [tokensOf_node h hc]
    have hall := linked_tokensOfAll es c [] hchildren (by rw [hc]; exact hkinds)
    rwa [tokensOfAll_nil, Element.fullLenAll] at hall
theorem linked_tokensOfAll : ∀ (es : List Element) (p : Cursor) (front : List Element),
    p.element.children = front ++ es → Element.WellKindedAll p.element.children →
    Linked ((tokensOfAll front p 0 p.offset).getLast?.or p.prevToken?)
      (tokensOfAll es p front.length (p.offset + Element.fullLenAll front)) p.nextToken?
  | [], p, front, _, _ => by
    rw [tokensOfAll_nil]
    exact trivial
  | e :: es, p, front, h, hkinds => by
    have hsplit := hkinds
    rw [h, Element.wellKindedAll_append, Element.wellKindedAll_cons] at hsplit
    have hhere := linked_tokensOf e
      (.child p front.length (p.offset + Element.fullLenAll front) e) hsplit.2.1 rfl
    rw [prevToken?_child h hkinds, nextToken?_child h hkinds] at hhere
    have hrest := linked_tokensOfAll es p (front ++ [e]) (by rw [h, List.append_assoc]; rfl) hkinds
    rw [tokensOfAll_append, List.getLast?_append, List.length_append, tokensOfAll_cons,
      tokensOfAll_nil, List.append_nil, Nat.zero_add, Element.fullLenAll_append, Element.fullLenAll_singleton,
      Option.or_assoc, ← Nat.add_assoc] at hrest
    rw [tokensOfAll_cons]
    exact hhere.append hrest
end

end Cursor

end SwiftTidy
