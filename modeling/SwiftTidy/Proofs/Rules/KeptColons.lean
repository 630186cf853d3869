import SwiftTidy.Proofs.Directive.Retouched
import SwiftTidy.Proofs.Parse.AroundColons
import SwiftTidy.Proofs.Rules.TokenSpacing
import SwiftTidy.Proofs.Tree.Neighbours

/-!
# Colons that are left

A pass over the colons of a file leaves the same tree with other blanks next to some of the colons
(`recoloned_of_made`), and its text is read into this tree (`parse_of_made`): there is room for the blanks,
and blanks are left out only in front of colons that no node holds as they come (`clearsAll_startsColon`).
The lines stay as they are, so the rule is disabled at the same places in both.

Every token of the new tree stands where one of the old tree did, with the same trivia in front of it
(`SpacingEdit.Stands`).  What the rule finds at a colon again it found there before, and no edit was made for
it (`exists_edit_of_stands`): an edit that was made leaves nothing to correct, and no edit of another colon
reaches what stands next to this one.  So the rule was disabled there, and is so again
(`isSuppressed_of_made`).
-/

namespace SwiftTidy

open Text (Portion)

open Text.Portion (before after Lined Place)

theorem SyntaxKind.isColonHost_eq_false {k : SyntaxKind} (h : k.holdsTokens = true) :
    k.isColonHost = false := by
  rw [holdsTokens, Bool.or_eq_true, beq_iff_eq, beq_iff_eq] at h
  rcases h with rfl | rfl <;> rfl

/-! ### The same places of two trees -/

namespace Element

mutual
theorem wellKinded_stripped : ∀ e : Element, e.stripped.WellKinded ↔ e.WellKinded
  | .token t => by
    rw [stripped_token, wellKinded_token, wellKinded_token]
  | .node k es => by
    rw [stripped_node, wellKinded_node, wellKinded_node, wellKindedAll_strippedAll es]
theorem wellKindedAll_strippedAll : ∀ es : List Element, WellKindedAll (strippedAll es) ↔ WellKindedAll es
  | [] => by rw [strippedAll_nil]
  | e :: es => by
    rw [strippedAll_cons, wellKindedAll_cons, wellKindedAll_cons, wellKinded_stripped e,
      wellKindedAll_strippedAll es]
end

end Element

namespace Cursor

/-- Places on the same way through trees that are the same without trivia. -/
inductive Alike : Cursor → Cursor → Prop
  | root {e e' : Element} (h : e'.stripped = e.stripped) : Alike (.root e) (.root e')
  | child {p q : Cursor} {i o o' : Nat} {e e' : Element} (hp : Alike p q) (h : e'.stripped = e.stripped) :
      Alike (.child p i o e) (.child q i o' e')

variable {x y : Cursor}

theorem Alike.kind_eq (h : Alike x y) : y.kind = x.kind := by
  rw [kind, kind, ← Element.kind_stripped, ← Element.kind_stripped x.element]
  cases h with
  | root h => exact congrArg Element.kind h
  | child _ h => exact congrArg Element.kind h

theorem Alike.isHosted (h : Alike x y) (hhost : Colon.IsHosted x) : Colon.IsHosted y := by
  obtain ⟨p, hp, hkind⟩ := hhost
  cases h with
  | root => cases hp
  | child hp' _ =>
    cases hp
    exact ⟨_, rfl, hp'.kind_eq ▸ hkind⟩

mutual
theorem alike_descendantsOf : ∀ (e e' : Element) {c c' : Cursor}, Alike c c' → e'.stripped = e.stripped →
    List.Forall₂ Alike (descendantsOf e c) (descendantsOf e' c')
  | .token _, .token _, _, _, hc, _ => by
    rw [descendantsOf, descendantsOf]
    exact .cons hc .nil
  | .node _ es, .node _ fs, _, _, hc, h => by
    rw [Element.stripped_node, Element.stripped_node] at h
    rw [descendantsOf, descendantsOf]
    exact .cons hc (alike_descendantsOfAll es fs hc 0 _ _ (Element.node.inj h).2)
  | .token _, .node _ _, _, _, _, h => by simp at h
  | .node _ _, .token _, _, _, _, h => by simp at h
theorem alike_descendantsOfAll : ∀ (es fs : List Element) {p q : Cursor}, Alike p q → ∀ i o o' : Nat,
    Element.strippedAll fs = Element.strippedAll es →
    List.Forall₂ Alike (descendantsOfAll es p i o) (descendantsOfAll fs q i o')
  | [], [], _, _, _, _, _, _, _ => by
    rw [descendantsOfAll, descendantsOfAll]
    exact .nil
  | e :: es, f :: fs, _, _, hp, i, o, o', h => by
    rw [Element.strippedAll_cons, Element.strippedAll_cons, List.cons.injEq] at h
    rw [descendantsOfAll, descendantsOfAll]
    exact List.rel_append (alike_descendantsOf e f (.child hp h.1) h.1)
      (alike_descendantsOfAll es fs hp (i + 1) _ _ h.2)
  | [], _ :: _, _, _, _, _, _, _, h => by simp at h
  | _ :: _, [], _, _, _, _, _, _, h => by simp at h
end

/-- The tokens of trees that are the same without trivia stand at the same places. -/
theorem alike_tokens {tree tree' : Element} (h : tree'.stripped = tree.stripped) :
    List.Forall₂ Alike (root tree).tokens (root tree').tokens :=
  List.rel_filter (fun x y hxy => by simp only [isToken, hxy.kind_eq])
    (alike_descendantsOf tree tree' (.root h) h)

/-- The place is that of a token, which starts at a byte. -/
structure PointsAt (x : Cursor) (p : Nat × Token) : Prop where
  offset : x.offset = p.1
  element : x.element = .token p.2
  isToken : p.2.kind.isToken = true

namespace PointsAt

variable {p : Nat × Token}

theorem leadingTrivia (h : x.PointsAt p) : x.leadingTrivia = p.2.leading :=
  leadingTrivia_token ((Element.wellKinded_token _).mpr h.isToken) h.element

theorem trailingTrivia (h : x.PointsAt p) : x.trailingTrivia = p.2.trailing :=
  trailingTrivia_token ((Element.wellKinded_token _).mpr h.isToken) h.element

theorem endPosition (h : x.PointsAt p) : x.endPosition = p.1 + p.2.leading.len + p.2.len := by
  rw [Cursor.endPosition, position, h.offset, h.element, Element.len_token]
  rfl

end PointsAt

/-- The tokens of a tree, one by one, are its leaves. -/
theorem forall₂_pointsAt {tree : Element} (h : tree.WellKinded) :
    List.Forall₂ PointsAt (root tree).tokens (Token.placed 0 tree.leaves) := by
  have hmap : List.Forall₂ Eq ((root tree).tokens.map fun x => (x.offset, x.element))
      ((Token.placed 0 tree.leaves).map fun p => (p.1, .token p.2)) := by
    rw [List.forall₂_eq_eq_eq]
    exact map_tokensOf tree (root tree) h rfl
  rw [List.forall₂_map_left_iff, List.forall₂_map_right_iff] at hmap
  refine ((List.forall₂_and_left _ _).mpr ⟨fun _ hx => hx, hmap⟩).imp fun x p ⟨hx, hxp⟩ => ?_
  obtain ⟨hoffset, helement⟩ := Prod.mk.inj hxp
  have htoken := (List.mem_filter.mp hx).2
  rw [isToken, kind, helement] at htoken
  exact ⟨hoffset, helement, htoken⟩

/-- Of two tokens one ends before the other one starts. -/
theorem apart_of_mem_tokensOf {c : Cursor} (hc : c.element.WellKinded) (hx : x ∈ tokensOf c.element c)
    (hy : y ∈ tokensOf c.element c) (hne : x ≠ y) : x.fullEnd ≤ y.offset ∨ y.fullEnd ≤ x.offset := by
  have : Std.Symm fun x y : Cursor => x.fullEnd ≤ y.offset ∨ y.fullEnd ≤ x.offset := ⟨fun _ _ => Or.symm⟩
  have hapart : (tokensOf c.element c).Pairwise fun x y => x.fullEnd ≤ y.offset ∨ y.fullEnd ≤ x.offset :=
    (pairwise_tokensOf hc).imp .inl
  exact hapart.forall hx hy hne

mutual
/-- Where tokens are held as they come, no colon starts at a byte of `M`, if none does in the text. -/
theorem clears_of_descendants {M : Nat → Prop} : ∀ (e : Element) (c : Cursor), c.element = e →
    (∀ x ∈ descendantsOf e c, ∀ p, x.parent? = some p → p.kind.holdsTokens = true → x.kind = .colon →
      ¬ M x.offset) → Element.Clears M c.offset e
  | .token _, _, _, _ => by
    rw [Element.Clears]
    trivial
  | .node k es, c, hc, h => by
    rw [descendantsOf] at h
    have hall := (List.forall_mem_cons.mp h).2
    rw [Element.Clears]
    refine ⟨fun hk front t back hes hkind => ?_, clearsAll_of_descendants es c 0 c.offset hall⟩
    refine hall (.child c (0 + front.length) (c.offset + Element.fullLenAll front) (.token t)) ?_ c rfl
      (by rwa [Cursor.kind, hc]) hkind
    rw [hes, descendantsOfAll_append, descendantsOfAll, descendantsOf]
    exact List.mem_append_right _ List.mem_cons_self
theorem clearsAll_of_descendants {M : Nat → Prop} : ∀ (es : List Element) (p : Cursor) (i o : Nat),
    (∀ x ∈ descendantsOfAll es p i o, ∀ q, x.parent? = some q → q.kind.holdsTokens = true →
      x.kind = .colon → ¬ M x.offset) → Element.ClearsAll M o es
  | [], _, _, _, _ => by
    rw [Element.ClearsAll]
    trivial
  | e :: es, p, i, o, h => by
    rw [descendantsOfAll, List.forall_mem_append] at h
    rw [Element.ClearsAll]
    exact ⟨clears_of_descendants e (.child p i o e) rfl h.1, clearsAll_of_descendants es p _ _ h.2⟩
end

end Cursor

/-! ### Other blanks behind tokens -/

namespace Trivia.IsGap

variable {t : Trivia}

theorem containsComment (h : t.IsGap) : t.containsComment = false := by
  rcases h with rfl | ⟨s, -, rfl⟩ <;> rfl

theorem isPlain (h : t.IsGap) : ∀ c ∈ t.text.toList, Text.IsPlain c := by
  rcases h with rfl | ⟨s, hs, rfl⟩
  · exact List.forall_mem_nil _
  · intro c hc
    rw [Trivia.toList_text_cons, Trivia.toList_text_nil, List.append_nil] at hc
    have hblank := hs.2 c hc
    constructor <;> rintro rfl <;> cases hblank

end Trivia.IsGap

/-- Tokens that differ in the blanks behind them alone; behind the end of the file there are none. -/
structure Token.Regapped (t u : Token) : Prop where
  text : u.text = t.text
  leading : u.leading = t.leading
  trailing : u.trailing = t.trailing ∨ t.text ≠ "" ∧ t.trailing.IsGap ∧ u.trailing.IsGap

namespace Text.Portion

variable {ts us : List Token} {P : Nat → Prop} {s : Place} {o o' : Nat} {qs : List Portion}

/-- The parts of trivia that is kept, or replaced as a whole. -/
def ofGap (s t : Trivia) : List Portion :=
  if t = s then ofTrivia s else [.replace s.text.toList t.text.toList]

/-- The parts of tokens behind which there are other blanks. -/
def ofTokens : List Token → List Token → List Portion
  | t :: ts, u :: us =>
    ofTrivia t.leading ++ (t.text.toList.map .keep ++ (ofGap t.trailing u.trailing ++ ofTokens ts us))
  | _, _ => []

theorem turns_ofGap {s t : Trivia} (h : t = s ∨ s.IsGap ∧ t.IsGap) : s.Turns t (ofGap s t) := by
  rw [ofGap]
  split_ifs with heq
  · rw [heq]
    exact turns_ofTrivia s
  · obtain ⟨hs, ht⟩ := h.resolve_left heq
    have hturns := Trivia.Turns.replace hs.containsComment ht.containsComment .nil
    rwa [List.append_nil, List.append_nil] at hturns

theorem turns_ofTokens (h : List.Forall₂ Token.Regapped ts us) : Token.Turns ts us (ofTokens ts us) := by
  induction h with
  | nil => exact .nil
  | @cons t u ts us htu _ ih =>
    have hleading := turns_ofTrivia t.leading
    rw [← htu.leading] at hleading
    rw [ofTokens, ← htu.leading]
    refine .cons ?_ htu.text (turns_ofGap (htu.trailing.imp_right And.right)) ih
    rwa [htu.leading] at hleading ⊢

/-- The lines stay as they are. -/
theorem lined_ofTokens (hts : ∀ t ∈ ts, t.KeepsLines) (hpos : ∀ t ∈ ts.dropLast, 0 < t.len)
    (h : List.Forall₂ Token.Regapped ts us) (hs : s ≠ .dropped) : Lined P s o (ofTokens ts us) := by
  induction h generalizing s o with
  | nil => exact .nil hs
  | @cons t u ts us htu hrest ih =>
    obtain ⟨ht, hts⟩ := List.forall_mem_cons.mp hts
    have hempty : t.text = "" → ofGap t.trailing u.trailing ++ ofTokens ts us = [] := by
      intro htext
      cases hrest with
      | nil =>
        rcases htu.trailing with heq | ⟨hne, -⟩
        · rw [heq, ofGap, if_pos rfl, ht.trailing_eq_nil htext]
          rfl
        · exact absurd htext hne
      | cons =>
        rw [List.dropLast_cons_cons, List.forall_mem_cons, Token.len, htext] at hpos
        exact absurd hpos.1 (Nat.lt_irrefl 0)
    have hbehind : ∀ o, Lined P .inside o (ofTokens ts us) := fun o =>
      ih hts (fun v hv => hpos v (by cases hrest <;> simp_all [List.dropLast])) (by decide)
    refine lined_leading ht.leading ht.apart hs (head?_lexeme ht hempty).1 (head?_lexeme ht hempty).2
      fun s hs => lined_lexeme ht hs hempty ?_
    rw [ofGap]
    split_ifs with heq
    · exact lined_ofTrivia ht.trailing ht.stays (hbehind _)
    · obtain ⟨-, hgap, hgap'⟩ := htu.trailing.resolve_left heq
      exact .change hgap.isPlain hgap'.isPlain (hbehind _)

/-- What follows characters that are kept is kept where it starts, if the rest is. -/
theorem kept_start {w : List Char} (h : kept o qs o = true ∧ moved o o' qs o = o') :
    kept o (w.map keep ++ qs) o = true ∧ moved o o' (w.map keep ++ qs) o = o' := by
  cases w with
  | nil => exact h
  | cons c w =>
    have hpos := c.utf8Size_pos
    exact kept_map_keep (k := 0) (by rw [String.utf8Len_cons]; omega)

theorem ofTrivia_eq (t : Trivia) : ofTrivia t = t.text.toList.map .keep := by
  induction t with
  | nil => rfl
  | cons p t ih => rw [ofTrivia, List.flatMap_cons, ← ofTrivia, ih, Trivia.toList_text_cons, List.map_append]

/-- Tokens are kept where they start. -/
theorem kept_ofTokens (h : List.Forall₂ Token.Regapped ts us) (o o' : Nat) :
    kept o (ofTokens ts us) o = true ∧ moved o o' (ofTokens ts us) o = o' := by
  induction h with
  | nil => exact ⟨rfl, by rw [show ofTokens [] [] = [] from rfl, moved, Nat.sub_self, Nat.add_zero]⟩
  | @cons t u ts us htu _ ih =>
    rw [ofTokens, ofTrivia_eq]
    refine kept_start ?_
    rcases htu.trailing with heq | ⟨hne, -⟩
    · rw [ofGap, if_pos heq, ofTrivia_eq]
      exact kept_start (kept_start ih)
    · have hpos : 0 < String.utf8Len t.text.toList := by
        rw [← utf8ByteSize_eq, Nat.pos_iff_ne_zero, ne_eq, String.utf8ByteSize_eq_zero_iff]
        exact hne
      exact kept_map_keep (k := 0) hpos

/-- The end of a token is kept, if the trivia behind it is. -/
def KeepsEnd (o o' : Nat) (ps : List Portion) (p q : Nat × Token) : Prop :=
  q.2.trailing = p.2.trailing →
    kept o ps (p.1 + p.2.leading.len + p.2.len) = true ∧
      moved o o' ps (p.1 + p.2.leading.len + p.2.len) = q.1 + q.2.leading.len + q.2.len

theorem keepsEnd_ofTokens (h : List.Forall₂ Token.Regapped ts us) (o o' : Nat) :
    List.Forall₂ (fun p q => o ≤ p.1 ∧ KeepsEnd o o' (ofTokens ts us) p q)
      (Token.placed o ts) (Token.placed o' us) := by
  induction h generalizing o o' with
  | nil => exact .nil
  | @cons t u ts us htu hrest ih =>
    have hlexeme : String.utf8Len (before (ofTrivia t.leading ++ t.text.toList.map .keep)) =
          t.leading.len + t.len ∧
        String.utf8Len (after (ofTrivia t.leading ++ t.text.toList.map .keep)) = u.leading.len + u.len := by
      rw [before_append, after_append, before_ofTrivia, after_ofTrivia, before_map_keep, after_map_keep,
        String.utf8Len_append, Trivia.utf8Len_text, ← utf8ByteSize_eq, htu.leading, Token.len, Token.len,
        htu.text]
      exact ⟨rfl, rfl⟩
    have hgap := turns_ofGap (htu.trailing.imp_right And.right)
    rw [ofTokens, ← List.append_assoc, Token.placed, Token.placed]
    refine .cons ⟨Nat.le_refl o, fun hsame => ?_⟩ ((ih (o + t.fullLen) (o' + u.fullLen)).imp ?_)
    · rw [kept_append (by rw [hlexeme.1, Nat.add_assoc]), moved_append (by rw [hlexeme.1, Nat.add_assoc]),
        hlexeme.1, hlexeme.2, Nat.add_assoc, Nat.add_assoc, ofGap, if_pos hsame, ofTrivia_eq]
      exact kept_start (kept_ofTokens hrest _ _)
    · rintro p q ⟨hle, hend⟩
      refine ⟨by omega, fun hsame => ?_⟩
      have hfront : String.utf8Len (before (ofGap t.trailing u.trailing)) = t.trailing.len ∧
          String.utf8Len (after (ofGap t.trailing u.trailing)) = u.trailing.len := by
        rw [hgap.before_eq, hgap.after_eq, Trivia.utf8Len_text, Trivia.utf8Len_text]
        exact ⟨rfl, rfl⟩
      have hstart : o + (t.leading.len + t.len) + t.trailing.len = o + t.fullLen := by
        rw [Token.fullLen]
        omega
      have hstart' : o' + (u.leading.len + u.len) + u.trailing.len = o' + u.fullLen := by
        rw [Token.fullLen]
        omega
      rw [kept_append (by rw [hlexeme.1]; omega), moved_append (by rw [hlexeme.1]; omega), hlexeme.1,
        hlexeme.2, kept_append (by rw [hfront.1]; omega), moved_append (by rw [hfront.1]; omega), hfront.1,
        hfront.2, hstart, hstart']
      exact hend hsame

end Text.Portion

/-! ### The tokens of the new tree -/

namespace SpacingEdit

/-- What has become of a token in a tree that edits have made: it stands at the same place, and with the
same trivia in front.  Behind it stands what one of the edits sets there, or what was there if none does; then
its end is at a byte that is kept. -/
structure Stands (P : SpacingEdit → Prop) (ps : List Portion) (x y : Cursor) : Prop where
  alike : x.Alike y
  leading : y.leadingTrivia = x.leadingTrivia
  trailing : (y.trailingTrivia = x.trailingTrivia ∧ ∀ e v, P e → ¬ e.Sets x v) ∨
    ∃ e, P e ∧ e.Sets x y.trailingTrivia
  ends : y.trailingTrivia = x.trailingTrivia →
    Portion.kept 0 ps x.endPosition = true ∧ Portion.moved 0 0 ps x.endPosition = y.endPosition

variable {tree tree' : Element} {P : SpacingEdit → Prop}

theorem forall₂_stands (h : tree.WellKinded) (h' : tree'.WellKinded)
    (hstripped : tree'.stripped = tree.stripped)
    (hbecomes : List.Forall₂ (Becomes P) (Cursor.root tree).tokens tree'.leaves)
    (hregapped : List.Forall₂ Token.Regapped tree.leaves tree'.leaves) :
    List.Forall₂ (Stands P (Portion.ofTokens tree.leaves tree'.leaves)) (Cursor.root tree).tokens
      (Cursor.root tree').tokens := by
  have hbecomes : List.Forall₂ (fun x q => Becomes P x q.2) (Cursor.root tree).tokens
      (Token.placed 0 tree'.leaves) := by
    rw [← List.forall₂_map_right_iff, Token.map_snd_placed]
    exact hbecomes
  -- the tokens of both trees correspond through the bytes at which they start
  have hends := forall₂_trans (T := fun x q => ∃ p, x.PointsAt p ∧ Portion.KeepsEnd 0 0
      (Portion.ofTokens tree.leaves tree'.leaves) p q)
    (Cursor.forall₂_pointsAt h) (Portion.keepsEnd_ofTokens hregapped 0 0) fun _ p _ hp hpq => ⟨p, hp, hpq.2⟩
  have hstands := forall₂_trans
    (T := fun x y => x.Alike y → Stands P (Portion.ofTokens tree.leaves tree'.leaves) x y)
    (hends.mp (fun _ _ hxq hbecomes => And.intro hxq hbecomes) hbecomes) (Cursor.forall₂_pointsAt h').flip ?_
  · exact hstands.mp (fun x y hxy halike => hxy halike) (Cursor.alike_tokens hstripped)
  rintro x q y ⟨⟨p, hp, hends⟩, t, ht, -, hleading, htrailing⟩ hq halike
  obtain rfl : p.2 = t := Element.token.inj (hp.element.symm.trans ht)
  rw [← hp.trailingTrivia, ← hq.trailingTrivia] at htrailing
  rw [Portion.KeepsEnd, ← hp.trailingTrivia, ← hq.trailingTrivia, ← hp.endPosition, ← hq.endPosition] at hends
  exact ⟨halike, by rw [hp.leadingTrivia, hq.leadingTrivia, hleading], htrailing, hends⟩

end SpacingEdit

/-- The token behind one of a list with nothing behind it is in the list. -/
theorem Cursor.Linked.mem_of_nextToken? {front : Option Cursor} {xs : List Cursor} {x y : Cursor}
    (h : Linked front xs none) (hx : x ∈ xs) (hy : x.nextToken? = some y) : y ∈ xs := by
  obtain ⟨front, back, rfl⟩ := List.append_of_mem hx
  rw [h.nextToken?_eq, Option.or_none] at hy
  exact List.mem_append_right _ (List.mem_cons_of_mem _ (List.mem_of_mem_head? hy))

/-- Around a token that has one in front and one behind, lists of tokens are related too. -/
theorem Cursor.Linked.exists_around {R : Cursor → Cursor → Prop} {xs ys : List Cursor} {x' y' z' : Cursor}
    (hxs : Linked none xs none) (hys : Linked none ys none) (h : List.Forall₂ R xs ys) (hy : y' ∈ ys)
    (hprev : y'.prevToken? = some x') (hnext : y'.nextToken? = some z') :
    ∃ x y z, x ∈ xs ∧ y ∈ xs ∧ y.prevToken? = some x ∧ y.nextToken? = some z ∧ R x x' ∧ R y y' ∧ R z z' := by
  obtain ⟨front, back, rfl⟩ := List.append_of_mem hy
  rw [hys.prevToken?_eq, Option.or_none, List.getLast?_eq_some_iff] at hprev
  rw [hys.nextToken?_eq, Option.or_none, List.head?_eq_some_iff] at hnext
  obtain ⟨front, rfl⟩ := hprev
  obtain ⟨back, rfl⟩ := hnext
  rw [List.append_assoc, List.singleton_append] at h
  have hback := List.forall₂_drop_append _ _ _ h
  rw [List.forall₂_cons_right_iff] at hback
  obtain ⟨x, l, hx, hl, hdrop⟩ := hback
  rw [List.forall₂_cons_right_iff] at hl
  obtain ⟨y, l, hy, hl, rfl⟩ := hl
  rw [List.forall₂_cons_right_iff] at hl
  obtain ⟨z, l, hz, -, rfl⟩ := hl
  have hsplit : xs = (xs.take front.length ++ [x]) ++ y :: z :: l := by
    rw [List.append_assoc, List.singleton_append, ← hdrop, List.take_append_drop]
  rw [hsplit] at hxs
  refine ⟨x, y, z, by rw [hsplit]; simp, by rw [hsplit]; simp, ?_, ?_, hx, hy, hz⟩
  · rw [hxs.prevToken?_eq, List.getLast?_concat, Option.some_or]
  · rw [hxs.nextToken?_eq, List.head?_cons, Option.some_or]

namespace Colon

open SpacingEdit (Becomes Stands)

variable {source : String} {tree : Element} {o : Options} {x y z : Cursor} {e : SpacingEdit} {v : Trivia}

/-! ### The edits of colons -/

/-- The edit of the colon `y` between two tokens. -/
def editBetween (o : Options) (sides : Sides) (x y z : Cursor) : SpacingEdit where
  position := x.endPosition
  token := y
  before := if leftIsFine x.trailingTrivia y.leadingTrivia then none else some []
  after := if rightIsFine o sides y.trailingTrivia z then none else some (Trivia.spaces 1)

/-- No comment is near the colon `y`. -/
structure IsUncommented (x y z : Cursor) : Prop where
  before : x.trailingTrivia.containsComment = false
  leading : y.leadingTrivia.containsComment = false
  after : y.trailingTrivia.containsComment = false
  next : z.leadingTrivia.containsComment = false

theorem edit?_eq_some_iff : edit? o y = some e ↔ ∃ sides x z, sides? o y = some sides ∧
    y.prevToken? = some x ∧ y.nextToken? = some z ∧ IsUncommented x y z ∧ e = editBetween o sides x y z ∧
      e.isEmpty = false := by
  simp only [edit?, bind, Option.bind_eq_some_iff, Option.ite_none_left_eq_some]
  constructor
  · rintro ⟨sides, hsides, x, hx, z, hz, hcomments, hfull, heq⟩
    obtain rfl := Option.some.inj heq
    simp only [List.any_cons, List.any_nil, Bool.or_eq_true, not_or, Bool.not_eq_true] at hcomments
    exact ⟨sides, x, z, hsides, hx, hz, ⟨hcomments.1, hcomments.2.1, hcomments.2.2.1, hcomments.2.2.2.1⟩,
      rfl, Bool.not_eq_true _ ▸ hfull⟩
  · rintro ⟨sides, x, z, hsides, hx, hz, hcomments, rfl, hfull⟩
    refine ⟨sides, hsides, x, hx, z, hz, ?_, by simpa [editBetween] using hfull, rfl⟩
    simp [hcomments.before, hcomments.leading, hcomments.after, hcomments.next]

theorem mem_edits_iff {root : Cursor} :
    e ∈ edits o root ↔ ∃ y ∈ root.tokens, y.kind = .colon ∧ edit? o y = some e := by
  simp only [edits, List.mem_filterMap, List.mem_filter, beq_iff_eq, and_assoc]

theorem isTwoSided_of_sides? (h : sides? o x = some .both) : IsTwoSided x := by
  rw [sides?, Option.bind_eq_some_iff] at h
  obtain ⟨p, hp, hsides⟩ := h
  refine ⟨p, hp, ?_⟩
  split at hsides
  all_goals first
    | next hkind => rw [hkind]; rfl
    | cases hsides

/-- What an edit sets: a space behind a colon, or nothing in front of one. -/
theorem sets_cases (h : parse source = .ok tree) (he : e ∈ edits o (.root tree))
    (hx : x ∈ (Cursor.root tree).tokens) (hsets : e.Sets x v) :
    ∃ y, x.nextToken? = some y ∧ x.trailingTrivia.containsComment = false ∧
      y.leadingTrivia.containsNewline = false ∧
      (x.kind = .colon ∧ IsTwoSided x ∧ v = Trivia.spaces 1 ∨
        y.kind = .colon ∧ IsHosted y ∧ e.token = y ∧ e.before = some v ∧ v = []) := by
  obtain ⟨y, hy, hkind, hedit⟩ := mem_edits_iff.mp he
  obtain ⟨sides, x₀, z, hsides, hprev, hnext, hcomments, rfl, -⟩ := edit?_eq_some_iff.mp hedit
  rcases hsets with ⟨rfl, hafter⟩ | ⟨hprev', hbefore⟩
  · have hafter : (if rightIsFine o sides y.trailingTrivia z then none else some (Trivia.spaces 1)) =
      some v := hafter
    rw [Option.ite_none_left_eq_some, rightIsFine] at hafter
    simp only [Bool.or_eq_true, not_or, Bool.not_eq_true, beq_eq_false_iff_ne] at hafter
    obtain ⟨⟨⟨⟨⟨hleft, hnewline⟩, -⟩, -⟩, -⟩, heq⟩ := hafter
    obtain rfl : sides = .both := by cases sides <;> [rfl; exact absurd rfl hleft]
    exact ⟨z, hnext, hcomments.after, hnewline,
      .inl ⟨hkind, isTwoSided_of_sides? hsides, (Option.some.inj heq).symm⟩⟩
  · obtain rfl : x₀ = x := Option.some.inj (hprev.symm.trans hprev')
    have hlinked := Cursor.linked_tokens (wellKinded_parse h)
    have hvalue : (if leftIsFine x₀.trailingTrivia y.leadingTrivia then none else some []) = some v := hbefore
    rw [Option.ite_none_left_eq_some, leftIsFine, Bool.or_eq_true, not_or, Bool.not_eq_true,
      Bool.not_eq_true] at hvalue
    exact ⟨y, (hlinked.nextToken?_eq_some_iff hx hy).mpr hprev, hcomments.before, hvalue.1.2,
      .inr ⟨hkind, isHosted_of_sides? hsides, rfl, hbefore, (Option.some.inj hvalue.2).symm⟩⟩

/-! ### Blanks next to colons -/

/-- A colon that is looked at starts at the byte. -/
def StartsColon (root : Cursor) (p : Nat) : Prop :=
  ∃ y ∈ root.tokens, y.kind = .colon ∧ IsHosted y ∧ y.offset = p

/-- What can be set between two tokens, the second of which stands at `y`: blanks behind a colon, or nothing
in front of one that is looked at. -/
inductive Admits (y : Cursor) (t u : Token) : Trivia → Prop
  | before (hkind : y.kind = .colon) (hhost : IsHosted y) (hcolon : u.text = ":") (hleading : u.leading = [])
      (hgap : t.trailing.IsGap) : Admits y t u []
  | after {blank : Trivia} (hcolon : t.text = ":") (hleading : u.leading = []) (hgap : t.trailing.IsGap)
      (hblank : blank.IsGap) : Admits y t u blank

theorem recoloned_of_admits {M : Nat → Prop} {P : SpacingEdit → Prop} {front : Option Cursor}
    {xs : List Cursor} {ts us : List Token} {start : Nat} (hlinked : Cursor.Linked front xs none)
    (hts : xs.map Cursor.element = ts.map .token) (hus : List.Forall₂ (Becomes P) xs us)
    (hmarks : List.Forall₂ (fun x q => x.kind = .colon → IsHosted x → M q.1) xs (Token.placed start us))
    (hsets : ∀ x ∈ xs, ∀ e v, P e → e.Sets x v → ∃ y, x.nextToken? = some y ∧
      ∀ t u, x.element = .token t → y.element = .token u → Admits y t u v) :
    Token.Recoloned M start ts us := by
  induction hus generalizing front ts start with
  | nil =>
    obtain rfl := List.map_eq_nil_iff.mp hts.symm
    exact .nil
  | @cons x u xs us hx hus ih =>
    obtain ⟨t, ts, rfl, ht, hbehind⟩ := List.map_eq_cons_iff.mp hts.symm
    obtain ⟨hfirst, hsets⟩ := List.forall_mem_cons.mp hsets
    obtain ⟨-, hnext, hlinked⟩ := hlinked
    rw [Token.placed, List.forall₂_cons] at hmarks
    have hrest := ih hlinked hbehind.symm hmarks.2 hsets
    obtain ⟨s, hs, hlexeme, hleading, htrailing⟩ := hx
    obtain rfl : s = t := Element.token.inj (hs.symm.trans ht.symm)
    have hu : u = { s with trailing := u.trailing } := by
      obtain ⟨kind, text, leading, trailing⟩ := u
      obtain ⟨rfl, rfl⟩ := Prod.mk.inj hlexeme
      obtain rfl : leading = s.leading := hleading
      rfl
    have hmarks := hmarks.2
    rw [hu] at hrest hmarks ⊢
    rcases htrailing with ⟨hsame, -⟩ | ⟨e, he, hvalue⟩
    · rw [hsame] at hrest ⊢
      exact .keep s hrest
    · obtain ⟨y, hy, hadmits⟩ := hfirst e _ he hvalue
      rw [hnext, Option.or_none, List.head?_eq_some_iff] at hy
      obtain ⟨ys, rfl⟩ := hy
      obtain ⟨w, ws, rfl, hw, -⟩ := List.map_eq_cons_iff.mp hbehind
      have hadmits := hadmits s w hs hw.symm
      generalize u.trailing = blank at hadmits hrest hmarks
      cases hadmits with
      | before hkind hhost hcolon hleading hgap =>
        cases hus with
        | cons _ _ =>
          rw [Token.placed, List.forall₂_cons] at hmarks
          -- the colon comes to start where this token ends without its blanks
          exact .before hcolon hleading hgap (hmarks.1 hkind hhost) hrest
      | after hcolon hleading hgap hblank => exact .after hcolon hleading hgap hblank hrest

/-- A token with another one in front of it is not the first. -/
theorem mem_tail_of_prevToken? (h : parse source = .ok tree) (hy : y ∈ (Cursor.root tree).tokens)
    (hprev : y.prevToken? = some x) {u : Token} (hu : y.element = .token u) : u ∈ tree.leaves.tail := by
  have hlinked := Cursor.linked_tokens (wellKinded_parse h)
  have helements : (Cursor.root tree).tokens.map Cursor.element = tree.leaves.map .token :=
    Cursor.map_element_tokensOf (wellKinded_parse h) rfl
  cases hxs : (Cursor.root tree).tokens with
  | nil =>
    rw [hxs] at hy
    cases hy
  | cons z zs =>
    rw [hxs] at hy hlinked helements
    obtain ⟨t, ts, hleaves, -, hbehind⟩ := List.map_eq_cons_iff.mp helements.symm
    rw [hleaves, List.tail_cons]
    rcases List.mem_cons.mp hy with rfl | hy
    · rw [hlinked.1] at hprev
      cases hprev
    · have hmem := List.mem_map_of_mem (f := Cursor.element) hy
      rw [← hbehind, hu] at hmem
      obtain ⟨w, hw, heq⟩ := List.mem_map.mp hmem
      exact Element.token.inj heq ▸ hw

theorem admits_of_sets (h : parse source = .ok tree)
    (he : e ∈ edits o (.root tree)) (hx : x ∈ (Cursor.root tree).tokens) (hsets : e.Sets x v) :
    ∃ y, x.nextToken? = some y ∧ ∀ t u, x.element = .token t → y.element = .token u → Admits y t u v := by
  obtain ⟨y, hy, hcomment, hnewline, hcases⟩ := sets_cases h he hx hsets
  have hkinded := wellKinded_parse h
  have hlinked := Cursor.linked_tokens hkinded
  have hmem := hlinked.mem_of_nextToken? hx hy
  have hprev := (hlinked.nextToken?_eq_some_iff hx hmem).mp hy
  refine ⟨y, hy, fun t u ht hu => ?_⟩
  have hblank := SpacingEdit.withoutWhitespace_trailingTrivia h hx ht hcomment
  rw [Trivia.withoutWhitespace_eq_nil_iff] at hblank
  obtain ⟨s, hs, hleaf⟩ := Cursor.exists_token_of_mem_tokensOf hkinded rfl hx
  obtain rfl : s = t := Element.token.inj (hs.symm.trans ht)
  have hgap := isGap_trailing h hleaf hblank
  have htail := mem_tail_of_prevToken? h hmem hprev hu
  have hleading : y.leadingTrivia = u.leading :=
    Cursor.leadingTrivia_token (hu ▸ wellKinded_of_mem_descendants h (List.mem_filter.mp hmem).1) hu
  rw [hleading] at hnewline
  have hnone := leading_eq_nil h htail hnewline
  rcases hcases with ⟨hkind, -, rfl⟩ | ⟨hkind, hhost, -, -, rfl⟩
  · rw [Cursor.kind, ht] at hkind
    exact .after (text_of_colon h hleaf hkind) hnone hgap (.inr ⟨_, by decide, rfl⟩)
  · refine .before hkind hhost (text_of_colon h (List.mem_of_mem_tail htail) ?_) hnone hgap
    rwa [Cursor.kind, hu] at hkind

/-- Each token but the colons has room for what is behind it. -/
theorem fullLenAll_le {P : SpacingEdit → Prop} {xs : List Cursor} {ts us : List Token}
    (hts : xs.map Cursor.element = ts.map .token) (hus : List.Forall₂ (Becomes P) xs us)
    (hsets : ∀ x ∈ xs, ∀ e v, P e → e.Sets x v → v.len ≤ if x.kind = .colon then 1 else 0) :
    Token.fullLenAll us ≤ Token.fullLenAll ts + xs.countP (·.kind == .colon) := by
  induction hus generalizing ts with
  | nil =>
    obtain rfl := List.map_eq_nil_iff.mp hts.symm
    exact Nat.le_refl 0
  | @cons x u xs us hx _ ih =>
    obtain ⟨t, ts, rfl, ht, hbehind⟩ := List.map_eq_cons_iff.mp hts.symm
    obtain ⟨hfirst, hsets⟩ := List.forall_mem_cons.mp hsets
    have hrest := ih hbehind.symm hsets
    obtain ⟨s, hs, hlexeme, hleading, htrailing⟩ := hx
    obtain rfl : s = t := Element.token.inj (hs.symm.trans ht.symm)
    obtain ⟨-, htext⟩ := Prod.mk.inj hlexeme
    have hlen : u.trailing.len ≤ s.trailing.len + if x.kind = .colon then 1 else 0 := by
      rcases htrailing with ⟨hsame, -⟩ | ⟨e, he, hvalue⟩
      · rw [hsame]
        exact Nat.le_add_right _ _
      · exact (hfirst e _ he hvalue).trans (Nat.le_add_left _ _)
    rw [Token.fullLenAll_cons, Token.fullLenAll_cons, List.countP_cons, Token.fullLen, Token.fullLen,
      Token.len, Token.len, hleading, htext]
    simp only [beq_iff_eq]
    omega

/-! ### What is read again -/

section Made

variable {disabled : DisabledRegions} {tree' : Element} {recorded : List Nat}

theorem mem_edits_of_madeBelow {c : Cursor} (he : SpacingEdit.MadeBelow (edits o (.root tree)) disabled c e) :
    e ∈ edits o (.root tree) := by
  obtain ⟨q, -, hlookup, -⟩ := he
  exact (SpacingEdit.mem_located (SpacingEdit.mem_located_of_lookup hlookup)).1

/-- The colons that are looked at stand at the same places in the new tree. -/
theorem forall₂_startsColon {root root' : Element} (hkinded : root'.WellKinded)
    (hstripped : root'.stripped = root.stripped) :
    List.Forall₂ (fun x q => x.kind = .colon → IsHosted x → StartsColon (.root root') q.1)
      (Cursor.root root).tokens (Token.placed 0 root'.leaves) := by
  have hpoints := (List.forall₂_and_left _ _).mpr ⟨fun _ hy => hy, Cursor.forall₂_pointsAt hkinded⟩
  refine forall₂_trans (Cursor.alike_tokens hstripped) hpoints ?_
  rintro x y q halike ⟨hy, hpoint⟩ hkind hhost
  exact ⟨y, hy, halike.kind_eq.trans hkind, halike.isHosted hhost, hpoint.offset⟩

/-- No colon among tokens that are held as they come starts where one does that is looked at. -/
theorem clearsAll_startsColon {root : Element} (hkinded : root.WellKinded)
    (hcolons : ∀ t ∈ root.leaves, t.kind = .colon → t.text = ":") :
    Element.ClearsAll (StartsColon (.root root)) 0 [root] := by
  have hpos : ∀ x ∈ (Cursor.root root).tokens, x.kind = .colon → x.offset < x.fullEnd := by
    intro x hx hkind
    obtain ⟨t, ht, hleaf⟩ := Cursor.exists_token_of_mem_tokensOf hkinded rfl hx
    rw [Cursor.kind, ht] at hkind
    have hlen : t.len = 1 := by
      rw [Token.len, hcolons t hleaf hkind]
      rfl
    rw [Cursor.fullEnd, ht, Element.fullLen, Token.fullLen]
    omega
  rw [Element.ClearsAll, Element.ClearsAll]
  refine ⟨Cursor.clears_of_descendants root (.root root) rfl fun x hx p hp hholds hkind => ?_, trivial⟩
  rintro ⟨y, hy, hkind', ⟨q, hq, hhost⟩, hoffset⟩
  have hx : x ∈ (Cursor.root root).tokens := List.mem_filter.mpr ⟨hx, by rw [Cursor.isToken, hkind]; rfl⟩
  by_cases hsame : x = y
  · -- a node that holds its tokens as they come is none in which the spacing around a colon matters
    obtain rfl : q = p := Option.some.inj (hq.symm.trans (hsame ▸ hp))
    rw [SyntaxKind.isColonHost_eq_false hholds] at hhost
    cases hhost
  · have hstart := hpos x hx hkind
    have hstart' := hpos y hy hkind'
    have hapart := Cursor.apart_of_mem_tokensOf (c := .root root) hkinded hx hy hsame
    omega

theorem recoloned_of_made (h : parse source = .ok tree)
    (hmade : SpacingEdit.Made (SpacingEdit.MadeBelow (edits o (.root tree)) disabled (.root tree))
      (.root tree) tree' recorded) :
    Token.Recoloned (StartsColon (.root tree')) 0 tree.leaves tree'.leaves := by
  have hkinded := wellKinded_parse h
  have hkinded' : tree'.WellKinded := by
    rwa [← Element.wellKinded_stripped, hmade.stripped, Element.wellKinded_stripped]
  exact recoloned_of_admits (Cursor.linked_tokens hkinded) (Cursor.map_element_tokensOf hkinded rfl)
    hmade.tokens (forall₂_startsColon hkinded' hmade.stripped) fun _ hx _ _ he hsets =>
      admits_of_sets h (mem_edits_of_madeBelow he) hx hsets

/-- What a pass leaves is read as it is. -/
theorem parse_of_made (h : parse source = .ok tree) (hlen : source.utf8ByteSize < 2 ^ 31)
    (hmade : SpacingEdit.Made (SpacingEdit.MadeBelow (edits o (.root tree)) disabled (.root tree))
      (.root tree) tree' recorded) : parse tree'.fullText = .ok tree' := by
  have hleaves := Cursor.map_element_tokensOf (c := .root tree) (wellKinded_parse h) rfl
  have hkinded' : tree'.WellKinded := by
    rw [← Element.wellKinded_stripped, hmade.stripped, Element.wellKinded_stripped]
    exact wellKinded_parse h
  have hcolons : ∀ t ∈ tree'.leaves, t.kind = .colon → t.text = ":" := by
    intro u hu hkind
    have hsame : tree'.leaves.map Token.stripped = tree.leaves.map Token.stripped := by
      rw [← Element.leaves_stripped, hmade.stripped, Element.leaves_stripped]
      rfl
    obtain ⟨t, ht, hkind', htext⟩ := Token.exists_of_map_stripped hsame hu
    exact htext ▸ text_of_colon h ht (hkind'.trans hkind)
  refine parse_of_recoloned h hmade.stripped (recoloned_of_made h hmade)
    (clearsAll_startsColon hkinded' hcolons) ?_
  have hgrown := fullLenAll_le hleaves hmade.tokens fun x hx e v he hsets => ?_
  · have hroom : tree.fullLen + tree.leaves.length < Offset.limit :=
      fullLen_add_length_lt h hlen (Cursor.mem_descendants_self _)
    have hcolons : (Cursor.tokensOf tree (.root tree)).countP (·.kind == .colon) ≤ tree.leaves.length := by
      have hlength := congrArg List.length hleaves
      rw [List.length_map, List.length_map] at hlength
      exact hlength ▸ List.countP_le_length
    have hlimit : Offset.limit = maxSourceLength + 1 := rfl
    rw [Element.utf8ByteSize_fullText, Element.fullLen_eq]
    rw [Element.fullLen_eq] at hroom
    omega
  · -- only behind a colon there may be a blank more than there was
    obtain ⟨y, -, -, -, ⟨hkind, -, rfl⟩ | ⟨-, -, -, -, rfl⟩⟩ :=
      sets_cases h (mem_edits_of_madeBelow he) hx hsets
    · rw [if_pos hkind]
      decide
    · exact Nat.zero_le _

end Made

/-! ### What the rule finds again -/

theorem sides?_eq (h : x.Alike y) : sides? o y = sides? o x := by
  cases h with
  | root => rfl
  | child hp _ => simp only [sides?, Cursor.parent?, Option.bind_some, hp.kind_eq]

theorem isEmpty_editBetween (o : Options) (sides : Sides) (x y z : Cursor) :
    (editBetween o sides x y z).isEmpty =
      (leftIsFine x.trailingTrivia y.leadingTrivia && rightIsFine o sides y.trailingTrivia z) := by
  rw [SpacingEdit.isEmpty, editBetween]
  cases leftIsFine x.trailingTrivia y.leadingTrivia <;>
    cases rightIsFine o sides y.trailingTrivia z <;> rfl

theorem token_eq_of_edit? (h : edit? o y = some e) : e.token = y := by
  obtain ⟨-, -, -, -, -, -, -, rfl, -⟩ := edit?_eq_some_iff.mp h
  rfl

section Again

variable {P : SpacingEdit → Prop} {ps : List Portion} {x' y' z' : Cursor} {sides : Sides} {e' : SpacingEdit}

/-- Behind the token in front of a colon there is what was there, or nothing. -/
theorem sets_before (h : parse source = .ok tree) (hP : ∀ e, P e → e ∈ edits o (.root tree))
    (hx : x ∈ (Cursor.root tree).tokens) (hy : y ∈ (Cursor.root tree).tokens) (hprev : y.prevToken? = some x)
    (hkind : y.kind = .colon) (hhost : IsHosted y) (he : P e) (hsets : e.Sets x v) :
    e.token = y ∧ v = [] ∧ x.trailingTrivia.containsComment = false := by
  obtain ⟨y₁, hnext, hcomment, -, hcases⟩ := sets_cases h (hP e he) hx hsets
  rcases hcases with ⟨hcolon, htwo, -⟩ | ⟨-, -, htoken, -, hnone⟩
  · exact absurd hhost (not_isHosted_of_prevToken? h hy hprev hcolon hkind htwo)
  · have hlinked := Cursor.linked_tokens (wellKinded_parse h)
    rw [(hlinked.nextToken?_eq_some_iff hx hy).mpr hprev] at hnext
    obtain rfl := Option.some.inj hnext
    exact ⟨htoken, hnone, hcomment⟩

/-- Behind a colon there is what was there, or a space, if what is there matters. -/
theorem sets_after (h : parse source = .ok tree) (hP : ∀ e, P e → e ∈ edits o (.root tree))
    (hy : y ∈ (Cursor.root tree).tokens) (hkind : y.kind = .colon) (he : P e) (hsets : e.Sets y v) :
    (IsTwoSided y → v = Trivia.spaces 1) ∧ y.trailingTrivia.containsComment = false := by
  obtain ⟨z, hnext, hcomment, -, hcases⟩ := sets_cases h (hP e he) hy hsets
  refine ⟨fun htwo => ?_, hcomment⟩
  rcases hcases with ⟨-, -, hspace⟩ | ⟨hcolon, hhost, -⟩
  · exact hspace
  · have hlinked := Cursor.linked_tokens (wellKinded_parse h)
    have hz := hlinked.mem_of_nextToken? hy hnext
    exact absurd hhost (not_isHosted_of_prevToken? h hz ((hlinked.nextToken?_eq_some_iff hy hz).mp hnext)
      hkind hcolon htwo)

/-- What an edit leaves in front of a colon is fine. -/
theorem leftIsFine_of_sets (h : parse source = .ok tree) (hP : ∀ e, P e → e ∈ edits o (.root tree))
    (hx : x ∈ (Cursor.root tree).tokens) (hy : y ∈ (Cursor.root tree).tokens) (hprev : y.prevToken? = some x)
    (hkind : y.kind = .colon) (hhost : IsHosted y) (hxx : Stands P ps x x') (hmade : ∃ e v, P e ∧ e.Sets x v) :
    leftIsFine x'.trailingTrivia y'.leadingTrivia = true := by
  obtain ⟨e, v, he, hsets⟩ := hmade
  rcases hxx.trailing with ⟨-, hnone⟩ | ⟨e', he', hsets'⟩
  · exact absurd hsets (hnone e v he)
  · rw [leftIsFine, (sets_before h hP hx hy hprev hkind hhost he' hsets').2.1]
    rfl

/-- What an edit leaves behind a colon is fine. -/
theorem rightIsFine_of_sets (h : parse source = .ok tree) (hP : ∀ e, P e → e ∈ edits o (.root tree))
    (hy : y ∈ (Cursor.root tree).tokens) (hkind : y.kind = .colon) (hsides : sides? o y = some sides)
    (hyy : Stands P ps y y') (hmade : ∃ e v, P e ∧ e.Sets y v) :
    rightIsFine o sides y'.trailingTrivia z' = true := by
  obtain ⟨e, v, he, hsets⟩ := hmade
  rcases hyy.trailing with ⟨-, hnone⟩ | ⟨e', he', hsets'⟩
  · exact absurd hsets (hnone e v he)
  · cases sides with
    | left => rfl
    | both =>
      rw [rightIsFine, (sets_after h hP hy hkind he' hsets').1 (isTwoSided_of_sides? hsides)]
      simp [Trivia.isSingleSpace, Trivia.spaces]

theorem isUncommented_of_stands (h : parse source = .ok tree) (hP : ∀ e, P e → e ∈ edits o (.root tree))
    (hy : y ∈ (Cursor.root tree).tokens) (hx : x ∈ (Cursor.root tree).tokens) (hprev : y.prevToken? = some x)
    (hkind : y.kind = .colon) (hhost : IsHosted y) (hxx : Stands P ps x x') (hyy : Stands P ps y y')
    (hzz : Stands P ps z z') (hcomments : IsUncommented x' y' z') : IsUncommented x y z := by
  refine ⟨?_, hyy.leading ▸ hcomments.leading, ?_, hzz.leading ▸ hcomments.next⟩
  · rcases hxx.trailing with ⟨hsame, -⟩ | ⟨e, he, hsets⟩
    · exact hsame ▸ hcomments.before
    · exact (sets_before h hP hx hy hprev hkind hhost he hsets).2.2
  · rcases hyy.trailing with ⟨hsame, -⟩ | ⟨e, he, hsets⟩
    · exact hsame ▸ hcomments.after
    · exact (sets_after h hP hy hkind he hsets).2

/-- **What is still found** was found before, at a colon that no edit was made for. -/
theorem exists_edit_of_stands (h : parse source = .ok tree) (hP : ∀ e, P e → e ∈ edits o (.root tree))
    (hy : y ∈ (Cursor.root tree).tokens) (hx : x ∈ (Cursor.root tree).tokens) (hprev : y.prevToken? = some x)
    (hnext : y.nextToken? = some z) (hxx : Stands P ps x x') (hyy : Stands P ps y y') (hzz : Stands P ps z z')
    (hkind : y'.kind = .colon) (hsides : sides? o y' = some sides) (hcomments : IsUncommented x' y' z')
    (hfull : (editBetween o sides x' y' z').isEmpty = false) :
    x'.trailingTrivia = x.trailingTrivia ∧ edit? o y = some (editBetween o sides x y z) ∧
      ¬ P (editBetween o sides x y z) := by
  rw [hyy.alike.kind_eq] at hkind
  rw [sides?_eq hyy.alike] at hsides
  have hhost := isHosted_of_sides? hsides
  have hnextFine : ∀ t, rightIsFine o sides t z' = rightIsFine o sides t z := fun t => by
    rw [rightIsFine, rightIsFine, hzz.leading, hzz.alike.kind_eq]
  have hleft : (∃ e v, P e ∧ e.Sets x v) → leftIsFine x'.trailingTrivia y'.leadingTrivia = true :=
    leftIsFine_of_sets h hP hx hy hprev hkind hhost hxx
  have hright : (∃ e v, P e ∧ e.Sets y v) → rightIsFine o sides y'.trailingTrivia z' = true :=
    rightIsFine_of_sets h hP hy hkind hsides hyy
  -- what an edit sets is fine, so what is not was there before
  have hleftOld : leftIsFine x'.trailingTrivia y'.leadingTrivia = false →
      leftIsFine x.trailingTrivia y.leadingTrivia = false := by
    intro hbad
    rcases hxx.trailing with ⟨hsame, -⟩ | ⟨e, he, hsets⟩
    · rwa [← hsame, ← hyy.leading]
    · rw [hleft ⟨e, _, he, hsets⟩] at hbad
      cases hbad
  have hrightOld : rightIsFine o sides y'.trailingTrivia z' = false →
      rightIsFine o sides y.trailingTrivia z = false := by
    intro hbad
    rcases hyy.trailing with ⟨hsame, -⟩ | ⟨e, he, hsets⟩
    · rwa [← hsame, ← hnextFine]
    · rw [hright ⟨e, _, he, hsets⟩] at hbad
      cases hbad
  rw [isEmpty_editBetween, Bool.and_eq_false_iff] at hfull
  have hedit : edit? o y = some (editBetween o sides x y z) := by
    refine edit?_eq_some_iff.mpr ⟨sides, x, z, hsides, hprev, hnext,
      isUncommented_of_stands h hP hy hx hprev hkind hhost hxx hyy hzz hcomments, rfl, ?_⟩
    rw [isEmpty_editBetween, Bool.and_eq_false_iff]
    exact hfull.imp hleftOld hrightOld
  have hnot : ¬ P (editBetween o sides x y z) := by
    intro he
    rcases hfull with hbad | hbad
    · have hsets : (editBetween o sides x y z).Sets x [] :=
        .inr ⟨hprev, by rw [editBetween, hleftOld hbad]; rfl⟩
      rw [hleft ⟨_, _, he, hsets⟩] at hbad
      cases hbad
    · have hsets : (editBetween o sides x y z).Sets y (Trivia.spaces 1) :=
        .inl ⟨rfl, by rw [editBetween, hrightOld hbad]; rfl⟩
      rw [hright ⟨_, _, he, hsets⟩] at hbad
      cases hbad
  refine ⟨?_, hedit, hnot⟩
  rcases hxx.trailing with ⟨hsame, -⟩ | ⟨e, he, hsets⟩
  · exact hsame
  · -- the edit in front of the colon is the one for it
    obtain ⟨y₁, -, -, hedit₁⟩ := mem_edits_iff.mp (hP e he)
    obtain rfl : y₁ = y :=
      (token_eq_of_edit? hedit₁).symm.trans (sets_before h hP hx hy hprev hkind hhost he hsets).1
    obtain rfl := Option.some.inj (hedit₁.symm.trans hedit)
    exact absurd he hnot

end Again

theorem regapped_of_recoloned {M : Nat → Prop} {start : Nat} {ts us : List Token}
    (h : Token.Recoloned M start ts us)
    (hpos : ∀ t ∈ ts.dropLast, t.text ≠ "") : List.Forall₂ Token.Regapped ts us := by
  induction h with
  | nil => exact .nil
  | @keep _ t ts us h ih =>
    refine .cons ⟨rfl, rfl, .inl rfl⟩ (ih fun v hv => hpos v ?_)
    cases ts with
    | nil => cases hv
    | cons w ts =>
      rw [List.dropLast_cons_cons]
      exact List.mem_cons_of_mem _ hv
  | before hcolon hleading hgap _ h ih =>
    obtain ⟨hne, hpos⟩ := List.forall_mem_cons.mp (List.dropLast_cons_cons ▸ hpos)
    exact .cons ⟨rfl, rfl, .inr ⟨hne, hgap, .inl rfl⟩⟩ (ih hpos)
  | after hcolon hleading hgap hblank h ih =>
    obtain ⟨hne, hpos⟩ := List.forall_mem_cons.mp (List.dropLast_cons_cons ▸ hpos)
    exact .cons ⟨rfl, rfl, .inr ⟨hne, hgap, hblank⟩⟩ (ih hpos)

/-- **Nothing is left to correct**: where the text with other blanks next to its colons is read into the
tree with them, the rule is disabled at every colon that it would look at. -/
theorem isSuppressed_of_made {source' : String} {u v : SourceUnit} {recorded : List Nat}
    (hu : SourceUnit.ofText source = .ok u) (hv : SourceUnit.ofText source' = .ok v)
    (hmade : SpacingEdit.Made (SpacingEdit.MadeBelow (edits o u.root) (u.disabledRegions description) u.root)
      u.root v.tree recorded) :
    ∀ e ∈ edits o v.root, (v.disabledRegions description).isSuppressed e.position = true := by
  have hparse := SourceUnit.parse_of_ofText hu
  have hkinded := wellKinded_parse hparse
  have hkinded' := wellKinded_parse (SourceUnit.parse_of_ofText hv)
  have hP := fun e (he : SpacingEdit.MadeBelow (edits o u.root) (u.disabledRegions description) u.root e) =>
    mem_edits_of_madeBelow he
  obtain ⟨ts, t, hleaves, hcut, -⟩ := leaves_isCut hparse
  have hpos : ∀ t ∈ u.tree.leaves.dropLast, 0 < t.len := by
    rw [hleaves, List.dropLast_concat]
    exact fun t ht => (hcut t ht).len_pos
  have hregapped := regapped_of_recoloned (recoloned_of_made hparse hmade) fun t ht hempty => by
    have hlen := hpos t ht
    rw [Token.len, hempty] at hlen
    exact Nat.lt_irrefl 0 hlen
  have hmoves := SourceUnit.moves_of_turns (P := fun _ => False) hu hv (Portion.turns_ofTokens hregapped)
    (Portion.lined_ofTokens (keepsLines_of_parse hparse) hpos hregapped (by decide)) fun _ _ _ _ _ _ => id
  have hstands := SpacingEdit.forall₂_stands hkinded hkinded' hmade.stripped hmade.tokens hregapped
  intro e' he'
  obtain ⟨y', hy', hkind, hedit'⟩ := mem_edits_iff.mp he'
  obtain ⟨sides, x', z', hsides, hprev', hnext', hcomments, rfl, hfull⟩ := edit?_eq_some_iff.mp hedit'
  obtain ⟨x, y, z, hx, hy, hprev, hnext, hxx, hyy, hzz⟩ := (Cursor.linked_tokens hkinded).exists_around
    (Cursor.linked_tokens hkinded') hstands hy' hprev' hnext'
  -- what is found again was found before, so it was suppressed
  obtain ⟨hsame, hedit, hnot⟩ := exists_edit_of_stands hparse hP hy hx hprev hnext hxx hyy hzz hkind hsides
    hcomments hfull
  have hmem : editBetween o sides x y z ∈ edits o u.root :=
    mem_edits_iff.mpr ⟨y, hy, hyy.alike.kind_eq ▸ hkind, hedit⟩
  obtain ⟨hkept, hmoved⟩ := hxx.ends hsame
  obtain ⟨-, -, -, -, -, -, -, -, hsome⟩ := edit?_eq_some_iff.mp hedit
  have hsuppressed := SpacingEdit.isSuppressed_of_not_madeBelow hparse
    (SourceUnit.disabledRegions_isSeparated hu description) (fun e he => isBetween_of_mem_edits hparse he)
    (edits_apart hparse o) hmem hsome hnot
  show (v.disabledRegions description).isSuppressed x'.endPosition = true
  rw [← hmoved, hmoves.isSuppressed_eq hu hv description hkept]
  exact hsuppressed

/-- What a pass leaves of a source is read, and the rule finds nothing in it where it is not disabled. -/
theorem exists_fix?_findsNothing (ctx : Context) (h : SourceUnit.ofText source = .ok ctx.unit)
    (hlen : source.utf8ByteSize < 2 ^ 31) (o : Options) :
    ∃ outcome v, (rule o).fix? ctx = some (.ok outcome) ∧
      SourceUnit.ofText outcome.tree.fullText = .ok v ∧
      ∀ ctx' : Context, ctx'.unit = v → (rule o).FindsNothing ctx' := by
  have hparse := SourceUnit.parse_of_ofText h
  obtain ⟨recorded, outcome, hrun, hmade, -⟩ := SpacingEdit.made_run hparse
    (ctx.unit.disabledRegions description) fun e he => isBetween_of_mem_edits (o := o) hparse he
  have hread : SourceUnit.ofText outcome.tree.fullText = .ok (.ofTree outcome.tree) := by
    rw [SourceUnit.ofText, parse_of_made hparse hlen hmade]
    rfl
  have hsuppressed := isSuppressed_of_made h hread hmade
  refine ⟨outcome, _, congrArg some hrun, hread, fun ctx' hctx => ⟨_, rfl, ?_⟩⟩
  rw [hctx, Rule.unsuppressed, List.filter_eq_nil_iff]
  intro position hposition
  rw [List.map_map] at hposition
  obtain ⟨e, he, rfl⟩ := List.mem_map.mp hposition
  rw [Context.root, hctx] at he
  have hdisabled : (SourceUnit.disabledRegions _ (rule o).description).isSuppressed e.position = true :=
    hsuppressed e he
  show ¬ (!(SourceUnit.disabledRegions _ (rule o).description).isSuppressed e.position) = true
  rw [hdisabled]
  exact Bool.false_ne_true

end Colon

end SwiftTidy
