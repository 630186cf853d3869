import SwiftTidy.Proofs.Text.Offset
import SwiftTidy.Proofs.Tree.Descent

/-!
# What the ranges of a place cut out

The text of a tree is that of the tokens in front of a place, of the place, and of the tokens behind
it (`IsPlaced.exists_leaves`), and the text of an element is its outer trivia around the rest
(`Element.toList_fullText_eq`).  So the full range of a place cuts out its rendering, and its range
cuts out the rendering without the outer trivia.  Both end at boundaries between characters.
-/

namespace SwiftTidy

/-! ### Lengths are counted in bytes -/

theorem Trivia.utf8Len_text (t : Trivia) : String.utf8Len t.text.toList = t.len := by
  induction t with
  | nil => rfl
  | cons p t ih =>
    rw [Trivia.toList_text_cons, String.utf8Len_append, ih, Trivia.len_cons, TriviaPiece.len,
      Text.utf8ByteSize_eq]

theorem Token.utf8Len_fullText (t : Token) : String.utf8Len t.fullText.toList = t.fullLen := by
  rw [Token.toList_fullText, String.utf8Len_append, String.utf8Len_append, Trivia.utf8Len_text,
    Trivia.utf8Len_text, Token.fullLen, Token.len, Text.utf8ByteSize_eq]

theorem Token.utf8Len_spell (ts : List Token) : String.utf8Len (spell ts) = fullLenAll ts := by
  induction ts with
  | nil => rfl
  | cons t ts ih =>
    rw [spell_cons, String.utf8Len_append, Token.utf8Len_fullText, ih, fullLenAll_cons]

namespace Element

theorem utf8Len_fullText (e : Element) : String.utf8Len e.fullText.toList = e.fullLen := by
  rw [toList_fullText, Token.utf8Len_spell, fullLen_eq]

/-- The length of an element is the number of bytes of its text. -/
theorem utf8ByteSize_fullText (e : Element) : e.fullText.utf8ByteSize = e.fullLen := by
  rw [Text.utf8ByteSize_eq, utf8Len_fullText]

/-! ### Edits at the edges -/

variable {f : Token → Token}

mutual
theorem leaves_mapFirstToken? : ∀ e : Element,
    (e.mapFirstToken? f).map leaves = e.leaves.head?.map fun t => f t :: e.leaves.tail
  | token t => by simp [mapFirstToken?]
  | node k es => by
    rw [mapFirstToken?, Option.map_map, leaves_node, ← leavesAll_mapFirstTokenOf? es]
    exact congrArg (Option.map · _) (funext fun es' => leaves_node k es')
theorem leavesAll_mapFirstTokenOf? : ∀ es : List Element,
    (mapFirstTokenOf? f es).map leavesAll =
      (leavesAll es).head?.map fun t => f t :: (leavesAll es).tail
  | [] => by simp [mapFirstTokenOf?]
  | e :: es => by
    have hfirst := leaves_mapFirstToken? e
    have hrest := leavesAll_mapFirstTokenOf? es
    rw [mapFirstTokenOf?, leavesAll_cons]
    cases hleaves : e.leaves with
    | nil =>
      rw [hleaves] at hfirst
      rw [Option.map_eq_none_iff.mp hfirst]
      show ((mapFirstTokenOf? f es).map (e :: ·)).map leavesAll = _
      rw [Option.map_map, List.nil_append, ← hrest]
      exact congrArg (Option.map · _) (funext fun es' => by simp [hleaves])
    | cons t ts =>
      rw [hleaves] at hfirst
      obtain ⟨e', he', hleaves'⟩ := Option.map_eq_some_iff.mp hfirst
      rw [he', Option.map_some, leavesAll_cons, hleaves']
      rfl
end

/-- The first leaf is changed, and all others stay. -/
theorem leaves_mapFirstToken {e : Element} {t : Token} {ts : List Token} (h : e.leaves = t :: ts) :
    (e.mapFirstToken f).leaves = f t :: ts := by
  have hmap := leaves_mapFirstToken? (f := f) e
  rw [h] at hmap
  obtain ⟨e', he', hleaves⟩ := Option.map_eq_some_iff.mp hmap
  rw [mapFirstToken, he', Option.getD_some, hleaves]
  rfl

/-- An element without leaves stays as it is. -/
theorem mapFirstToken_of_leaves_eq_nil {e : Element} (h : e.leaves = []) :
    e.mapFirstToken f = e := by
  have hmap := leaves_mapFirstToken? (f := f) e
  rw [h] at hmap
  rw [mapFirstToken, Option.map_eq_none_iff.mp hmap, Option.getD_none]

mutual
theorem leaves_mapLastToken? : ∀ e : Element,
    (e.mapLastToken? f).map leaves = e.leaves.getLast?.map fun t => e.leaves.dropLast ++ [f t]
  | token t => by simp [mapLastToken?]
  | node k es => by
    rw [mapLastToken?, Option.map_map, leaves_node, ← leavesAll_mapLastTokenOf? es]
    exact congrArg (Option.map · _) (funext fun es' => leaves_node k es')
theorem leavesAll_mapLastTokenOf? : ∀ es : List Element,
    (mapLastTokenOf? f es).map leavesAll =
      (leavesAll es).getLast?.map fun t => (leavesAll es).dropLast ++ [f t]
  | [] => by simp [mapLastTokenOf?]
  | e :: es => by
    have hlast := leaves_mapLastToken? e
    have hrest := leavesAll_mapLastTokenOf? es
    rw [mapLastTokenOf?, leavesAll_cons]
    rcases List.eq_nil_or_concat (leavesAll es) with hleaves | ⟨ts, t, hleaves⟩
    · rw [hleaves] at hrest
      rw [Option.map_eq_none_iff.mp hrest, hleaves, List.append_nil, ← hlast]
      show ((e.mapLastToken? f).map (· :: es)).map leavesAll = _
      rw [Option.map_map]
      exact congrArg (Option.map · _) (funext fun e' => by simp [hleaves])
    · rw [List.concat_eq_append] at hleaves
      rw [hleaves, List.getLast?_concat, List.dropLast_concat] at hrest
      obtain ⟨es', hes', hleaves'⟩ := Option.map_eq_some_iff.mp hrest
      rw [hes', Option.map_some, leavesAll_cons, hleaves', hleaves, ← List.append_assoc _ ts [t],
        List.getLast?_concat, List.dropLast_concat, Option.map_some, List.append_assoc]
end

/-- The last leaf is changed, and all others stay. -/
theorem leaves_mapLastToken {e : Element} {t : Token} {ts : List Token}
    (h : e.leaves = ts ++ [t]) : (e.mapLastToken f).leaves = ts ++ [f t] := by
  have hmap := leaves_mapLastToken? (f := f) e
  rw [h, List.getLast?_concat, List.dropLast_concat] at hmap
  obtain ⟨e', he', hleaves⟩ := Option.map_eq_some_iff.mp hmap
  rw [mapLastToken, he', Option.getD_some, hleaves]

theorem mapLastToken_of_leaves_eq_nil {e : Element} (h : e.leaves = []) :
    e.mapLastToken f = e := by
  have hmap := leaves_mapLastToken? (f := f) e
  rw [h] at hmap
  rw [mapLastToken, Option.map_eq_none_iff.mp hmap, Option.getD_none]

/-! ### Outer trivia -/

/-- The text of an element is what its text without outer trivia is between this trivia. -/
theorem toList_fullText_eq (e : Element) :
    e.fullText.toList =
      e.leadingTrivia.text.toList ++ e.text.toList ++ e.trailingTrivia.text.toList := by
  rw [leadingTrivia_eq, trailingTrivia_eq, text, toList_fullText, toList_fullText]
  cases hleaves : e.leaves with
  | nil =>
    have hedits : (e.withLeading []).withTrailing [] = e := by
      rw [withLeading, mapFirstToken_of_leaves_eq_nil hleaves, withTrailing,
        mapLastToken_of_leaves_eq_nil hleaves]
    rw [hedits, hleaves]
    rfl
  | cons t ts =>
    have hfirst : (e.withLeading []).leaves = { t with leading := [] } :: ts :=
      leaves_mapFirstToken hleaves
    rcases List.eq_nil_or_concat ts with rfl | ⟨us, u, rfl⟩
    · -- one leaf has the outer trivia on both sides
      have hlast : ((e.withLeading []).withTrailing []).leaves =
          [{ t with leading := [], trailing := [] }] :=
        leaves_mapLastToken (show _ = [] ++ [_] from hfirst)
      rw [hlast]
      simp [Token.toList_fullText]
    · have hlast : ((e.withLeading []).withTrailing []).leaves =
          ({ t with leading := [] } :: us) ++ [{ u with trailing := [] }] := by
        refine leaves_mapLastToken ?_
        rw [hfirst, List.concat_eq_append, List.cons_append]
      rw [hlast, List.concat_eq_append, ← List.cons_append, List.getLast?_concat]
      simp [Token.toList_fullText]

/-- The outer trivia of an element takes the bytes that its text does not. -/
theorem len_add (e : Element) :
    e.leadingTrivia.len + e.len + e.trailingTrivia.len = e.fullLen ∧
      String.utf8Len e.text.toList = e.len := by
  have hlen := congrArg String.utf8Len (toList_fullText_eq e)
  rw [utf8Len_fullText, String.utf8Len_append, String.utf8Len_append, Trivia.utf8Len_text,
    Trivia.utf8Len_text] at hlen
  unfold len
  omega

end Element

namespace Cursor

theorem token?_eq_some {c : Cursor} {t : Token} : c.token? = some t ↔ c.element = .token t := by
  unfold token?
  cases c.element <;> simp [Element.token?]

/-! ### Places -/

/-- The range of a place ends within its full range. -/
theorem endPosition_le_fullEnd (c : Cursor) : c.endPosition ≤ c.fullEnd := by
  have hlen := (Element.len_add c.element).1
  rw [endPosition, position, fullEnd]
  omega

/-- The tokens of a tree are those in front of a place, those of the place and those behind it. -/
theorem IsPlaced.exists_leaves : ∀ {c : Cursor}, c.IsPlaced → ∃ front back,
    c.rootElement.leaves = front ++ c.element.leaves ++ back ∧ c.offset = Token.fullLenAll front
  | root e, _ => ⟨[], [], by rw [rootElement, element, List.nil_append, List.append_nil], rfl⟩
  | child p i o e, h => by
    obtain ⟨hp, es, fs, hchildren, -, rfl⟩ := h
    obtain ⟨front, back, hleaves, hoffset⟩ := hp.exists_leaves
    have hparent : p.element.leaves = Element.leavesAll es ++ e.leaves ++ Element.leavesAll fs := by
      cases hpe : p.element with
      | token t =>
        rw [hpe] at hchildren
        simp [Element.children] at hchildren
      | node k gs =>
        rw [hpe] at hchildren
        have hgs : gs = es ++ e :: fs := hchildren
        rw [hgs, Element.leaves_node, Element.leavesAll_append, Element.leavesAll_cons,
          List.append_assoc]
    refine ⟨front ++ Element.leavesAll es, Element.leavesAll fs ++ back, ?_, ?_⟩
    · rw [rootElement, hleaves, hparent]
      simp [element]
    · rw [offset, hoffset, Token.fullLenAll_append, Element.fullLenAll_eq]

variable {c : Cursor}

/-- A place ends within its tree. -/
theorem IsPlaced.fullEnd_le (h : c.IsPlaced) : c.fullEnd ≤ c.rootElement.fullLen := by
  obtain ⟨front, back, hleaves, hoffset⟩ := h.exists_leaves
  rw [fullEnd, hoffset, Element.fullLen_eq, Element.fullLen_eq, hleaves, Token.fullLenAll_append,
    Token.fullLenAll_append]
  exact Nat.le_add_right _ _

/-- The full range of a place cuts out its text. -/
theorem IsPlaced.slice_fullRange (h : c.IsPlaced) :
    Text.slice c.rootElement.fullText c.fullRange = .ok c.element.fullText := by
  obtain ⟨front, back, hleaves, hoffset⟩ := h.exists_leaves
  have htext : c.rootElement.fullText.toList =
      Token.spell front ++ c.element.fullText.toList ++ Token.spell back := by
    rw [Element.toList_fullText, hleaves, Token.spell_append, Token.spell_append,
      ← Element.toList_fullText]
  rw [← String.ofList_toList (s := c.element.fullText)]
  refine Text.slice_eq htext ?_ ?_
  · rw [Token.utf8Len_spell]
    exact hoffset
  · rw [Token.utf8Len_spell, Element.utf8Len_fullText, ← hoffset]
    rfl

/-- The range of a place cuts out its text without the outer trivia. -/
theorem IsPlaced.slice_range (h : c.IsPlaced) :
    Text.slice c.rootElement.fullText c.range = .ok c.text := by
  obtain ⟨front, back, hleaves, hoffset⟩ := h.exists_leaves
  have htext : c.rootElement.fullText.toList =
      Token.spell front ++ c.element.leadingTrivia.text.toList ++ c.text.toList ++
        (c.element.trailingTrivia.text.toList ++ Token.spell back) := by
    rw [Element.toList_fullText, hleaves, Token.spell_append, Token.spell_append,
      ← Element.toList_fullText, Element.toList_fullText_eq, text]
    simp only [List.append_assoc]
  rw [← String.ofList_toList (s := c.text)]
  refine Text.slice_eq htext ?_ ?_
  · rw [String.utf8Len_append, Token.utf8Len_spell, Trivia.utf8Len_text, ← hoffset]
    rfl
  · rw [String.utf8Len_append, Token.utf8Len_spell, Trivia.utf8Len_text, ← hoffset, text,
      (Element.len_add c.element).2]
    rfl

/-- Behind each character of a place is a boundary of the text of its tree. -/
theorem IsPlaced.isBoundary_of_append {front rest : List Char} (h : c.IsPlaced)
    (hc : c.element.fullText.toList = front ++ rest) :
    Text.isBoundary c.rootElement.fullText (c.offset + String.utf8Len front) = true := by
  obtain ⟨before, behind, htext, hstart, -⟩ := Text.slice_eq_ok h.slice_fullRange
  have hoffset : c.offset = String.utf8Len before := hstart
  refine Text.isBoundary_iff.mpr ⟨before ++ front, rest ++ behind, ?_, ?_⟩
  · rw [htext, hc]
    simp only [List.append_assoc]
  · rw [String.utf8Len_append, hoffset]

theorem IsPlaced.isBoundary_position (h : c.IsPlaced) :
    Text.isBoundary c.rootElement.fullText c.position = true := by
  have hc := Element.toList_fullText_eq c.element
  rw [List.append_assoc] at hc
  have hboundary := h.isBoundary_of_append hc
  rwa [Trivia.utf8Len_text] at hboundary

theorem IsPlaced.isBoundary_endPosition (h : c.IsPlaced) :
    Text.isBoundary c.rootElement.fullText c.endPosition = true := by
  have hboundary := h.isBoundary_of_append (Element.toList_fullText_eq c.element)
  rwa [String.utf8Len_append, Trivia.utf8Len_text, (Element.len_add c.element).2,
    ← Nat.add_assoc] at hboundary

end Cursor

end SwiftTidy
