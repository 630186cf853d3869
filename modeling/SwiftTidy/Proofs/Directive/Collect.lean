import Mathlib.Data.String.Basic
import SwiftTidy.Directive.Command
import SwiftTidy.Proofs.Text.Words
import SwiftTidy.Proofs.Tree.Ranges

/-!
# Where directives are found

The directives of a tree are those of its leaves, looked at one behind the other (`collect_eq`).
A directive lies within a comment and at most one is found in each, so their offsets increase
(`collect_pairwise`): no two directives have the same one.  Each stands in front of a character of
the text (`isBoundary_of_mem_collect`).
-/

namespace SwiftTidy

namespace Trivia

/-- The comments of a run lie within it, one behind the other. -/
theorem commentsFrom_bounds (start : Nat) (t : Trivia) :
    (∀ x ∈ commentsFrom start t, start ≤ x.1 ∧ x.1 + x.2.len ≤ start + len t) ∧
      (commentsFrom start t).Pairwise fun x y => x.1 + x.2.len ≤ y.1 := by
  induction t generalizing start with
  | nil => simp [commentsFrom]
  | cons p t ih =>
    obtain ⟨hbounds, hpairwise⟩ := ih (start + p.len)
    rw [commentsFrom, len_cons]
    have hrest : ∀ x ∈ commentsFrom (start + p.len) t,
        start ≤ x.1 ∧ x.1 + x.2.len ≤ start + (p.len + len t) := by
      intro x hx
      have hx := hbounds x hx
      omega
    split
    · refine ⟨List.forall_mem_cons.mpr ⟨by dsimp only; omega, hrest⟩,
        List.pairwise_cons.mpr ⟨fun x hx => (hbounds x hx).1, hpairwise⟩⟩
    · exact ⟨hrest, hpairwise⟩

theorem commentsFrom_append (start : Nat) (s t : Trivia) :
    commentsFrom start (s ++ t) = commentsFrom start s ++ commentsFrom (start + len s) t := by
  induction s generalizing start with
  | nil => rfl
  | cons p s ih =>
    rw [List.cons_append, commentsFrom, commentsFrom, ih, len_cons, Nat.add_assoc]
    split <;> rfl

/-- Further behind, the comments are the same. -/
theorem commentsFrom_add (base start : Nat) (t : Trivia) : commentsFrom (base + start) t =
    (commentsFrom start t).map fun x => (base + x.1, x.2) := by
  induction t generalizing start with
  | nil => rfl
  | cons p t ih =>
    rw [commentsFrom, commentsFrom, Nat.add_assoc, ih]
    split <;> rfl

/-- A comment stands where the pieces in front of it end. -/
theorem mem_commentsFrom_iff {start : Nat} {t : Trivia} {x : Nat × TriviaPiece} :
    x ∈ commentsFrom start t ↔ ∃ before after : Trivia, t = before ++ x.2 :: after ∧
      x.2.isComment = true ∧ x.1 = start + len before := by
  constructor
  · intro h
    induction t generalizing start with
    | nil => cases h
    | cons p t ih =>
      have hlater : x ∈ commentsFrom (start + p.len) t → ∃ before after : Trivia,
          p :: t = before ++ x.2 :: after ∧ x.2.isComment = true ∧ x.1 = start + len before := by
        intro hx
        obtain ⟨before, after, rfl, hcomment, hstart⟩ := ih hx
        exact ⟨p :: before, after, rfl, hcomment, by rw [hstart, len_cons, Nat.add_assoc]⟩
      rw [commentsFrom] at h
      split at h
      · rename_i hcomment
        rcases List.mem_cons.mp h with rfl | hx
        · exact ⟨[], t, rfl, hcomment, rfl⟩
        · exact hlater hx
      · exact hlater h
  · rintro ⟨before, after, rfl, hcomment, hstart⟩
    rw [commentsFrom_append, commentsFrom, if_pos hcomment, ← hstart]
    exact List.mem_append_right _ List.mem_cons_self

end Trivia

namespace Token

/-- The comments around a token that starts at an offset, each with the byte it starts at. -/
def commentsAround (p : Nat × Token) : List (Nat × TriviaPiece) :=
  Trivia.commentsFrom p.1 p.2.leading ++
    Trivia.commentsFrom (p.1 + p.2.leading.len + p.2.len) p.2.trailing

/-- The comments around tokens, one behind the other from an offset on. -/
def comments (start : Nat) (ts : List Token) : List (Nat × TriviaPiece) :=
  (placed start ts).flatMap commentsAround

theorem comments_cons (start : Nat) (t : Token) (ts : List Token) :
    comments start (t :: ts) = commentsAround (start, t) ++ comments (start + t.fullLen) ts := rfl

theorem commentsAround_bounds (start : Nat) (t : Token) :
    (∀ x ∈ commentsAround (start, t), start ≤ x.1 ∧ x.1 + x.2.len ≤ start + t.fullLen) ∧
      (commentsAround (start, t)).Pairwise fun x y => x.1 + x.2.len ≤ y.1 := by
  obtain ⟨hleading, hleadings⟩ := Trivia.commentsFrom_bounds start t.leading
  obtain ⟨htrailing, htrailings⟩ :=
    Trivia.commentsFrom_bounds (start + t.leading.len + t.len) t.trailing
  constructor
  · intro x hx
    rw [fullLen]
    rcases List.mem_append.mp hx with hx | hx
    · have hx := hleading x hx
      omega
    · have hx := htrailing x hx
      omega
  · refine List.pairwise_append.mpr ⟨hleadings, htrailings, fun x hx y hy => ?_⟩
    have hx := hleading x hx
    have hy := htrailing y hy
    omega

/-- The comments around tokens lie one behind the other. -/
theorem comments_bounds (start : Nat) (ts : List Token) :
    (∀ x ∈ comments start ts, start ≤ x.1) ∧
      (comments start ts).Pairwise fun x y => x.1 + x.2.len ≤ y.1 := by
  induction ts generalizing start with
  | nil => exact ⟨nofun, List.Pairwise.nil⟩
  | cons t ts ih =>
    obtain ⟨hbounds, hpairwise⟩ := commentsAround_bounds start t
    obtain ⟨hrest, hrests⟩ := ih (start + t.fullLen)
    rw [comments_cons]
    refine ⟨fun x hx => ?_, List.pairwise_append.mpr ⟨hpairwise, hrests, fun x hx y hy => ?_⟩⟩
    · rcases List.mem_append.mp hx with hx | hx
      · exact (hbounds x hx).1
      · have hx := hrest x hx
        omega
    · have hx := hbounds x hx
      have hy := hrest y hy
      omega

end Token

namespace Command

variable {ix : LineIndex}

/-- The offset and the line of a directive are those that are given, and all else is read. -/
theorem parse?_eq (text : String) (offset : Nat) (line : OneIndexed) :
    parse? text offset line =
      (parse? text 0 .one).map fun c => { c with line := line, offset := offset } := by
  unfold parse?
  dsimp only
  generalize (Words.splitAtFirst CharClass.isBlank _).getD _ = parts
  cases parseHead? parts.1 with
  | none => rfl
  | some head =>
    cases Words.splitAtText [' ', '-', ' '] parts.2 with
    | none =>
      simp only [Option.bind_eq_bind, Option.bind_some]
      split <;> rfl
    | some names =>
      simp only [Option.bind_eq_bind, Option.bind_some]
      split <;> rfl

theorem offset_of_parse? {text : String} {offset : Nat} {line : OneIndexed} {c : Command}
    (h : parse? text offset line = some c) : c.offset = offset := by
  rw [parse?_eq] at h
  obtain ⟨d, -, rfl⟩ := Option.map_eq_some_iff.mp h
  rfl

/-- The directive in a comment that starts at a byte. -/
def ofComment? (ix : LineIndex) (x : Nat × TriviaPiece) : Option Command := do
  let (front, _) ← Words.splitAtText marker.toList x.2.text.toList
  let offset := x.1 + (String.ofList front).utf8ByteSize
  parse? (String.ofList (x.2.text.toList.drop front.length)) offset (ix.lineOf offset)

/-- A marker takes up some of the bytes behind the text in front of it. -/
theorem utf8Len_lt_of_marker {p : TriviaPiece} {front rest : List Char}
    (h : p.text.toList = front ++ marker.toList ++ rest) : String.utf8Len front < p.len := by
  have hmarker : String.utf8Len marker.toList = 10 := rfl
  rw [TriviaPiece.len, Text.utf8ByteSize_eq, h, String.utf8Len_append, String.utf8Len_append]
  omega

/-- A directive in a comment lies within it. -/
theorem ofComment?_bounds {x : Nat × TriviaPiece} {c : Command} (h : ofComment? ix x = some c) :
    x.1 ≤ c.offset ∧ c.offset < x.1 + x.2.len := by
  obtain ⟨⟨front, rest⟩, hsplit, hparse⟩ := Option.bind_eq_some_iff.mp h
  have hlen := utf8Len_lt_of_marker (Words.append_of_splitAtText hsplit)
  rw [offset_of_parse? hparse, String.utf8ByteSize_ofList]
  omega

/-- The directives in a run of trivia are those in its comments. -/
theorem inTrivia_eq (ix : LineIndex) (base : Nat) (t : Trivia) :
    inTrivia ix base t = (Trivia.commentsFrom base t).filterMap (ofComment? ix) := by
  rw [← Nat.add_zero base, Trivia.commentsFrom_add, List.filterMap_map]
  rfl

/-- A directive stands behind some of the characters of its run of trivia. -/
theorem exists_of_mem_inTrivia {base : Nat} {t : Trivia} {c : Command}
    (h : c ∈ inTrivia ix base t) : ∃ front rest, t.text.toList = front ++ rest ∧
      c.offset = base + String.utf8Len front := by
  obtain ⟨⟨relative, piece⟩, hmem, hread⟩ := List.mem_filterMap.mp h
  obtain ⟨⟨inFront, behind⟩, hsplit, hparse⟩ := Option.bind_eq_some_iff.mp hread
  obtain ⟨before, after, rfl, -, hrelative⟩ := Trivia.mem_commentsFrom_iff.mp hmem
  refine ⟨before.text.toList ++ inFront, marker.toList ++ behind ++ after.text.toList, ?_, ?_⟩
  · rw [Trivia.toList_text_append, Trivia.toList_text_cons, Words.append_of_splitAtText hsplit]
    simp only [List.append_assoc]
  · have hrelative : relative = 0 + before.len := hrelative
    rw [offset_of_parse? hparse, String.utf8ByteSize_ofList, String.utf8Len_append,
      Trivia.utf8Len_text, hrelative]
    omega

/-- A directive stands at a boundary between characters. -/
theorem isBoundary_of_mem_collect {tree : Element} {c : Command}
    (h : c ∈ collect (.root tree) ix) : Text.isBoundary tree.fullText c.offset = true := by
  obtain ⟨x, hx, hc⟩ := List.mem_flatMap.mp h
  obtain ⟨hplaced, hroot⟩ := Cursor.isPlaced_of_mem_descendants (List.mem_filter.mp hx).1
  cases htoken : x.token? with
  | none =>
    rw [htoken] at hc
    cases hc
  | some t =>
    rw [htoken] at hc
    have helement : x.element = .token t := Cursor.token?_eq_some.mp htoken
    have htext := Element.toList_fullText_eq x.element
    have hleading : x.element.leadingTrivia = t.leading := by rw [helement]; rfl
    have htrailing : x.element.trailingTrivia = t.trailing := by rw [helement]; rfl
    rw [hleading, htrailing] at htext
    rw [← hroot]
    rcases List.mem_append.mp hc with hc | hc
    · obtain ⟨front, rest, hfront, hoffset⟩ := exists_of_mem_inTrivia hc
      rw [hfront, List.append_assoc, List.append_assoc] at htext
      rw [hoffset]
      exact hplaced.isBoundary_of_append htext
    · obtain ⟨front, rest, hfront, hoffset⟩ := exists_of_mem_inTrivia hc
      rw [hfront, ← List.append_assoc] at htext
      have hboundary := hplaced.isBoundary_of_append htext
      rw [String.utf8Len_append, String.utf8Len_append, Trivia.utf8Len_text,
        (Element.len_add x.element).2, ← hleading, ← Nat.add_assoc, ← Nat.add_assoc] at hboundary
      rw [hoffset]
      exact hboundary

/-- The directives around an element that starts at an offset: there are none unless it is a token. -/
def aroundElement (ix : LineIndex) (p : Nat × Element) : List Command :=
  match p.2.token? with
  | none => []
  | some t => inTrivia ix p.1 t.leading ++
      inTrivia ix (p.1 + p.2.leadingTrivia.len + p.2.len) t.trailing

/-- The directives of a tree are those in the comments around its leaves. -/
theorem collect_eq {e : Element} (h : e.WellKinded) :
    collect (.root e) ix = (Token.comments 0 e.leaves).filterMap (ofComment? ix) := by
  have htokens : collect (.root e) ix =
      ((Cursor.root e).tokens.map fun x => (x.offset, x.element)).flatMap (aroundElement ix) := by
    rw [List.flatMap_map]
    rfl
  rw [htokens, Cursor.tokens_eq]
  show ((Cursor.tokensOf e (.root e)).map fun x => (x.offset, x.element)).flatMap (aroundElement ix) = _
  rw [Cursor.map_tokensOf e (.root e) h rfl, List.flatMap_map, Token.comments, List.filterMap_flatMap]
  refine congrArg (List.flatMap · _) (funext fun p => ?_)
  show inTrivia ix p.1 p.2.leading ++ inTrivia ix
    (p.1 + (Element.token p.2).leadingTrivia.len + (Element.token p.2).len) p.2.trailing = _
  rw [Element.len_token, inTrivia_eq, inTrivia_eq, Token.commentsAround, List.filterMap_append]
  rfl

/-- **Directives are found in order**: each at a greater offset than the one before. -/
theorem collect_pairwise {e : Element} (h : e.WellKinded) (ix : LineIndex) :
    (collect (.root e) ix).Pairwise fun c d => c.offset < d.offset := by
  rw [collect_eq h]
  refine List.Pairwise.filterMap _ ?_ (Token.comments_bounds 0 e.leaves).2
  intro x y hxy c hc d hd
  have hc := ofComment?_bounds hc
  have hd := ofComment?_bounds hd
  omega

end Command

end SwiftTidy
