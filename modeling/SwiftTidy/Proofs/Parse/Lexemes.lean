import Mathlib.Data.List.Nodup
import SwiftTidy.Proofs.Parse.WellKinded
import SwiftTidy.Proofs.Tree.Meeting
import SwiftTidy.Proofs.Tree.Ranges

/-!
# Nothing that is cut off is empty

Every scanner takes at least one character, so no token but the end of the file has an empty text
and no piece of trivia is empty (`tokens_isCut`).  Cutting an operator in two leaves two that are
not empty, so the same holds of the leaves of a tree (`leaves_isCut`).

The trivia behind a token ends with the line, so no leaf of a tree has a line break behind it
(`containsNewline_trailing`).

A syntax tree is as long as its source, and because only its last leaf may be empty it has at most
one more leaf than it has bytes.  So below half of what 32 bits hold there is room at every place
for one more byte for each leaf (`fullLen_add_length_lt`), and no two tokens start at one position
(`token_eq_of_position`).
-/

namespace SwiftTidy

/-- No piece of the trivia is empty. -/
def Trivia.IsCut (t : Trivia) : Prop := ∀ p ∈ t, p.text ≠ ""

/-- Neither the token nor a piece of the trivia around it is empty. -/
structure Token.IsCut (t : Token) : Prop where
  text : t.text ≠ ""
  leading : t.leading.IsCut
  trailing : t.trailing.IsCut

theorem TriviaPiece.len_pos {p : TriviaPiece} (h : p.text ≠ "") : 0 < p.len :=
  Nat.pos_of_ne_zero fun hlen => h (String.utf8ByteSize_eq_zero_iff.mp hlen)

theorem Token.IsCut.len_pos {t : Token} (h : t.IsCut) : 0 < t.len :=
  Nat.pos_of_ne_zero fun hlen => h.text (String.utf8ByteSize_eq_zero_iff.mp hlen)

namespace Lexer

theorem front_ne_empty {n : Nat} {cs : List Char} (hn : 0 < n) (hcs : cs ≠ []) :
    front n cs ≠ "" := by
  obtain ⟨c, cs, rfl⟩ := List.exists_cons_of_ne_nil hcs
  obtain ⟨n, rfl⟩ := Nat.exists_eq_succ_of_ne_zero (Nat.ne_of_gt hn)
  intro hempty
  have hlist := congrArg String.toList hempty
  rw [toList_front, List.take_succ_cons] at hlist
  cases hlist

/-! ### Trivia -/

/-- A piece of trivia takes a character of a text that is not empty. -/
theorem triviaPiece?_pos {trailing : Bool} {cs : List Char} {kind : TriviaKind} {n : Nat}
    (h : triviaPiece? trailing cs = .ok (some (kind, n))) : 0 < n ∧ cs ≠ [] := by
  unfold triviaPiece? at h
  split at h
  · cases h
  · split at h <;> cases h
    exact ⟨Nat.one_pos, List.cons_ne_nil _ _⟩
  · split at h <;> cases h
    exact ⟨Nat.two_pos, List.cons_ne_nil _ _⟩
  · split at h <;> cases h
    exact ⟨Nat.one_pos, List.cons_ne_nil _ _⟩
  · cases h
    exact ⟨Nat.succ_pos _, List.cons_ne_nil _ _⟩
  · split at h
    · cases h
      exact ⟨Nat.succ_pos _, List.cons_ne_nil _ _⟩
    · cases h
  · split at h <;> cases h
    exact ⟨Nat.succ_pos _, List.cons_ne_nil _ _⟩

theorem trivia_isCut (trailing : Bool) (fuel pos : Nat) (cs : List Char) {t : Trivia}
    {rest : List Char} (h : trivia trailing fuel pos cs = .ok (t, rest)) : t.IsCut := by
  induction fuel generalizing pos cs t with
  | zero =>
    cases h
    exact fun p hp => absurd hp List.not_mem_nil
  | succ fuel ih =>
    rw [trivia] at h
    split at h
    · cases h
    · cases h
      exact fun p hp => absurd hp List.not_mem_nil
    · rename_i kind n hpiece
      obtain ⟨hn, hcs⟩ := triviaPiece?_pos hpiece
      split at h
      · cases h
      · rename_i t' rest' hrest
        cases h
        exact List.forall_mem_cons.mpr ⟨front_ne_empty hn hcs, ih _ _ hrest⟩

theorem interpreterLine_isCut (cs : List Char) : (interpreterLine cs).1.IsCut := by
  unfold interpreterLine
  split
  · exact List.forall_mem_cons.mpr
      ⟨front_ne_empty (Nat.succ_pos _) (List.cons_ne_nil _ _), fun p hp => absurd hp List.not_mem_nil⟩
  · exact fun p hp => absurd hp List.not_mem_nil

/-! ### Tokens -/

/-- A number takes its first digit. -/
theorem numberRest_pos (hex : Bool) {c : Char} (hc : c.isDigit = true) (cs : List Char) :
    0 < (numberRest hex (c :: cs)).1 := by
  have halpha : c.isAlphanum = true := by rw [Char.isAlphanum, hc, Bool.or_true]
  have hdot : c ≠ '.' := by
    rintro rfl
    exact absurd hc (by decide)
  unfold numberRest
  split
  · rename_i heq
    cases heq
  · rename_i heq
    cases heq
    exact absurd rfl hdot
  · rename_i heq
    cases heq
    rw [if_pos (by simp [halpha])]
    split_ifs <;> exact Nat.succ_pos _
  · rename_i heq
    cases heq
    rw [if_pos (by simp [halpha])]
    exact Nat.one_pos

theorem rangeOperatorLength_pos {c : Char} (hc : c = '.') (cs : List Char) :
    0 < rangeOperatorLength (c :: cs) := by
  unfold rangeOperatorLength
  rw [List.takeWhile_cons_of_pos (by rw [hc]; rfl)]
  dsimp only
  split <;> simp

theorem operatorLength_pos (leftBound : Bool) (c : Char) (cs : List Char) :
    0 < operatorLength leftBound (c :: cs) := by
  rw [operatorLength]
  split_ifs
  · exact Nat.one_pos
  · exact Nat.succ_pos _

theorem escapedNameLength_pos {n : Nat} {cs : List Char} (h : escapedNameLength cs = some n) : 0 < n := by
  unfold escapedNameLength at h
  dsimp only at h
  split at h
  · split_ifs at h
    cases h
    exact Nat.succ_pos _
  · cases h

/-- A token takes a character of a text that is not empty. -/
theorem token_pos (fuel : Nat) (leftBound : Bool) (c : Char) (cs : List Char) {k : SyntaxKind}
    {n : Nat} (h : token fuel leftBound (c :: cs) = .ok (k, n)) : 0 < n := by
  cases frontToken_of_token h with
  | mark | period => exact Nat.one_pos
  | directive | dollar | name => exact Nat.succ_pos _
  | operator _ hn =>
    rw [hn]
    split_ifs with hpoint
    · exact rangeOperatorLength_pos hpoint cs
    · exact operatorLength_pos leftBound c cs
  | literal hhashes hn =>
    obtain ⟨d, ps, rest, -, rfl, -⟩ := exists_spell hhashes hn
    exact d.spell_length_pos ps
  | escaped _ hn => exact escapedNameLength_pos hn
  | number hdigit => exact numberRest_pos _ hdigit _

theorem tokensFrom_isCut (fuel : Nat) (previous : Option Token) (leading : Trivia) (pos : Nat)
    (cs : List Char) {ts : Tokens} (hleading : leading.IsCut)
    (h : tokensFrom fuel previous leading pos cs = .ok ts) :
    (∀ t ∈ ts.pending, t.IsCut) ∧ ts.endOfFile.leading.IsCut ∧ ts.endOfFile.trailing = [] := by
  induction fuel generalizing previous leading pos cs ts with
  | zero => cases h
  | succ fuel ih =>
    cases cs with
    | nil =>
      cases h
      exact ⟨fun t ht => absurd ht List.not_mem_nil, hleading, rfl⟩
    | cons c cs =>
      obtain ⟨kind, n, trailing, rest, leading', rest', us, htoken, htrailing, hnext, hus, rfl⟩ :=
        tokensFrom_cons h
      obtain ⟨hpending, hend⟩ := ih _ _ _ _ (trivia_isCut _ _ _ _ hnext) hus
      refine ⟨List.forall_mem_cons.mpr ⟨⟨?_, hleading, trivia_isCut _ _ _ _ htrailing⟩, hpending⟩, hend⟩
      exact front_ne_empty (token_pos _ _ _ _ htoken) (List.cons_ne_nil _ _)

/-- No token of a source is empty, apart from the end of the file, and no piece of trivia is.  Behind
the end of the file there is none. -/
theorem tokens_isCut {source : String} {ts : Tokens} (h : tokens source = .ok ts) :
    (∀ t ∈ ts.pending, t.IsCut) ∧ ts.endOfFile.leading.IsCut ∧ ts.endOfFile.trailing = [] := by
  obtain ⟨line, t, rest, rfl, htrivia, h⟩ := tokens_eq_ok h
  refine tokensFrom_isCut _ _ _ _ _ ?_ h
  exact List.forall_mem_append.mpr ⟨interpreterLine_isCut _, trivia_isCut _ _ _ _ htrivia⟩

end Lexer

/-- **The leaves of a syntax tree**: tokens that are not empty, with trivia that has no empty
pieces, and then the end of the file. -/
theorem leaves_isCut {source : String} {tree : Element} (h : parse source = .ok tree) :
    ∃ ts t, tree.leaves = ts ++ [t] ∧ (∀ u ∈ ts, u.IsCut) ∧ t.leading.IsCut ∧ t.trailing = [] ∧
      t.kind = .endOfFile := by
  obtain ⟨ts, items, s, hts, hitems, rfl⟩ := parse_eq_ok h
  obtain ⟨hwords, hend⟩ := Lexer.tokens_isWord hts
  obtain ⟨hcut, hleading, htrailing⟩ := Lexer.tokens_isCut hts
  have hlevel := Grammar.assembled_level (depthFor source.utf8ByteSize)
  have hassembled := Grammar.assembled_fileItems hlevel
  have hleaves := hassembled.forall_leaves (P := Token.IsCut) (fun t k _ ht => ⟨ht.1, ht.2, ht.3⟩) ?_
    hitems (by simpa using hcut)
  · have hendOfFile : s.endOfFile = ts.endOfFile := (hassembled.kept hitems).endOfFile
    refine ⟨Element.leavesAll items, s.endOfFile, by simp, ?_, ?_⟩
    · exact fun u hu => hleaves u (List.mem_append_left _ hu)
    · rw [hendOfFile]
      exact ⟨hleading, htrailing, hend⟩
  · intro t c cs htext ht k _
    have hnil : Trivia.IsCut [] := fun p hp => absurd hp List.not_mem_nil
    have hangle : ">" ≠ "" := by decide
    refine ⟨⟨hangle, ht.leading, hnil⟩, fun hempty => ?_, hnil, ht.trailing⟩
    have hlist := congrArg String.toList hempty
    rw [String.toList_ofList] at hlist
    cases hlist

/-! ### Tokens of a syntax tree -/

/-- A token of a parsed tree that is not the last one is not empty. -/
theorem isCut_of_mem_dropLast {source : String} {tree : Element} {x : Cursor}
    (h : parse source = .ok tree) (hx : x ∈ (Cursor.root tree).tokens.dropLast) :
    ∃ t, x.element = .token t ∧ t.IsCut := by
  obtain ⟨ts, t, hleaves, hcut, -⟩ := leaves_isCut h
  have hmem := List.mem_map_of_mem (f := Cursor.element) hx
  have hmap : (Cursor.root tree).tokens.map Cursor.element = tree.leaves.map .token :=
    Cursor.map_element_tokensOf (wellKinded_parse h) rfl
  rw [List.map_dropLast, hmap, ← List.map_dropLast, hleaves, List.dropLast_concat] at hmem
  obtain ⟨u, hu, heq⟩ := List.mem_map.mp hmem
  exact ⟨u, heq.symm, hcut u hu⟩

/-- No piece of trivia in a parsed tree is empty. -/
theorem trivia_isCut_of_mem_leaves {source : String} {tree : Element} {t : Token}
    (h : parse source = .ok tree) (ht : t ∈ tree.leaves) : t.leading.IsCut ∧ t.trailing.IsCut := by
  obtain ⟨ts, u, hleaves, hcut, hleading, htrailing, -⟩ := leaves_isCut h
  rw [hleaves, List.mem_append, List.mem_singleton] at ht
  rcases ht with ht | rfl
  · exact ⟨(hcut t ht).leading, (hcut t ht).trailing⟩
  · rw [htrailing]
    exact ⟨hleading, fun p hp => absurd hp List.not_mem_nil⟩

/-- A leaf of a parsed tree that is not the end of the file is not empty. -/
theorem isCut_of_mem_leaves {source : String} {tree : Element} {t : Token}
    (h : parse source = .ok tree) (ht : t ∈ tree.leaves) (hkind : t.kind ≠ .endOfFile) : t.IsCut := by
  obtain ⟨ts, u, hleaves, hcut, -, -, hend⟩ := leaves_isCut h
  rw [hleaves, List.mem_append, List.mem_singleton] at ht
  rcases ht with ht | rfl
  · exact hcut t ht
  · exact absurd hend hkind

/-- A token of a parsed tree that is not the end of the file is not empty. -/
theorem isCut_of_mem_tokens {source : String} {tree : Element} {x : Cursor}
    (h : parse source = .ok tree) (hx : x ∈ (Cursor.root tree).tokens)
    (hkind : x.kind ≠ .endOfFile) : ∃ t, x.element = .token t ∧ t.IsCut := by
  obtain ⟨t, ht, hmem⟩ := Cursor.exists_token_of_mem_tokensOf (wellKinded_parse h) rfl hx
  rw [Cursor.kind, ht] at hkind
  exact ⟨t, ht, isCut_of_mem_leaves h hmem hkind⟩

/-! ### Trivia on the line of a token -/

namespace Lexer

theorem isComment_lineCommentKind (cs : List Char) : (lineCommentKind cs).isComment = true := by
  unfold lineCommentKind
  split <;> rfl

theorem isComment_blockCommentKind (cs : List Char) : (blockCommentKind cs).isComment = true := by
  unfold blockCommentKind
  split <;> rfl

theorem ne_newline_of_isComment {kind : TriviaKind} (h : kind.isComment = true) :
    kind ≠ .newline := by
  rintro rfl
  cases h

/-- Behind a token no line break is taken. -/
theorem triviaPiece?_ne_newline {cs : List Char} {kind : TriviaKind} {n : Nat}
    (h : triviaPiece? true cs = .ok (some (kind, n))) : kind ≠ .newline := by
  unfold triviaPiece? at h
  split at h
  · cases h
  · cases h
  · cases h
  · cases h
  · cases h
    exact ne_newline_of_isComment (isComment_lineCommentKind _)
  · split at h
    · cases h
      exact ne_newline_of_isComment (isComment_blockCommentKind _)
    · cases h
  · split at h <;> cases h
    decide

theorem containsNewline_trivia (fuel pos : Nat) (cs : List Char) {t : Trivia} {rest : List Char}
    (h : trivia true fuel pos cs = .ok (t, rest)) : t.containsNewline = false := by
  induction fuel generalizing pos cs t with
  | zero =>
    cases h
    rfl
  | succ fuel ih =>
    rw [trivia] at h
    split at h
    · cases h
    · cases h
      rfl
    · rename_i kind n hpiece
      split at h
      · cases h
      · rename_i t' rest' hrest
        cases h
        have hkind : (kind == .newline) = false := by
          simpa using triviaPiece?_ne_newline hpiece
        have hlater := ih _ _ hrest
        rw [Trivia.containsNewline] at hlater ⊢
        rw [List.any_cons, TriviaPiece.isNewline, hkind, hlater]
        rfl

theorem tokensFrom_containsNewline (fuel : Nat) (previous : Option Token) (leading : Trivia)
    (pos : Nat) (cs : List Char) {ts : Tokens}
    (h : tokensFrom fuel previous leading pos cs = .ok ts) :
    ∀ t ∈ ts.pending, t.trailing.containsNewline = false := by
  induction fuel generalizing previous leading pos cs ts with
  | zero => cases h
  | succ fuel ih =>
    cases cs with
    | nil =>
      cases h
      exact fun t ht => absurd ht List.not_mem_nil
    | cons c cs =>
      obtain ⟨kind, n, trailing, rest, leading', rest', us, -, htrailing, -, hus, rfl⟩ :=
        tokensFrom_cons h
      exact List.forall_mem_cons.mpr ⟨containsNewline_trivia _ _ _ htrailing, ih _ _ _ _ hus⟩

end Lexer

/-- **Trailing trivia stays on its line**: no leaf has a line break behind it. -/
theorem containsNewline_trailing {source : String} {tree : Element} {t : Token}
    (h : parse source = .ok tree) (ht : t ∈ tree.leaves) : t.trailing.containsNewline = false := by
  obtain ⟨ts, items, s, hts, hitems, rfl⟩ := parse_eq_ok h
  obtain ⟨line, front, rest, -, -, hfrom⟩ := Lexer.tokens_eq_ok hts
  have hpending := Lexer.tokensFrom_containsNewline _ _ _ _ _ hfrom
  have hassembled := Grammar.assembled_fileItems (Grammar.assembled_level (depthFor source.utf8ByteSize))
  have hleaves := hassembled.forall_leaves (P := fun t => t.trailing.containsNewline = false)
    (fun t k _ ht => ht) (fun t c cs _ ht k _ => ⟨rfl, ht⟩) hitems (by simpa using hpending)
  have hendOfFile : s.endOfFile = ts.endOfFile := (hassembled.kept hitems).endOfFile
  rw [Element.leaves_node, Element.leavesAll_append, List.mem_append] at ht
  rcases ht with ht | ht
  · exact hleaves t (List.mem_append_left _ ht)
  · obtain rfl : t = s.endOfFile := by simpa using ht
    rw [hendOfFile, (Lexer.tokens_isCut hts).2.2]
    rfl

/-! ### The extent of a syntax tree -/

section Extent

variable {source : String} {tree : Element} {c : Cursor}

theorem Token.length_le_fullLenAll {ts : List Token} (h : ∀ t ∈ ts, t.IsCut) :
    ts.length ≤ fullLenAll ts := by
  induction ts with
  | nil => exact Nat.zero_le _
  | cons t ts ih =>
    obtain ⟨ht, hts⟩ := List.forall_mem_cons.mp h
    have hpos := ht.len_pos
    have hrest := ih hts
    rw [List.length_cons, fullLenAll_cons, fullLen]
    omega

/-- A syntax tree is as long as its source. -/
theorem fullLen_parse (h : parse source = .ok tree) : tree.fullLen = source.utf8ByteSize := by
  rw [← Element.utf8ByteSize_fullText, fullText_parse h]

/-- A syntax tree has at most one more leaf than its source has bytes. -/
theorem length_leaves_parse_le (h : parse source = .ok tree) :
    tree.leaves.length ≤ source.utf8ByteSize + 1 := by
  obtain ⟨ts, t, hleaves, hcut, -⟩ := leaves_isCut h
  have hlen := Token.length_le_fullLenAll hcut
  rw [← fullLen_parse h, Element.fullLen_eq, hleaves, Token.fullLenAll_append, List.length_append,
    List.length_singleton]
  omega

theorem Cursor.IsPlaced.length_leaves_le (h : c.IsPlaced) :
    c.element.leaves.length ≤ c.rootElement.leaves.length := by
  obtain ⟨front, back, hleaves, -⟩ := h.exists_leaves
  rw [hleaves, List.length_append, List.length_append]
  omega

/-- Every place of a syntax tree ends within the source. -/
theorem fullEnd_le_of_mem_descendants (h : parse source = .ok tree)
    (hc : c ∈ (Cursor.root tree).descendants) : c.fullEnd ≤ source.utf8ByteSize := by
  obtain ⟨hplaced, hroot⟩ := Cursor.isPlaced_of_mem_descendants hc
  have hend := hplaced.fullEnd_le
  rwa [hroot, fullLen_parse h] at hend

/-- In a source of less than half the bytes that 32 bits count, every place has room for what it holds
once more. -/
theorem two_mul_fullLen_lt (h : parse source = .ok tree) (hlen : source.utf8ByteSize < 2 ^ 31)
    (hc : c ∈ (Cursor.root tree).descendants) : 2 * c.element.fullLen < Offset.limit := by
  have hend : c.offset + c.element.fullLen ≤ source.utf8ByteSize :=
    fullEnd_le_of_mem_descendants h hc
  have hlimit : Offset.limit = 2 ^ 31 + 2 ^ 31 := rfl
  omega

/-- **Room for edits**: in a source of less than half the bytes that 32 bits count, every place has
room for one more byte for each of its leaves. -/
theorem fullLen_add_length_lt (h : parse source = .ok tree)
    (hlen : source.utf8ByteSize < 2 ^ 31) (hc : c ∈ (Cursor.root tree).descendants) :
    c.element.fullLen + c.element.leaves.length < Offset.limit := by
  obtain ⟨hplaced, hroot⟩ := Cursor.isPlaced_of_mem_descendants hc
  have hend : c.offset + c.element.fullLen ≤ source.utf8ByteSize :=
    fullEnd_le_of_mem_descendants h hc
  have hleaves := hplaced.length_leaves_le
  rw [hroot] at hleaves
  have htree := length_leaves_parse_le h
  have hlimit : Offset.limit = 2 ^ 31 + 2 ^ 31 := rfl
  omega

/-! ### Positions of tokens -/

/-- Tokens that are not empty start one behind the other. -/
theorem pairwise_placed {ts : List Token} (t : Token) (h : ∀ u ∈ ts, u.IsCut) (o : Nat) :
    (Token.placed o (ts ++ [t])).Pairwise fun x y =>
      x.1 + x.2.leading.len < y.1 + y.2.leading.len := by
  induction ts generalizing o with
  | nil => exact List.pairwise_singleton _ _
  | cons u ts ih =>
    rw [List.forall_mem_cons] at h
    rw [List.cons_append, Token.placed, List.pairwise_cons]
    refine ⟨fun x hx => ?_, ih h.2 _⟩
    obtain ⟨hfrom, -⟩ := Cursor.bounds_of_mem_placed hx
    have hpos := h.1.len_pos
    have hfull : u.fullLen = u.leading.len + u.len + u.trailing.len := rfl
    dsimp only
    omega

/-- The tokens of a file start one behind the other. -/
theorem tokens_pairwise_position (h : parse source = .ok tree) :
    (Cursor.root tree).tokens.Pairwise fun x y => x.position < y.position := by
  obtain ⟨ts, t, hleaves, hcut, -⟩ := leaves_isCut h
  have hplaced := pairwise_placed t hcut 0
  rw [← hleaves] at hplaced
  have hmap := Cursor.map_tokensOf tree (.root tree) (wellKinded_parse h) rfl
  have hpairs : ((Token.placed 0 tree.leaves).map fun p => (p.1, Element.token p.2)).Pairwise
      fun x y => x.1 + x.2.leadingTrivia.len < y.1 + y.2.leadingTrivia.len := by
    rw [List.pairwise_map]
    exact hplaced
  have hoffset : (Cursor.root tree).offset = 0 := rfl
  rw [hoffset] at hmap
  rw [← hmap, List.pairwise_map] at hpairs
  exact hpairs

/-- A token is told by its position. -/
theorem token_eq_of_position {x y : Cursor} (h : parse source = .ok tree)
    (hx : x ∈ (Cursor.root tree).tokens) (hy : y ∈ (Cursor.root tree).tokens)
    (hsame : x.position = y.position) : x = y := by
  have hnodup : ((Cursor.root tree).tokens.map Cursor.position).Nodup := by
    rw [List.nodup_iff_pairwise_ne, List.pairwise_map]
    exact (tokens_pairwise_position h).imp fun hlt => Nat.ne_of_lt hlt
  exact List.inj_on_of_nodup_map hnodup hx hy hsame

end Extent

end SwiftTidy
