import SwiftTidy.Proofs.Directive.Removal
import SwiftTidy.Proofs.Lint.Reports
import SwiftTidy.Proofs.Parse.Refining
import SwiftTidy.Proofs.Text.Lines

/-!
# Directives and the comments of a source

`CommentAt` says what the comments of a source are: pieces that the lexer leaves in front of a token
or behind one.  The directives are looked for around the leaves of the tree, of which some are only
parts of such tokens, but cutting a token gives its two sides the trivia that it had on them
(`Token.Refines.comments_eq`).  So a directive is what some comment says from its first marker on
(`SaysAt`), and every comment that says one is heard (`SourceUnit.commands_of_comments`).

Comments lie one behind the other.  That is why no two directives have the same offset, and why the
commands that a directive expands to are told from all others by their origin.
-/

namespace SwiftTidy

/-! ### The comments of a source -/

/-- A comment of a source and the byte it starts at: the lexer leaves it in front of a token or behind
one. -/
inductive CommentAt (source : String) : Nat → TriviaPiece → Prop where
  | leading {ts : Lexer.Tokens} {before after : List Token} {t : Token} {front back : Trivia}
      {p : TriviaPiece} (hts : Lexer.tokens source = .ok ts)
      (hsplit : ts.pending ++ [ts.endOfFile] = before ++ t :: after)
      (hpiece : t.leading = front ++ p :: back) (hcomment : p.isComment = true) :
      CommentAt source (String.utf8Len (Token.spell before ++ front.text.toList)) p
  | trailing {ts : Lexer.Tokens} {before after : List Token} {t : Token} {front back : Trivia}
      {p : TriviaPiece} (hts : Lexer.tokens source = .ok ts)
      (hsplit : ts.pending ++ [ts.endOfFile] = before ++ t :: after)
      (hpiece : t.trailing = front ++ p :: back) (hcomment : p.isComment = true) :
      CommentAt source (String.utf8Len (Token.spell before ++ t.leading.text.toList ++
        t.text.toList ++ front.text.toList)) p

namespace Token

variable {start : Nat} {ts us : List Token} {p : TriviaPiece}

theorem mem_placed_iff {x : Nat × Token} : x ∈ placed start ts ↔
    ∃ before after, ts = before ++ x.2 :: after ∧ x.1 = start + fullLenAll before := by
  constructor
  · intro h
    induction ts generalizing start with
    | nil => cases h
    | cons t ts ih =>
      rcases List.mem_cons.mp h with rfl | h
      · exact ⟨[], ts, rfl, rfl⟩
      · obtain ⟨before, after, rfl, hstart⟩ := ih h
        exact ⟨t :: before, after, rfl, by rw [hstart, fullLenAll_cons, Nat.add_assoc]⟩
  · rintro ⟨before, after, rfl, hstart⟩
    rw [placed_append, placed, ← hstart]
    exact List.mem_append_right _ List.mem_cons_self

/-- Cutting tokens in two leaves the comments where they are. -/
theorem Refines.comments_eq (h : Refines ts us) (start : Nat) :
    comments start ts = comments start us := by
  induction h generalizing start with
  | nil => rfl
  | keep t k _ ih =>
    rw [comments_cons, comments_cons, ih]
    rfl
  | @split t ts us c cs k k' htext _ ih =>
    have hparts : t.text = ">" ++ String.ofList (c :: cs) := by
      apply String.toList_inj.mp
      simp [htext]
    have hlen : t.len = (">" : String).utf8ByteSize + (String.ofList (c :: cs)).utf8ByteSize := by
      rw [len, hparts, String.utf8ByteSize_append]
    -- The part in front has the leading trivia, and the rest of the token the trailing one.
    rw [comments_cons, comments_cons, ← ih, comments_cons]
    simp only [commentsAround, fullLen, hlen, Trivia.commentsFrom, Trivia.len_nil, List.append_nil,
      List.nil_append, Nat.add_zero, Nat.zero_add, List.append_assoc, Nat.add_assoc]
    rfl

end Token

/-- The comments of a source are those around its tokens. -/
theorem commentAt_iff {source : String} {ts : Lexer.Tokens} (hts : Lexer.tokens source = .ok ts)
    {start : Nat} {p : TriviaPiece} :
    CommentAt source start p ↔ (start, p) ∈ Token.comments 0 (ts.pending ++ [ts.endOfFile]) := by
  constructor
  · intro h
    cases h with
    | @leading ts' before after t front back _ hts' hsplit hpiece hcomment =>
      obtain rfl : ts = ts' := Except.ok.inj (hts.symm.trans hts')
      refine List.mem_flatMap.mpr ⟨(Token.fullLenAll before, t),
        Token.mem_placed_iff.mpr ⟨before, after, hsplit, (Nat.zero_add _).symm⟩, ?_⟩
      refine List.mem_append_left _ (Trivia.mem_commentsFrom_iff.mpr ⟨front, back, hpiece, hcomment, ?_⟩)
      rw [String.utf8Len_append, Token.utf8Len_spell, Trivia.utf8Len_text]
    | @trailing ts' before after t front back _ hts' hsplit hpiece hcomment =>
      obtain rfl : ts = ts' := Except.ok.inj (hts.symm.trans hts')
      refine List.mem_flatMap.mpr ⟨(Token.fullLenAll before, t),
        Token.mem_placed_iff.mpr ⟨before, after, hsplit, (Nat.zero_add _).symm⟩, ?_⟩
      refine List.mem_append_right _ (Trivia.mem_commentsFrom_iff.mpr ⟨front, back, hpiece, hcomment, ?_⟩)
      rw [String.utf8Len_append, String.utf8Len_append, String.utf8Len_append, Token.utf8Len_spell,
        Trivia.utf8Len_text, Trivia.utf8Len_text, ← Text.utf8ByteSize_eq]
      rfl
  · intro h
    obtain ⟨⟨o, t⟩, hplaced, hmem⟩ := List.mem_flatMap.mp h
    obtain ⟨before, after, hsplit, ho⟩ := Token.mem_placed_iff.mp hplaced
    rw [Nat.zero_add] at ho
    rcases List.mem_append.mp hmem with hmem | hmem
    · obtain ⟨front, back, hpiece, hcomment, hstart⟩ := Trivia.mem_commentsFrom_iff.mp hmem
      have hbytes : start = String.utf8Len (Token.spell before ++ front.text.toList) := by
        rw [String.utf8Len_append, Token.utf8Len_spell, Trivia.utf8Len_text, ← ho]
        exact hstart
      rw [hbytes]
      exact .leading hts hsplit hpiece hcomment
    · obtain ⟨front, back, hpiece, hcomment, hstart⟩ := Trivia.mem_commentsFrom_iff.mp hmem
      have hbytes : start = String.utf8Len (Token.spell before ++ t.leading.text.toList ++
          t.text.toList ++ front.text.toList) := by
        rw [String.utf8Len_append, String.utf8Len_append, String.utf8Len_append,
          Token.utf8Len_spell, Trivia.utf8Len_text, Trivia.utf8Len_text, ← Text.utf8ByteSize_eq, ← ho]
        exact hstart
      rw [hbytes]
      exact .trailing hts hsplit hpiece hcomment

/-- A comment is a part of the source, at the byte it starts at. -/
theorem CommentAt.exists_toList_eq {source : String} {start : Nat} {p : TriviaPiece}
    (h : CommentAt source start p) : ∃ before after,
      source.toList = before ++ p.text.toList ++ after ∧ start = String.utf8Len before := by
  cases h with
  | @leading ts before after t front back _ hts hsplit hpiece _ =>
    refine ⟨_, back.text.toList ++ t.text.toList ++ t.trailing.text.toList ++ Token.spell after, ?_, rfl⟩
    rw [← Lexer.spell_tokens hts, hsplit, Token.spell_append, Token.spell_cons, Token.toList_fullText,
      hpiece, Trivia.toList_text_append, Trivia.toList_text_cons]
    simp only [List.append_assoc]
  | @trailing ts before after t front back _ hts hsplit hpiece _ =>
    refine ⟨_, back.text.toList ++ Token.spell after, ?_, rfl⟩
    rw [← Lexer.spell_tokens hts, hsplit, Token.spell_append, Token.spell_cons, Token.toList_fullText,
      hpiece, Trivia.toList_text_append, Trivia.toList_text_cons]
    simp only [List.append_assoc]

/-- Comments that share a byte are the same. -/
theorem CommentAt.eq_of_overlap {source : String} {start start' : Nat} {p p' : TriviaPiece}
    (h : CommentAt source start p) (h' : CommentAt source start' p') {offset : Nat}
    (hoffset : start ≤ offset ∧ offset < start + p.len)
    (hoffset' : start' ≤ offset ∧ offset < start' + p'.len) : start = start' ∧ p = p' := by
  obtain ⟨ts, hts⟩ : ∃ ts, Lexer.tokens source = .ok ts := by
    cases h with
    | leading hts => exact ⟨_, hts⟩
    | trailing hts => exact ⟨_, hts⟩
  have hapart := (Token.comments_bounds 0 (ts.pending ++ [ts.endOfFile])).2
  rw [commentAt_iff hts] at h h'
  have hcases : (start, p) = (start', p') ∨ start + p.len ≤ start' ∨ start' + p'.len ≤ start :=
    List.Pairwise.forall_of_forall_of_flip
      (R := fun x y => x = y ∨ x.1 + x.2.len ≤ y.1 ∨ y.1 + y.2.len ≤ x.1)
      (fun _ _ => .inl rfl) (hapart.imp fun hle => .inr (.inl hle))
      (hapart.imp fun hle => .inr (.inr hle)) h h'
  rcases hcases with heq | hbefore | hbehind
  · exact Prod.mk.inj heq
  · omega
  · omega

/-! ### What comments say -/

namespace Command

/-- What a comment that starts at a byte says: the directive that is read from its first marker on,
with the byte of the marker and the number of lines that end in front of it. -/
def SaysAt (source : String) (start : Nat) (p : TriviaPiece) (c : Command) : Prop :=
  ∃ front rest, Words.FirstAt marker.toList p.text.toList front rest ∧
    c.offset = start + String.utf8Len front ∧
    c.line.val = 1 + {q | Text.EndsLineAt source q ∧ q ≤ c.offset}.ncard ∧
    parse? (String.ofList (marker.toList ++ rest)) c.offset c.line = some c

theorem line_of_parse? {text : String} {offset : Nat} {line : OneIndexed} {c : Command}
    (h : parse? text offset line = some c) : c.line = line := by
  rw [parse?_eq] at h
  obtain ⟨d, -, rfl⟩ := Option.map_eq_some_iff.mp h
  rfl

/-- The directive of a comment is what it says. -/
theorem ofComment?_eq_some_iff {source : String} (hlen : source.utf8ByteSize < Offset.limit)
    {x : Nat × TriviaPiece} {c : Command} :
    ofComment? (.ofText source) x = some c ↔ SaysAt source x.1 x.2 c := by
  have hline (offset : Nat) : ((LineIndex.ofText source).lineOf offset).val =
      1 + {q | Text.EndsLineAt source q ∧ q ≤ offset}.ncard := by
    rw [LineIndex.lineOf_val hlen, LineIndex.countP_starts]
  constructor
  · intro h
    obtain ⟨⟨front, rest⟩, hsplit, hparse⟩ := Option.bind_eq_some_iff.mp h
    have hfirst := Words.splitAtText_eq_some_iff.mp hsplit
    dsimp only at hparse
    have hoffset := offset_of_parse? hparse
    have hcline := line_of_parse? hparse
    rw [String.utf8ByteSize_ofList] at hoffset hcline hparse
    rw [hfirst.eq, List.append_assoc, List.drop_left, ← hcline, ← hoffset] at hparse
    rw [← hoffset] at hcline
    exact ⟨front, rest, hfirst, hoffset, by rw [hcline, hline], hparse⟩
  · rintro ⟨front, rest, hfirst, hoffset, hcline, hparse⟩
    have hlineOf : c.line = (LineIndex.ofText source).lineOf c.offset :=
      OneIndexed.eq_of_val_eq (by rw [hcline, hline])
    rw [ofComment?, Words.splitAtText_eq_some_iff.mpr hfirst]
    simp only [Option.bind_eq_bind, Option.bind_some]
    rw [String.utf8ByteSize_ofList, ← hoffset, ← hlineOf, hfirst.eq, List.append_assoc,
      List.drop_left, hparse]

theorem SaysAt.bounds {source : String} {start : Nat} {p : TriviaPiece} {c : Command}
    (h : SaysAt source start p c) : start ≤ c.offset ∧ c.offset < start + p.len := by
  obtain ⟨front, rest, hfirst, hoffset, -, -⟩ := h
  have hlen := utf8Len_lt_of_marker hfirst.eq
  omega

/-- What a comment says once it is read with another offset and another line. -/
theorem exists_saysAt {source : String} (hlen : source.utf8ByteSize < Offset.limit) (start : Nat)
    {p : TriviaPiece} {front rest : List Char}
    (hfirst : Words.FirstAt marker.toList p.text.toList front rest)
    (hread : (parse? (String.ofList (marker.toList ++ rest)) 0 .one).isSome = true) :
    ∃ c, SaysAt source start p c := by
  obtain ⟨c, hc⟩ := Option.isSome_iff_exists.mp hread
  let offset := start + String.utf8Len front
  let line := (LineIndex.ofText source).lineOf offset
  refine ⟨{ c with line := line, offset := offset }, front, rest, hfirst, rfl, ?_, ?_⟩
  · show line.val = _
    rw [LineIndex.lineOf_val hlen, LineIndex.countP_starts]
  · rw [parse?_eq, hc]
    rfl

end Command

namespace SourceUnit

open Command (SaysAt marker parse? expandAll)

variable {source : String} {u : SourceUnit}

/-- The directives of a source are those in the comments around its leaves. -/
theorem commands_eq_filterMap (h : ofText source = .ok u) : u.commands =
    (Token.comments 0 u.tree.leaves).filterMap (Command.ofComment? u.lineIndex) := by
  rw [← Command.collect_eq (wellKinded_parse (parse_of_ofText h))]
  obtain ⟨tree, -, rfl⟩ := Except.map_eq_ok.mp h
  rfl

theorem commands_eq (h : ofText source = .ok u) {ts : Lexer.Tokens}
    (hts : Lexer.tokens source = .ok ts) : u.commands =
      (Token.comments 0 (ts.pending ++ [ts.endOfFile])).filterMap
        (Command.ofComment? (.ofText source)) := by
  rw [commands_eq_filterMap h, lineIndex_eq h, (leaves_refine (parse_of_ofText h) hts).comments_eq]

theorem mem_commands_iff (h : ofText source = .ok u) {c : Command} :
    c ∈ u.commands ↔ ∃ start p, CommentAt source start p ∧ SaysAt source start p c := by
  have hparse := parse_of_ofText h
  obtain ⟨ts, -, -, hts, -, -⟩ := parse_eq_ok hparse
  have hlen := utf8ByteSize_lt_of_parse hparse
  rw [commands_eq h hts, List.mem_filterMap]
  constructor
  · rintro ⟨⟨start, p⟩, hmem, hread⟩
    exact ⟨start, p, (commentAt_iff hts).mpr hmem, (Command.ofComment?_eq_some_iff hlen).mp hread⟩
  · rintro ⟨start, p, hcomment, hsays⟩
    exact ⟨(start, p), (commentAt_iff hts).mp hcomment,
      (Command.ofComment?_eq_some_iff hlen).mpr hsays⟩

/-- **Directives are what comments say.**  They are found at increasing offsets.  A directive is found
exactly when some comment of the source says it.  A comment is a part of the source, and it holds a
directive exactly when what starts with its first marker can be read.  Each command that the
directives expand to comes from exactly one of them, the one at its origin, and is the only one of
its scope that does. -/
theorem commands_of_comments (h : ofText source = .ok u) :
    (u.commands.Pairwise fun c d => c.offset < d.offset) ∧
    (∀ c, c ∈ u.commands ↔ ∃ start p, CommentAt source start p ∧ SaysAt source start p c) ∧
    (∀ start p, CommentAt source start p →
      (∃ before after, source.toList = before ++ p.text.toList ++ after ∧
        start = String.utf8Len before) ∧
      ((∃ c ∈ u.commands, start ≤ c.offset ∧ c.offset < start + p.len) ↔
        ∃ front rest, Words.FirstAt marker.toList p.text.toList front rest ∧
          (parse? (String.ofList (marker.toList ++ rest)) 0 .one).isSome = true)) ∧
    ((expandAll u.commands u.lineIndex).Pairwise fun a b => a.origin = b.origin → a.scope ≠ b.scope) ∧
    ∀ a ∈ expandAll u.commands u.lineIndex,
      ∃! c, c ∈ u.commands ∧ c.offset = a.origin ∧ a ∈ c.expand u.lineIndex := by
  refine ⟨commands_pairwise h, fun c => mem_commands_iff h, ?_,
    Command.expandAll_distinct (commands_pairwise h) u.lineIndex, ?_⟩
  · intro start p hcomment
    refine ⟨hcomment.exists_toList_eq, ?_, ?_⟩
    · rintro ⟨c, hc, hinside⟩
      obtain ⟨start', p', hcomment', hsays⟩ := (mem_commands_iff h).mp hc
      -- The comment that says the directive shares the byte of its marker.
      obtain ⟨-, rfl⟩ := hcomment.eq_of_overlap hcomment' hinside hsays.bounds
      obtain ⟨front, rest, hfirst, -, -, hread⟩ := hsays
      refine ⟨front, rest, hfirst, ?_⟩
      rw [Command.parse?_eq] at hread
      obtain ⟨d, hd, -⟩ := Option.map_eq_some_iff.mp hread
      rw [hd, Option.isSome_some]
    · rintro ⟨front, rest, hfirst, hread⟩
      have hlen := utf8ByteSize_lt_of_parse (parse_of_ofText h)
      obtain ⟨c, hsays⟩ := Command.exists_saysAt hlen start hfirst hread
      exact ⟨c, (mem_commands_iff h).mpr ⟨start, p, hcomment, hsays⟩, hsays.bounds⟩
  · intro a ha
    obtain ⟨c, hc, hexpand⟩ := Command.mem_expandAll.mp ha
    have horigin : a.origin = c.offset := (Command.of_mem_expand hexpand).1
    exact ⟨c, ⟨hc, horigin.symm, hexpand⟩, fun d hd =>
      eq_of_offset_eq h hd.1 hc (hd.2.1.trans horigin)⟩

/-- A source in which a string literal, a comment over two lines and the end of a line behind `>>` have
markers. -/
def markers : String :=
  "\"swiftlint:disable x\" /*\nswiftlint:disable y */\n" ++
    "var b: A<A<B>> // swiftlint:enable y - swiftlint:"

/-- The literal says nothing, and of the two markers in the last comment the first one counts. -/
theorem commands_of_comments_markers : ∃ u, ofText markers = .ok u ∧
    u.commands.map (fun c => (c.offset, c.line.val)) = [(25, 2), (66, 3)] ∧
    (u.commands.Pairwise fun c d => c.offset < d.offset) ∧
    ∀ c ∈ u.commands, ∃ start p, CommentAt markers start p ∧ SaysAt markers start p c := by
  have hmap : (ofText markers).toOption.map (fun u =>
      u.commands.map fun c => (c.offset, c.line.val)) = some [(25, 2), (66, 3)] := by
    decide +kernel
  obtain ⟨u, hu, hfound⟩ := Option.map_eq_some_iff.mp hmap
  have h : ofText markers = .ok u := Except.toOption_eq_some.mp hu
  obtain ⟨hpairwise, hiff, -⟩ := commands_of_comments h
  exact ⟨u, h, hfound, hpairwise, fun c hc => (hiff c).mp hc⟩

end SourceUnit

end SwiftTidy
