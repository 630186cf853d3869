import SwiftTidy.Proofs.Parse.Refining
import SwiftTidy.Proofs.Parse.TriviaRuns

/-!
# Ends of lines inside tokens

`lineEnds_of_tokens` says where lines may end inside tokens: in string literals, and at carriage returns in
names between backticks.

A literal is spelled by its parts (`exists_spell`).  Of these only a character that stands for itself is
refused at the end of a line, so in a literal within a line the others are where a line can end.

Lines end between tokens at whole pieces of trivia.  All other pieces, and the lexemes, neither start nor
stop with the end of a line (`keepsLines_of_parse`).
-/

namespace SwiftTidy

namespace Lexer

variable {x rest : List Char} {d : Delimiter}

/-! ### Literals -/

/-- A literal opens the same without the text behind it. -/
theorem openingDelimiter_of_append {hashes : Nat}
    (h : openingDelimiter hashes (d.quotes ++ x ++ rest) = d) :
    openingDelimiter hashes (d.quotes ++ x) = d := by
  obtain ⟨n, multiline⟩ := d
  obtain ⟨rfl, hmultiline⟩ := Delimiter.mk.inj h
  rw [openingDelimiter]
  cases multiline with
  | true => rfl
  | false =>
    rw [Delimiter.mk.injEq]
    refine ⟨rfl, Bool.eq_false_iff.mpr fun hprefix => ?_⟩
    have hwhole := (List.isPrefixOf_iff_prefix.mp hprefix).trans (List.prefix_append _ rest)
    rw [List.isPrefixOf_iff_prefix.mpr hwhole] at hmultiline
    cases hmultiline

/-! ### Other scanners -/

/-- What passes a test that line ends fail is no line end. -/
theorem isLineEnd_eq_false {p : Char → Bool} {c : Char} (hlf : p '\n' = false)
    (hcr : p '\r' = false) (h : p c = true) : isLineEnd c = false := by
  rw [isLineEnd, Bool.or_eq_false_iff, beq_eq_false_iff_ne, beq_eq_false_iff_ne]
  constructor
  · rintro rfl
    rw [hlf] at h
    cases h
  · rintro rfl
    rw [hcr] at h
    cases h

theorem isLineEnd_of_isOperatorChar {c : Char} (h : isOperatorChar c = true) : isLineEnd c = false :=
  isLineEnd_eq_false (by decide) (by decide) h

theorem isLineEnd_of_nameLength (h : nameLength (x ++ rest) = x.length) :
    ∀ b ∈ x, isLineEnd b = false := fun b hb =>
  isLineEnd_eq_false (by decide) (by decide) ((length_takeWhile_append_iff.mp h).1 b hb)

theorem isOperatorChar_of_operatorRunLength (h : operatorRunLength (x ++ rest) = x.length) :
    ∀ b ∈ x, isOperatorChar b = true := by
  induction x with
  | nil => nofun
  | cons c x ih =>
    rw [List.cons_append, operatorRunLength] at h
    split_ifs at h with hend
    rw [Bool.or_eq_true, not_or, Bool.not_eq_true', Bool.not_eq_false] at hend
    exact List.forall_mem_cons.mpr ⟨hend.2, ih (Nat.succ.inj h)⟩

theorem isLineEnd_of_rangeOperatorLength (h : rangeOperatorLength (x ++ rest) = x.length) :
    ∀ b ∈ x, isLineEnd b = false := by
  induction x with
  | nil => nofun
  | cons c x ih =>
    rw [List.cons_append] at h
    by_cases hc : c = '.'
    · rw [hc, rangeOperatorLength_point] at h
      rw [hc]
      exact List.forall_mem_cons.mpr ⟨rfl, ih (Nat.succ.inj h)⟩
    · rw [rangeOperatorLength_eq (by simpa using hc)] at h
      split_ifs at h with hangle
      obtain rfl : c = '<' := by simpa using hangle
      obtain rfl : x = [] := List.length_eq_zero_iff.mp (Nat.succ.inj h).symm
      exact List.forall_mem_singleton.mpr rfl

theorem isLineEnd_of_numberRest {hex : Bool} {x : List Char}
    (h : (numberRest hex (x ++ rest)).1 = x.length) : ∀ b ∈ x, isLineEnd b = false := by
  induction hn : x.length using Nat.strongRecOn generalizing x with
  | _ n ih =>
    cases x with
    | nil => nofun
    | cons c y =>
      have hy : y.length < n := by rw [← hn]; exact Nat.lt_succ_self _
      rw [List.cons_append] at h
      by_cases hc : c = '.'
      · subst hc
        rw [numberRest_point] at h
        split_ifs at h
        exact List.forall_mem_cons.mpr ⟨rfl, ih y.length hy (Nat.succ.inj h) rfl⟩
      · rw [numberRest_cons hex hc] at h
        split_ifs at h with hword hmark hsign
        · have hc' : isLineEnd c = false :=
            isLineEnd_eq_false (p := fun c => c.isAlphanum || c == '_') rfl rfl hword
          cases y with
          | nil =>
            rw [List.length_singleton] at h
            omega
          | cons s z =>
            have hz : z.length < n := Nat.lt_of_succ_lt hy
            have hrest : (numberRest hex (z ++ rest)).1 = z.length := by simpa using h
            have hs : isLineEnd s = false :=
              isLineEnd_eq_false (p := fun s => s == '+' || s == '-') rfl rfl hsign
            exact List.forall_mem_cons.mpr ⟨hc', List.forall_mem_cons.mpr ⟨hs, ih z.length hz hrest rfl⟩⟩
        · exact List.forall_mem_cons.mpr ⟨isLineEnd_eq_false
            (p := fun c => c.isAlphanum || c == '_') rfl rfl hword, ih y.length hy (Nat.succ.inj h) rfl⟩
        · exact List.forall_mem_cons.mpr ⟨isLineEnd_eq_false
            (p := fun c => c.isAlphanum || c == '_') rfl rfl hword, ih y.length hy (Nat.succ.inj h) rfl⟩

/-! ### Tokens -/

theorem isLineEnd_of_token {fuel n : Nat} {leftBound : Bool} {c : Char} {cs : List Char}
    {kind : SyntaxKind} (h : token fuel leftBound (c :: cs) = .ok (kind, n)) : isLineEnd c = false := by
  refine Bool.eq_false_iff.mpr fun hend => ?_
  rw [isLineEnd, Bool.or_eq_true, beq_iff_eq, beq_iff_eq] at hend
  rw [token_cons] at h
  rcases hend with rfl | rfl
  · cases h
  · cases h

/-- How the lexemes of tokens are spelled, as far as ends of lines go. -/
inductive LineText : SyntaxKind → List Char → Prop
  | literal {d : Delimiter} {ps : List LiteralPart} (hps : IsLiteral d ps)
      (hd : openingDelimiter d.hashes (d.quotes ++ literalTail d ps) = d) :
      LineText .stringLiteral (d.spell ps)
  | escaped {x : List Char} (hne : x ≠ []) (hx : ∀ c ∈ x, c ≠ '\x60' ∧ c ≠ '\n') :
      LineText .identifier ('\x60' :: (x ++ ['\x60']))
  | other {kind : SyntaxKind} {x : List Char} (hkind : kind ≠ .stringLiteral)
      (hx : ∀ c ∈ x, isLineEnd c = false) : LineText kind x

/-- A literal is spelled by its parts. -/
theorem lineText_literal {fuel hashes : Nat} (hhashes : rawHashes? (x ++ rest) = some hashes)
    (h : literalLength fuel hashes (x ++ rest) = .ok x.length) : LineText .stringLiteral x := by
  obtain ⟨d, ps, rest₁, happend, hspell, rfl, hps, hd⟩ := exists_spell hhashes h
  obtain ⟨rfl, -⟩ := List.append_inj happend hspell
  rw [← List.append_assoc] at hd
  exact .literal hps (openingDelimiter_of_append hd)

/-- An operator has no end of a line in it. -/
theorem isLineEnd_of_operator {leftBound : Bool} {c : Char}
    (h : x.length + 1 = if c = '.' then rangeOperatorLength (c :: (x ++ rest))
      else operatorLength leftBound (c :: (x ++ rest))) : ∀ b ∈ x, isLineEnd b = false := by
  rw [operatorLength] at h
  split_ifs at h
  · exact (List.forall_mem_cons.mp (isLineEnd_of_rangeOperatorLength (x := c :: x) h.symm)).2
  · obtain rfl : x = [] := List.length_eq_zero_iff.mp (Nat.succ.inj h)
    exact List.forall_mem_nil _
  · exact fun b hb => isLineEnd_of_isOperatorChar
      (isOperatorChar_of_operatorRunLength (Nat.succ.inj h).symm b hb)

/-- **Tokens** have no ends of lines in them, apart from literals and carriage returns in names between
backticks. -/
theorem lineText_of_token {fuel : Nat} {leftBound : Bool} {c : Char} {kind : SyntaxKind}
    (h : token fuel leftBound (c :: (x ++ rest)) = .ok (kind, x.length + 1)) :
    LineText kind (c :: x) := by
  have hc := isLineEnd_of_token h
  have hother : ∀ {kind : SyntaxKind}, kind ≠ .stringLiteral → (∀ b ∈ x, isLineEnd b = false) →
      LineText kind (c :: x) :=
    fun hkind hx => .other hkind (List.forall_mem_cons.mpr ⟨hc, hx⟩)
  generalize hlength : x.length + 1 = n at h
  cases frontToken_of_token h with
  | mark hmark =>
    obtain rfl : x = [] := List.length_eq_zero_iff.mp (Nat.succ.inj hlength)
    exact hother ((by decide : ∀ p ∈ markKinds, p.2 ≠ .stringLiteral) _ hmark) (List.forall_mem_nil _)
  | period =>
    obtain rfl : x = [] := List.length_eq_zero_iff.mp (Nat.succ.inj hlength)
    exact hother (by decide) (List.forall_mem_nil _)
  | operator _ hn =>
    refine hother ?_ (isLineEnd_of_operator (hlength.trans hn))
    unfold classifyOperator
    split_ifs <;> decide
  | literal hhashes hn =>
    subst hlength
    exact lineText_literal (x := c :: x) hhashes hn
  | escaped hbacktick hn =>
    subst hlength
    obtain ⟨y, rfl, hne, hall⟩ := exists_of_escapedNameLength hn
    rw [hbacktick]
    exact .escaped hne fun b hb => by simpa using hall b hb
  | directive | dollar => exact hother (by decide) (isLineEnd_of_nameLength (Nat.succ.inj hlength).symm)
  | number =>
    have hall := isLineEnd_of_numberRest (x := c :: x) hlength.symm
    exact .other (number_of (P := (· ≠ .stringLiteral)) (by decide) (by decide) _) hall
  | name =>
    exact hother (nameKind_of (P := (· ≠ .stringLiteral)) (by decide) (by decide) (by decide) _)
      (isLineEnd_of_nameLength (Nat.succ.inj hlength).symm)

/-- The text of every token is told by the characters it was cut off from. -/
theorem Cuts.lineText {previous : Option Token} {leading : Trivia} {cs : List Char} {ts : Tokens}
    (h : Cuts previous leading cs ts) : ∀ t ∈ ts.all, LineText t.kind t.text.toList := by
  induction h with
  | done => exact List.forall_mem_singleton.mpr (.other nofun nofun)
  | token htoken _ _ _ ih =>
    rw [Tokens.all, List.cons_append, List.forall_mem_cons, String.toList_ofList]
    exact ⟨lineText_of_token htoken, ih⟩

theorem lineText_of_tokens {source : String} {ts : Tokens} (h : tokens source = .ok ts) :
    ∀ t ∈ ts.all, LineText t.kind t.text.toList := by
  obtain ⟨_, _, -, -, -, hcuts⟩ := exists_cuts_of_tokens h
  exact hcuts.lineText

/-! ### Where lines end -/

/-- A character of a literal within a line is no end of a line, if it stands for itself. -/
theorem IsLiteral.isLineEnd_of_char {d : Delimiter} {ps : List LiteralPart} {c : Char}
    (hd : d.multiline = false) : IsLiteral d ps → .char c ∈ ps → isLineEnd c = false
  | .char _ _ hline hps, hmem => by
    rcases List.mem_cons.mp hmem with heq | hmem
    · cases heq
      exact hline.resolve_left (by simp [hd])
    · exact hps.isLineEnd_of_char hd hmem
  | .escape _ hps, hmem =>
    hps.isLineEnd_of_char hd ((List.mem_cons.mp hmem).resolve_left nofun)
  | .interpolation _ hps, hmem =>
    hps.isLineEnd_of_char hd ((List.mem_cons.mp hmem).resolve_left nofun)

theorem Delimiter.isLineEnd_of_mem_escape (d : Delimiter) {c : Char} (hc : c ∈ d.escape) :
    isLineEnd c = false := by
  rcases List.mem_cons.mp hc with rfl | hc
  · rfl
  · rw [List.eq_of_mem_replicate hc]
    rfl

theorem Delimiter.isLineEnd_of_mem_closing (d : Delimiter) {c : Char} (hc : c ∈ d.closing) :
    isLineEnd c = false := by
  rcases List.mem_append.mp hc with hc | hc
  · obtain rfl : c = '"' := by cases hd : d.multiline <;> simpa [Delimiter.quotes, hd] using hc
    rfl
  · rw [List.eq_of_mem_replicate hc]
    rfl

/-- An end of a line in a literal belongs to one of its parts. -/
theorem exists_part_of_mem_spell {d : Delimiter} {ps : List LiteralPart} {c : Char}
    (hc : c ∈ d.spell ps) (hend : isLineEnd c = true) : ∃ p ∈ ps, c ∈ p.text d := by
  -- what opens a literal are the characters that end it
  have hnot : c ∉ d.closing := fun hmem => by
    rw [d.isLineEnd_of_mem_closing hmem] at hend
    cases hend
  rw [Delimiter.closing, List.mem_append, not_or] at hnot
  rw [Delimiter.spell, List.mem_append, List.mem_append, literalTail, Delimiter.closing, List.mem_append,
    List.mem_append] at hc
  rcases hc with hc | hc | hc | hc | hc
  · exact absurd hc hnot.2
  · exact absurd hc hnot.1
  · exact List.mem_flatMap.mp hc
  · exact absurd hc hnot.1
  · exact absurd hc hnot.2

/-- A literal within a line goes on behind the end of the line only inside an interpolation, or where an
escape mark stands in front of the end of the line. -/
theorem IsLiteral.lineEnds {d : Delimiter} {ps : List LiteralPart} {p : LiteralPart} {c : Char}
    (h : IsLiteral d ps) (hd : d.multiline = false) (hp : p ∈ ps) (hc : c ∈ p.text d)
    (hend : isLineEnd c = true) : p = .escape c ∨ ∃ x, p = .interpolation x ∧ c ∈ x := by
  have hescape : c ∉ d.escape := fun hmem => by
    rw [d.isLineEnd_of_mem_escape hmem] at hend
    cases hend
  cases p with
  | char b =>
    rw [List.mem_singleton.mp hc, h.isLineEnd_of_char hd hp] at hend
    cases hend
  | escape b =>
    rw [List.mem_singleton.mp ((List.mem_append.mp hc).resolve_left hescape)]
    exact .inl rfl
  | interpolation x => exact .inr ⟨x, rfl, (List.mem_append.mp hc).resolve_left hescape⟩

/-- **Where lines end inside tokens.**  A token that is no string literal has no end of a line in it, unless
it is a name between backticks, which may hold carriage returns.  A string literal is what opens it, its
parts and what ends it, in one way only, and an end of a line in it belongs to a part.  If the literal is not
delimited by three quotes, that part is an interpolation, or an escape mark with the end of the line. -/
theorem lineEnds_of_tokens {source : String} {ts : Tokens} (h : tokens source = .ok ts) :
    ∀ t ∈ ts.all,
      (t.kind ≠ .stringLiteral → ∀ c ∈ t.text.toList, isLineEnd c = true →
        c = '\r' ∧ t.kind = .identifier ∧ ∃ x, t.text.toList = '\x60' :: (x ++ ['\x60']) ∧
          ∀ b ∈ x, b ≠ '\x60' ∧ b ≠ '\n') ∧
      (t.kind = .stringLiteral → ∃ d ps, t.text.toList = d.spell ps ∧ IsLiteral d ps ∧
        openingDelimiter d.hashes (d.quotes ++ literalTail d ps) = d ∧
        (∀ qs, t.text.toList = d.spell qs → IsLiteral d qs → qs = ps) ∧
        (∀ c ∈ t.text.toList, isLineEnd c = true → ∃ p ∈ ps, c ∈ p.text d) ∧
        (d.multiline = false → ∀ p ∈ ps, ∀ c ∈ p.text d, isLineEnd c = true →
          p = .escape c ∨ ∃ x, p = .interpolation x ∧ c ∈ x)) := by
  intro t ht
  have htext := lineText_of_tokens h t ht
  generalize t.kind = kind, t.text.toList = x at htext
  cases htext with
  | @literal d ps hps hd =>
    refine ⟨fun hne => absurd rfl hne, fun _ => ⟨d, ps, rfl, hps, hd, fun qs heq hqs => ?_,
      fun _ => exists_part_of_mem_spell, fun hone _ hp _ => hps.lineEnds hone hp⟩⟩
    exact hqs.unique hps (List.append_cancel_left (List.append_cancel_left heq)).symm
  | @escaped y hne hy =>
    refine ⟨fun _ c hc hend => ⟨?_, rfl, y, rfl, hy⟩, nofun⟩
    -- of the two ends of lines only the line feed is refused
    have hnot : c ≠ '\x60' := by
      rintro rfl
      cases hend
    have hname : c ∈ y := by simpa [hnot] using hc
    rw [isLineEnd, Bool.or_eq_true, beq_iff_eq, beq_iff_eq] at hend
    exact hend.resolve_left (hy c hname).2
  | other hkind hx =>
    refine ⟨fun _ c hc hend => ?_, fun hliteral => absurd hliteral hkind⟩
    rw [hx c hc] at hend
    cases hend

/-- A carriage return in a name between backticks, and a line feed behind an escape mark. -/
theorem lineEnds_of_tokens_escaped :
    let name : Token := ⟨.identifier, "\x60\r\x60", [], [⟨.whitespace, " "⟩]⟩
    let literal : Token := ⟨.stringLiteral, "\"\\\n\"", [], []⟩
    tokens "\x60\r\x60 \"\\\n\"" = .ok ⟨[name, literal], ⟨.endOfFile, "", [], []⟩⟩ ∧
      (∃ x, name.text.toList = '\x60' :: (x ++ ['\x60']) ∧ ∀ b ∈ x, b ≠ '\x60' ∧ b ≠ '\n') ∧
      ∃ d ps, literal.text.toList = d.spell ps ∧ IsLiteral d ps ∧ ∃ p ∈ ps, '\n' ∈ p.text d := by
  intro name literal
  have h : tokens "\x60\r\x60 \"\\\n\"" = .ok ⟨[name, literal], ⟨.endOfFile, "", [], []⟩⟩ := by
    decide +kernel
  obtain ⟨hname, -⟩ := lineEnds_of_tokens h name (by simp [Tokens.all])
  obtain ⟨-, hliteral⟩ := lineEnds_of_tokens h literal (by simp [Tokens.all])
  obtain ⟨-, -, hspelled⟩ := hname (by decide) '\r' (by decide) rfl
  obtain ⟨d, ps, hspell, hps, -, -, hparts, -⟩ := hliteral rfl
  exact ⟨h, hspelled, d, ps, hspell, hps, hparts '\n' (by decide) rfl⟩

/-! ### Edges of pieces -/

variable {trailing : Bool} {t : Trivia}

/-- A block comment ends in a slash. -/
theorem getLast?_blockComment {depth n : Nat} {cs : List Char}
    (h : blockCommentLength depth cs = some n) (hdepth : depth ≠ 0) : (cs.take n).getLast? = some '/' := by
  induction depth, cs using blockCommentLength.induct generalizing n with
  | case1 cs => exact absurd rfl hdepth
  | case2 d cs ih =>
    rw [blockCommentLength, Option.map_eq_some_iff] at h
    obtain ⟨m, hm, rfl⟩ := h
    rw [List.take_succ_cons, List.take_succ_cons, List.getLast?_cons, List.getLast?_cons,
      ih hm (Nat.succ_ne_zero _)]
    rfl
  | case3 d cs ih =>
    rw [blockCommentLength, Option.map_eq_some_iff] at h
    obtain ⟨m, hm, rfl⟩ := h
    rw [List.take_succ_cons, List.take_succ_cons, List.getLast?_cons, List.getLast?_cons]
    cases d with
    | zero =>
      rw [blockCommentLength] at hm
      cases hm
      rfl
    | succ d =>
      rw [ih hm (Nat.succ_ne_zero _)]
      rfl
  | case4 d c cs hopen hclose ih =>
    rw [blockCommentLength.eq_4 _ _ _ hopen hclose, Option.map_eq_some_iff] at h
    obtain ⟨m, hm, rfl⟩ := h
    rw [List.take_succ_cons, List.getLast?_cons, ih hm (Nat.succ_ne_zero _)]
    rfl
  | case5 d => cases h

/-- A text that neither starts nor stops with the end of a line. -/
structure IsWithin (w : List Char) : Prop where
  head : ∃ c ∈ w.head?, isLineEnd c = false
  last : ∀ c ∈ w.getLast?, isLineEnd c = false

theorem IsWithin.of_forall {c : Char} {w : List Char} (h : ∀ b ∈ c :: w, isLineEnd b = false) :
    IsWithin (c :: w) :=
  ⟨⟨c, rfl, h c List.mem_cons_self⟩, fun b hb => h b (List.mem_of_mem_getLast? hb)⟩

/-- Pieces that are no line breaks stand within their lines. -/
theorem FrontPiece.isWithin {c : Char} {w : List Char} {k : TriviaKind}
    (h : FrontPiece c (w ++ rest) k (w.length + 1)) (hk : k ≠ .newline) : IsWithin (c :: w) := by
  have hc : isLineEnd c = false := Bool.eq_false_iff.mpr fun hend => hk (h.isLineEnd_iff.mp hend)
  generalize hn : w.length + 1 = n at h
  cases h with
  | lineFeed | carriageReturn => exact absurd rfl hk
  | lineComment _ hnext =>
    cases w with
    | nil => cases hn
    | cons d w =>
      have hlength : lineLength (w ++ rest) = w.length :=
        (Nat.add_right_cancel (Nat.add_right_cancel hn)).symm
      rw [lineLength, length_takeWhile_append_iff] at hlength
      obtain rfl : d = '/' := Option.some.inj hnext
      have hline : ∀ b ∈ w, isLineEnd b = false := by simpa using hlength.1
      exact .of_forall (List.forall_mem_cons.mpr ⟨hc, List.forall_mem_cons.mpr ⟨rfl, hline⟩⟩)
  | @blockComment m _ hm =>
    cases w with
    | nil => cases hn
    | cons d w =>
      obtain rfl : w.length = m := Nat.add_right_cancel (Nat.add_right_cancel hn)
      have hlast := getLast?_blockComment hm Nat.one_ne_zero
      rw [List.cons_append, List.tail_cons, List.take_left] at hlast
      refine ⟨⟨c, rfl, hc⟩, fun b hb => ?_⟩
      rw [List.getLast?_cons, List.getLast?_cons, hlast] at hb
      cases hb
      rfl
  | blanks =>
    have hall := (length_takeWhile_append_iff.mp (Nat.succ.inj hn).symm).1
    exact .of_forall (List.forall_mem_cons.mpr ⟨hc, fun b hb => isLineEnd_of_blank (hall b hb)⟩)

/-- Blanks have no end of a line in them. -/
theorem FrontPiece.isLineEnd_of_mem {c : Char} {w : List Char}
    (h : FrontPiece c (w ++ rest) .whitespace (w.length + 1)) : ∀ b ∈ c :: w, isLineEnd b = false := by
  have hblank := h.isHorizontal_iff.mpr rfl
  generalize hk : TriviaKind.whitespace = k, hn : w.length + 1 = n at h
  cases h with
  | lineFeed | carriageReturn => cases hk
  | lineComment hc | blockComment hc =>
    rw [hc] at hblank
    cases hblank
  | blanks =>
    have hall := (length_takeWhile_append_iff.mp (Nat.succ.inj hn).symm).1
    exact List.forall_mem_cons.mpr ⟨isLineEnd_of_blank hblank, fun b hb => isLineEnd_of_blank (hall b hb)⟩

end Lexer

/-- What is known of the text of a piece: a line break is LF, CR LF or CR, blanks have no end of a line in
them, and no other piece starts or stops with one. -/
structure TriviaPiece.KeepsLines (p : TriviaPiece) : Prop where
  breaks : p.isNewline = true → p.text = "\n" ∨ p.text = "\r\n" ∨ p.text = "\r"
  blanks : p.isWhitespace = true → ∀ c ∈ p.text.toList, Lexer.isLineEnd c = false
  within : p.isNewline = false → Lexer.IsWithin p.text.toList

namespace Lexer

theorem CutsOff.keepsLines (h : CutsOff trailing rest t) : ∀ p ∈ t, p.KeepsLines := by
  induction h with
  | done => exact List.forall_mem_nil _
  | @piece p t hpiece ht ih =>
    refine List.forall_mem_cons.mpr ⟨⟨(ht.fits hpiece).breaks, fun hblank => ?_, fun hother => ?_⟩, ih⟩
    all_goals
      obtain ⟨c, w, hp⟩ := List.exists_cons_of_length_pos (triviaPiece?_pos hpiece).1
      rw [hp] at hpiece ⊢
      have hfront := frontPiece_of_triviaPiece? hpiece
    · rw [beq_iff_eq.mp hblank] at hfront
      exact hfront.isLineEnd_of_mem
    · exact hfront.isWithin (beq_eq_false_iff_ne.mp hother)

theorem Cuts.keepsLines {previous : Option Token} {leading : Trivia} {cs : List Char} {ts : Tokens}
    (h : Cuts previous leading cs ts) (hfirst : ∀ p ∈ leading, p.KeepsLines) :
    ∀ t ∈ ts.all, (∀ p ∈ t.leading, p.KeepsLines) ∧ ∀ p ∈ t.trailing, p.KeepsLines := by
  induction h with
  | done => exact List.forall_mem_singleton.mpr ⟨hfirst, List.forall_mem_nil _⟩
  | token _ htrailing hleading _ ih =>
    exact List.forall_mem_cons.mpr ⟨⟨hfirst, htrailing.keepsLines⟩, ih hleading.keepsLines⟩

theorem keepsLines_of_tokens {source : String} {ts : Tokens} (h : tokens source = .ok ts) :
    ∀ t ∈ ts.all, (∀ p ∈ t.leading, p.KeepsLines) ∧ ∀ p ∈ t.trailing, p.KeepsLines := by
  obtain ⟨t, rest, htrivia, -, hcutsOff, hcuts⟩ := exists_cuts_of_tokens h
  refine hcuts.keepsLines ?_
  rcases interpreterLine_cases source.toList with hnone | ⟨w, rest', hw, hlength, hsome⟩
  · rw [hnone]
    exact hcutsOff.keepsLines
  · rw [hsome]
    refine List.forall_mem_cons.mpr ⟨⟨nofun, nofun, fun _ => ?_⟩, hcutsOff.keepsLines⟩
    rw [String.toList_ofList]
    rw [lineLength, length_takeWhile_append_iff] at hlength
    have hline : ∀ b ∈ w, isLineEnd b = false := by simpa using hlength.1
    exact .of_forall (List.forall_mem_cons.mpr ⟨rfl, List.forall_mem_cons.mpr ⟨rfl, hline⟩⟩)

/-! ### Leaves -/

/-- What opens and what ends a token is within its line. -/
theorem LineText.isWithin {kind : SyntaxKind} {x : List Char} (h : LineText kind x) (hx : x ≠ []) :
    IsWithin x := by
  cases h with
  | @literal d ps =>
    constructor
    · obtain ⟨tail, htail⟩ := d.quotes_eq
      rw [Delimiter.spell, htail]
      cases d.hashes with
      | zero => exact ⟨'"', rfl, rfl⟩
      | succ n => exact ⟨'#', rfl, rfl⟩
    · intro c hc
      obtain ⟨tail, htail⟩ := d.closing_eq
      rw [Delimiter.spell, literalTail, ← List.append_assoc, ← List.append_assoc,
        List.getLast?_append_of_ne_nil _ (by simp [htail])] at hc
      exact d.isLineEnd_of_mem_closing (List.mem_of_mem_getLast? hc)
  | escaped => exact ⟨⟨'\x60', rfl, rfl⟩, fun c hc => by
      rw [← List.cons_append, List.getLast?_concat] at hc
      cases hc
      rfl⟩
  | other _ hall =>
    obtain ⟨c, x, rfl⟩ := List.exists_cons_of_ne_nil hx
    exact .of_forall hall

/-- What starts with `>` is no literal and no name between backticks. -/
theorem LineText.of_rightAngle {kind : SyntaxKind} {x : List Char} (h : LineText kind ('>' :: x)) :
    ∀ c ∈ x, isLineEnd c = false := by
  generalize hy : '>' :: x = y at h
  cases h with
  | @literal d ps =>
    obtain ⟨tail, htail⟩ := d.quotes_eq
    rw [Delimiter.spell, htail] at hy
    cases hd : d.hashes with
    | zero =>
      rw [hd] at hy
      cases hy
    | succ n =>
      rw [hd] at hy
      cases hy
  | escaped => cases hy
  | other _ hall => exact (List.forall_mem_cons.mp (hy ▸ hall)).2

end Lexer

namespace Token

/-- What is known of the lines around a token and in it. -/
structure KeepsLines (t : Token) : Prop where
  leading : ∀ p ∈ t.leading, p.KeepsLines
  apart : t.leading.BreaksApart
  text : t.text = "" ∧ t.trailing = [] ∨ Lexer.IsWithin t.text.toList
  trailing : ∀ p ∈ t.trailing, p.KeepsLines
  stays : t.trailing.containsNewline = false

variable {ts us : List Token}

/-- What is known of the trivia around tokens is known of the trivia around what they are cut into. -/
theorem Refines.forall_trivia {P Q : Trivia → Prop} (h : Refines ts us) (hP : P []) (hQ : Q [])
    (hts : ∀ t ∈ ts, P t.leading ∧ Q t.trailing) : ∀ u ∈ us, P u.leading ∧ Q u.trailing := by
  induction h with
  | nil => exact List.forall_mem_nil _
  | keep t k _ ih =>
    obtain ⟨ht, hts⟩ := List.forall_mem_cons.mp hts
    exact List.forall_mem_cons.mpr ⟨ht, ih hts⟩
  | split k k' _ _ ih =>
    obtain ⟨ht, hts⟩ := List.forall_mem_cons.mp hts
    exact List.forall_mem_cons.mpr ⟨⟨ht.1, hQ⟩, ih (List.forall_mem_cons.mpr ⟨⟨hP, ht.2⟩, hts⟩)⟩

/-- The parts of a token are spelled as tokens are. -/
theorem Refines.lineText (h : Refines ts us) (hts : ∀ t ∈ ts, ∃ k, Lexer.LineText k t.text.toList) :
    ∀ u ∈ us, ∃ k, Lexer.LineText k u.text.toList := by
  induction h with
  | nil => exact List.forall_mem_nil _
  | keep t k _ ih =>
    obtain ⟨ht, hts⟩ := List.forall_mem_cons.mp hts
    exact List.forall_mem_cons.mpr ⟨ht, ih hts⟩
  | @split t ts us c cs k k' htext _ ih =>
    obtain ⟨⟨kind, ht⟩, hts⟩ := List.forall_mem_cons.mp hts
    rw [htext] at ht
    have hangle : Lexer.LineText .identifier (">" : String).toList := .other nofun (by simp [Lexer.isLineEnd])
    refine List.forall_mem_cons.mpr ⟨⟨_, hangle⟩, ih (List.forall_mem_cons.mpr ⟨⟨.identifier, ?_⟩, hts⟩)⟩
    rw [String.toList_ofList]
    exact .other nofun ht.of_rightAngle

end Token

/-- Behind a token without a text there is nothing. -/
theorem Token.KeepsLines.trailing_eq_nil {t : Token} (h : t.KeepsLines) (htext : t.text = "") :
    t.trailing = [] := by
  rcases h.text with ⟨-, hnil⟩ | hwithin
  · exact hnil
  · obtain ⟨c, hc, -⟩ := hwithin.head
    rw [htext] at hc
    cases hc

/-- **The lines of a source** end in its trivia at whole pieces, and neither start nor stop elsewhere at the
edge of a piece or a token. -/
theorem keepsLines_of_parse {source : String} {tree : Element} (h : parse source = .ok tree) :
    ∀ t ∈ tree.leaves, t.KeepsLines := by
  obtain ⟨ts, -, -, hts, -⟩ := parse_eq_ok h
  have hrefines := leaves_refine h hts
  obtain ⟨-, -, hstays, -, hregular⟩ := Lexer.tokens_regular hts
  have hlines := Lexer.keepsLines_of_tokens hts
  have htext := hrefines.lineText fun t ht => ⟨_, Lexer.lineText_of_tokens hts t ht⟩
  have htrivia := hrefines.forall_trivia (P := fun s => (∀ p ∈ s, p.KeepsLines) ∧ s.BreaksApart)
    (Q := fun s => (∀ p ∈ s, p.KeepsLines) ∧ s.containsNewline = false) ⟨List.forall_mem_nil _, .nil⟩
    ⟨List.forall_mem_nil _, rfl⟩ fun t ht =>
      ⟨⟨(hlines t ht).1, (hregular t ht).1.apart⟩, (hlines t ht).2, hstays t ht⟩
  intro t ht
  obtain ⟨⟨hleading, hapart⟩, htrailing, hnone⟩ := htrivia t ht
  refine ⟨hleading, hapart, ?_, htrailing, hnone⟩
  obtain ⟨k, hk⟩ := htext t ht
  by_cases hempty : t.text = ""
  · -- only the end of the file is empty
    obtain ⟨front, last, hleaves, hcut, -, hlast, -⟩ := leaves_isCut h
    rw [hleaves, List.mem_append, List.mem_singleton] at ht
    rcases ht with ht | rfl
    · exact absurd hempty (hcut t ht).text
    · exact .inl ⟨hempty, hlast⟩
  · exact .inr (hk.isWithin (by simpa using hempty))

end SwiftTidy
