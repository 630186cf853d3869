import Mathlib.Data.List.Chain
import SwiftTidy.Proofs.Parse.Blanks

/-!
# The trivia around the tokens of a source

The tokens of a source spell it and are not empty, no line ends behind a token on its line, and in front of
every token but the first one there is nothing or a line break (`tokens_regular`).  A run of trivia has no
two runs of blanks in a row, a comment that ends with its line has the line break behind it, and line breaks
are as long as they can be (`Trivia.Regular`).

All this is told by single pieces: how long a piece is says how the text behind it does not start
(`FrontPiece`), and how a text starts says what the next piece is (`CutsOff.exists_head`).
-/

namespace SwiftTidy

/-- Whether the piece is a comment that ends with its line. -/
def TriviaPiece.isLineComment (p : TriviaPiece) : Bool :=
  p.kind == .lineComment || p.kind == .docLineComment

/-- A run of trivia in which no piece could have been longer: no two runs of blanks meet, behind a line
comment the line ends, and line breaks are LF, CR LF and a CR without LF behind it. -/
structure Trivia.Regular (t : Trivia) : Prop where
  blanks : t.IsChain fun p q => ¬ (p.isWhitespace = true ∧ q.isWhitespace = true)
  lines : t.IsChain fun p q => p.isLineComment = true → q.isNewline = true
  breaks : ∀ p ∈ t, p.isNewline = true → p.text = "\n" ∨ p.text = "\r\n" ∨ p.text = "\r"
  apart : t.BreaksApart

/-- What one piece needs in front of a run. -/
structure TriviaPiece.Fits (p : TriviaPiece) (t : Trivia) : Prop where
  blanks : p.isWhitespace = true → ∀ q ∈ t.head?, q.isWhitespace = false
  lines : p.isLineComment = true → ∀ q ∈ t.head?, q.isNewline = true
  breaks : p.isNewline = true → p.text = "\n" ∨ p.text = "\r\n" ∨ p.text = "\r"
  apart : p.text = "\r" → ∀ q ∈ t.head?, q.text ≠ "\n"

namespace Trivia.Regular

theorem nil : Regular [] := ⟨.nil, .nil, by simp, .nil⟩

theorem cons {p : TriviaPiece} {t : Trivia} (hp : p.Fits t) (h : t.Regular) : Regular (p :: t) where
  blanks := h.blanks.cons fun q hq hboth => by
    rw [hp.blanks hboth.1 q hq] at hboth
    exact absurd hboth.2 Bool.false_ne_true
  lines := h.lines.cons fun q hq hline => hp.lines hline q hq
  breaks := List.forall_mem_cons.mpr ⟨hp.breaks, h.breaks⟩
  apart := List.IsChain.cons h.apart fun q hq hboth => hp.apart hboth.1 q hq hboth.2

end Trivia.Regular

namespace Lexer

open Token Trivia

variable {trailing : Bool} {rest : List Char} {t : Trivia}

/-! ### One piece -/

/-- What is cut off in front of a text that starts with trivia, by the characters that are in front. -/
inductive FrontPiece (c : Char) (cs : List Char) : TriviaKind → Nat → Prop
  | lineFeed (hc : c = '\n') : FrontPiece c cs .newline 1
  | carriageReturn (hc : c = '\r') :
      FrontPiece c cs .newline (if cs.head? = some '\n' then 2 else 1)
  | lineComment (hc : c = '/') (hnext : cs.head? = some '/') :
      FrontPiece c cs (lineCommentKind (c :: cs)) (lineLength cs.tail + 2)
  | blockComment {n : Nat} (hc : c = '/') (hn : blockCommentLength 1 cs.tail = some n) :
      FrontPiece c cs (blockCommentKind (c :: cs)) (n + 2)
  | blanks (hc : isHorizontal c = true) :
      FrontPiece c cs .whitespace ((cs.takeWhile isHorizontal).length + 1)

theorem frontPiece_of_triviaPiece? {c : Char} {cs : List Char} {k : TriviaKind} {n : Nat}
    (h : triviaPiece? trailing (c :: cs) = .ok (some (k, n))) : FrontPiece c cs k n := by
  -- behind a token fewer pieces are cut off, but none that is not cut off in front of one
  have h := triviaPiece?_false h
  rw [triviaPiece?_cons] at h
  by_cases hlf : c = '\n'
  · rw [if_pos hlf] at h
    cases h
    exact .lineFeed hlf
  rw [if_neg hlf] at h
  by_cases hcr : c = '\r'
  · rw [if_pos hcr] at h
    cases h
    exact .carriageReturn hcr
  rw [if_neg hcr] at h
  split_ifs at h with hline hblock hblank
  · cases h
    exact .lineComment hline.1 hline.2
  · split at h
    · next n hn =>
      cases h
      exact .blockComment hblock.1 hn
    · cases h
  · cases h
    exact .blanks hblank
  · cases h

namespace FrontPiece

variable {c : Char} {cs w : List Char} {k : TriviaKind} {n : Nat}

/-- A piece of blanks is what starts with a blank. -/
theorem isHorizontal_iff (h : FrontPiece c cs k n) : isHorizontal c = true ↔ k = .whitespace := by
  have hcomment : ∀ {k : TriviaKind}, k.isComment = true → k ≠ .whitespace := by
    rintro _ hk rfl
    cases hk
  cases h with
  | lineFeed hc => simp [hc, isHorizontal]
  | carriageReturn hc => simp [hc, isHorizontal]
  | lineComment hc => simp [hc, isHorizontal, hcomment (isComment_lineCommentKind _)]
  | blockComment hc => simp [hc, isHorizontal, hcomment (isComment_blockCommentKind _)]
  | blanks hc => simp [hc]

/-- A line break is what starts with the end of a line. -/
theorem isLineEnd_iff (h : FrontPiece c cs k n) : isLineEnd c = true ↔ k = .newline := by
  cases h with
  | lineFeed hc => simp [hc, isLineEnd]
  | carriageReturn hc => simp [hc, isLineEnd]
  | lineComment hc =>
    simp [hc, isLineEnd, ne_newline_of_isComment (isComment_lineCommentKind _)]
  | blockComment hc =>
    simp [hc, isLineEnd, ne_newline_of_isComment (isComment_blockCommentKind _)]
  | blanks hc => simp [isLineEnd_of_blank hc]

/-- A line break is LF, CR LF, or CR without LF behind it. -/
theorem newline_cases (h : FrontPiece c (w ++ rest) .newline (w.length + 1)) :
    c :: w = ['\n'] ∨ c :: w = ['\r', '\n'] ∨ (c :: w = ['\r'] ∧ rest.head? ≠ some '\n') := by
  generalize hk : TriviaKind.newline = k, hn : w.length + 1 = n at h
  cases h with
  | lineFeed hc =>
    rw [hc, List.length_eq_zero_iff.mp (Nat.succ.inj hn)]
    exact .inl rfl
  | carriageReturn hc =>
    split_ifs at hn with hhead
    · obtain ⟨d, rfl⟩ := List.length_eq_one_iff.mp (Nat.succ.inj hn)
      obtain rfl : d = '\n' := Option.some.inj hhead
      rw [hc]
      exact .inr (.inl rfl)
    · obtain rfl := List.length_eq_zero_iff.mp (Nat.succ.inj hn)
      rw [hc]
      exact .inr (.inr ⟨rfl, hhead⟩)
  | lineComment => exact absurd hk.symm (ne_newline_of_isComment (isComment_lineCommentKind _))
  | blockComment => exact absurd hk.symm (ne_newline_of_isComment (isComment_blockCommentKind _))
  | blanks => cases hk

/-- Behind a line comment the line ends. -/
theorem all_isLineEnd (h : FrontPiece c (w ++ rest) k (w.length + 1))
    (hk : k = .lineComment ∨ k = .docLineComment) : rest.head?.all isLineEnd = true := by
  generalize hn : w.length + 1 = n at h
  cases h with
  | lineFeed | carriageReturn | blanks => rcases hk with hk | hk <;> cases hk
  | lineComment =>
    cases w with
    | nil => cases hn
    | cons d w =>
      -- `d` is the second slash, and the rest of the comment is the rest of the line
      have hlength : lineLength (w ++ rest) = w.length :=
        (Nat.add_right_cancel (Nat.add_right_cancel hn)).symm
      rw [lineLength, length_takeWhile_append_iff] at hlength
      cases hrest : rest.head? with
      | none => rfl
      | some e => simpa [hrest] using hlength.2
  | blockComment =>
    unfold blockCommentKind at hk
    split at hk <;> rcases hk with hk | hk <;> cases hk

/-- Behind a run of blanks there is no blank. -/
theorem any_isHorizontal (h : FrontPiece c (w ++ rest) .whitespace (w.length + 1)) :
    rest.head?.any isHorizontal = false := by
  have hblank := h.isHorizontal_iff.mpr rfl
  generalize hk : TriviaKind.whitespace = k, hn : w.length + 1 = n at h
  cases h with
  | lineFeed | carriageReturn => cases hk
  | lineComment hc | blockComment hc =>
    rw [hc] at hblank
    cases hblank
  | blanks => exact (length_takeWhile_append_iff.mp (Nat.succ.inj hn).symm).2

end FrontPiece

/-! ### Runs of pieces -/

namespace CutsOff

/-- How a text starts says what its first piece is. -/
theorem exists_head {q : TriviaPiece} (h : CutsOff trailing rest (q :: t)) :
    ∃ c, ((Trivia.text (q :: t)).toList ++ rest).head? = some c ∧
      (isHorizontal c = true ↔ q.isWhitespace = true) ∧ (isLineEnd c = true ↔ q.isNewline = true) := by
  cases h with
  | piece hpiece _ =>
    obtain ⟨c, w, hq⟩ := List.exists_cons_of_length_pos (triviaPiece?_pos hpiece).1
    have hfront := hpiece
    rw [hq] at hfront
    have hfront := frontPiece_of_triviaPiece? hfront
    refine ⟨c, by rw [Trivia.toList_text_cons, hq]; rfl, ?_, ?_⟩
    · rw [hfront.isHorizontal_iff, TriviaPiece.isWhitespace, beq_iff_eq]
    · rw [hfront.isLineEnd_iff, TriviaPiece.isNewline, beq_iff_eq]

/-- A piece that is cut off in front of others fits them. -/
theorem fits {p : TriviaPiece} (h : CutsOff trailing rest t)
    (hpiece : triviaPiece? trailing (p.text.toList ++ ((Trivia.text t).toList ++ rest)) =
      .ok (some (p.kind, p.text.toList.length))) : p.Fits t := by
  obtain ⟨c, w, hp⟩ := List.exists_cons_of_length_pos (triviaPiece?_pos hpiece).1
  rw [hp] at hpiece
  have hfront := frontPiece_of_triviaPiece? hpiece
  have hhead : ∀ q ∈ t.head?, ∃ d, ((Trivia.text t).toList ++ rest).head? = some d ∧
      (isHorizontal d = true ↔ q.isWhitespace = true) ∧ (isLineEnd d = true ↔ q.isNewline = true) := by
    intro q hq
    obtain ⟨t', rfl⟩ := List.head?_eq_some_iff.mp hq
    exact h.exists_head
  constructor
  · intro hwhite q hq
    obtain ⟨d, hd, hblank, -⟩ := hhead q hq
    rw [beq_iff_eq.mp hwhite] at hfront
    have hnot := hfront.any_isHorizontal
    rw [hd] at hnot
    rw [← Bool.not_eq_true, ← hblank]
    exact ne_true_of_eq_false hnot
  · intro hline q hq
    obtain ⟨d, hd, -, hend⟩ := hhead q hq
    rw [TriviaPiece.isLineComment, Bool.or_eq_true, beq_iff_eq, beq_iff_eq] at hline
    have hall := hfront.all_isLineEnd hline
    rw [hd] at hall
    exact hend.mp hall
  · intro hnewline
    rw [beq_iff_eq.mp hnewline] at hfront
    rw [← String.toList_inj, ← String.toList_inj, ← String.toList_inj, hp]
    rcases hfront.newline_cases with h | h | ⟨h, -⟩
    · exact .inl h
    · exact .inr (.inl h)
    · exact .inr (.inr h)
  · rintro hcr q hq htext
    -- with the LF behind it, the CR would be one line break of two characters
    obtain ⟨t, rfl⟩ := List.head?_eq_some_iff.mp hq
    rw [← hp, hcr, Trivia.toList_text_cons, htext] at hpiece
    have hlength : 2 = 1 :=
      congrArg Prod.snd (Option.some.inj (Except.ok.inj (triviaPiece?_false hpiece)))
    cases hlength

theorem regular (h : CutsOff trailing rest t) : t.Regular := by
  induction h with
  | done => exact .nil
  | piece hpiece ht ih => exact .cons (ht.fits hpiece) ih

/-- Trivia behind a token stays on its line. -/
theorem containsNewline_eq_false (h : CutsOff true rest t) : t.containsNewline = false := by
  induction h with
  | done => rfl
  | piece hpiece _ ih =>
    rw [containsNewline, List.any_cons, ← containsNewline, ih, Bool.or_false]
    exact beq_eq_false_iff_ne.mpr (triviaPiece?_ne_newline hpiece)

/-- What stands in front of a token is nothing or starts with a line break, since all else would have been
cut off behind the token in front of it. -/
theorem eq_nil_or_isNewline {s : Trivia} (hs : CutsOff true ((Trivia.text t).toList ++ rest) s)
    (h : CutsOff false rest t) : t = [] ∨ t.head?.any (·.isNewline) = true := by
  cases t with
  | nil => exact .inl rfl
  | cons q t =>
    right
    obtain ⟨c, hc, -, hend⟩ := h.exists_head
    refine hend.mp (Bool.not_eq_false _ ▸ fun hnot => ?_)
    cases h with
    | piece hpiece _ =>
      -- apart from line breaks, what is cut off here is cut off behind a token too
      have hnone := hs.triviaPiece?_rest
      rw [Trivia.toList_text_cons, List.append_assoc] at hc hnone
      obtain ⟨tail, htail⟩ := List.head?_eq_some_iff.mp hc
      rw [htail] at hnone hpiece
      rw [triviaPiece?_trailing tail hnot, hpiece] at hnone
      cases hnone

end CutsOff

/-- The line that names an interpreter is a comment with the end of the line behind it. -/
theorem fits_interpreterLine {w : List Char} (h : CutsOff trailing rest t)
    (hline : lineLength (w ++ ((Trivia.text t).toList ++ rest)) = w.length) :
    TriviaPiece.Fits ⟨.lineComment, String.ofList ('#' :: '!' :: w)⟩ t := by
  constructor
  · intro hwhite
    cases hwhite
  · intro _ q hq
    obtain ⟨t, rfl⟩ := List.head?_eq_some_iff.mp hq
    obtain ⟨c, hc, -, hend⟩ := h.exists_head
    rw [lineLength, length_takeWhile_append_iff, hc] at hline
    exact hend.mp (by simpa using hline.2)
  · intro hnewline
    cases hnewline
  · intro hcr
    have hw := congrArg String.toList hcr
    rw [String.toList_ofList] at hw
    cases hw

/-! ### The tokens of a source -/

namespace Cuts

variable {previous : Option Token} {leading : Trivia} {cs : List Char} {ts : Tokens}

/-- Only the end of the file has no text. -/
theorem text_eq_iff (h : Cuts previous leading cs ts) :
    (∀ t ∈ ts.pending, t.text ≠ "") ∧ ts.endOfFile.text = "" := by
  induction h with
  | done => exact ⟨List.forall_mem_nil _, rfl⟩
  | token _ _ _ _ ih =>
    refine ⟨List.forall_mem_cons.mpr ⟨fun htext => ?_, ih.1⟩, ih.2⟩
    have hcons := congrArg String.toList htext
    rw [String.toList_ofList] at hcons
    cases hcons

/-- The trivia in front of the first token is given. -/
theorem head?_eq (h : Cuts previous leading cs ts) : ∃ u us, ts.all = u :: us ∧ u.leading = leading := by
  cases h with
  | done => exact ⟨_, _, rfl, rfl⟩
  | token => exact ⟨_, _, rfl, rfl⟩

theorem trailing_containsNewline (h : Cuts previous leading cs ts) :
    ∀ t ∈ ts.all, t.trailing.containsNewline = false := by
  induction h with
  | done => exact List.forall_mem_singleton.mpr rfl
  | token _ htrailing _ _ ih => exact List.forall_mem_cons.mpr ⟨htrailing.containsNewline_eq_false, ih⟩

/-- Behind the first token, trivia in front of a token starts with a line break. -/
theorem eq_nil_or_isNewline (h : Cuts previous leading cs ts) :
    ∀ t ∈ ts.all.tail, t.leading = [] ∨ t.leading.head?.any (·.isNewline) = true := by
  induction h with
  | done => exact List.forall_mem_nil _
  | token _ htrailing hleading hrest ih =>
    obtain ⟨u, us, hall, hu⟩ := hrest.head?_eq
    rw [Tokens.all, List.cons_append, List.tail_cons, ← Tokens.all]
    rw [hall, List.tail_cons] at ih
    rw [hall, List.forall_mem_cons, hu]
    exact ⟨htrailing.eq_nil_or_isNewline hleading, ih⟩

/-- All trivia is regular if that in front of the first token is. -/
theorem regular (h : Cuts previous leading cs ts) (hfirst : leading.Regular) :
    ∀ t ∈ ts.all, t.leading.Regular ∧ t.trailing.Regular := by
  induction h with
  | done => exact List.forall_mem_singleton.mpr ⟨hfirst, .nil⟩
  | token _ htrailing hleading _ ih =>
    exact List.forall_mem_cons.mpr ⟨⟨hfirst, htrailing.regular⟩, ih hleading.regular⟩

end Cuts

/-- Behind the line that names an interpreter the trivia goes on. -/
theorem exists_regular_cuts {source : String} {ts : Tokens} (h : tokens source = .ok ts) :
    ∃ leading rest, leading.Regular ∧ Cuts none leading rest ts := by
  obtain ⟨t, rest, htrivia, -, hcutsOff, hcuts⟩ := exists_cuts_of_tokens h
  refine ⟨_, rest, ?_, hcuts⟩
  rcases interpreterLine_cases source.toList with hnone | ⟨w, rest', -, hlength, hsome⟩
  · rw [hnone]
    exact hcutsOff.regular
  · -- what the comment leaves of the text is the trivia and what follows it
    have hspell := toList_trivia _ _ _ _ htrivia
    rw [hsome] at hspell
    obtain rfl : _ = rest' := hspell
    rw [hsome]
    exact .cons (fits_interpreterLine hcutsOff hlength) hcutsOff.regular

/-- **The tokens of a source and their trivia.**  With the trivia around them the tokens are the source, and
only the end of the file is empty.  Behind a token no line ends; in front of one that is not the first there
is nothing, or the line break that ends the line of the token before.  No two runs of blanks meet, a comment
that ends with its line is the last piece or has a line break behind it, and a line break is LF, CR LF, or
CR with no LF behind it. -/
theorem tokens_regular {source : String} {ts : Tokens} (h : tokens source = .ok ts) :
    String.join (ts.all.map fun t => t.leading.text ++ t.text ++ t.trailing.text) = source ∧
    (∀ t ∈ ts.all, t.text = "" ↔ t.kind = .endOfFile) ∧
    (∀ t ∈ ts.all, t.trailing.containsNewline = false) ∧
    (∀ t ∈ ts.all.tail, t.leading = [] ∨ t.leading.head?.any (·.isNewline) = true) ∧
    ∀ t ∈ ts.all, t.leading.Regular ∧ t.trailing.Regular := by
  obtain ⟨leading, rest, hleading, hcuts⟩ := exists_regular_cuts h
  refine ⟨?_, ?_, hcuts.trailing_containsNewline, hcuts.eq_nil_or_isNewline, hcuts.regular hleading⟩
  · rw [← String.toList_inj, String.toList_join, List.flatMap_map]
    exact spell_tokens h
  · obtain ⟨hword, hend⟩ := tokens_isWord h
    obtain ⟨htext, htextEnd⟩ := hcuts.text_eq_iff
    rw [Tokens.all, List.forall_mem_append, List.forall_mem_singleton]
    exact ⟨fun t ht => iff_of_false (htext t ht) (hword t ht).2, iff_of_true htextEnd hend⟩

/-- A source with a line that names an interpreter, a comment in a comment, and all three line breaks. -/
theorem tokens_regular_interpreter :
    let ts : Tokens :=
      ⟨[⟨.letKw, "let", [⟨.lineComment, "#!s"⟩, ⟨.newline, "\r\n"⟩], [⟨.whitespace, "\t "⟩]⟩,
        ⟨.identifier, "x", [],
          [⟨.blockComment, "/*/**/*/"⟩, ⟨.whitespace, " "⟩, ⟨.lineComment, "// c"⟩]⟩],
        ⟨.endOfFile, "", [⟨.newline, "\n"⟩, ⟨.newline, "\r"⟩, ⟨.newline, "\r\n"⟩], []⟩⟩
    tokens "#!s\r\nlet\t x/*/**/*/ // c\n\r\r\n" = .ok ts ∧
      ∀ t ∈ ts.all, t.leading.Regular ∧ t.trailing.Regular := by
  intro ts
  have h : tokens "#!s\r\nlet\t x/*/**/*/ // c\n\r\r\n" = .ok ts := by decide +kernel
  exact ⟨h, (tokens_regular h).2.2.2.2⟩

end Lexer

end SwiftTidy
