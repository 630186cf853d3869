import SwiftTidy.Proofs.Parse.Omission
import SwiftTidy.Proofs.Parse.Total
import SwiftTidy.Proofs.Text.Location
import SwiftTidy.Report.FileReport

/-!
# Where a source is rejected

Each scanner rejects at a character of the text that is left, and each production at the lexeme of a
token, so it is enough that the text which is left always stands in the source where it is said to be
(`Lexer.At`, `Input.StandsIn`).  Taking a token keeps this, and so does cutting an operator in two, whose
second part has no offset of its own.

`offset_of_parse_error`: a source is rejected at a boundary between two of its characters, and the report
on it gives the line and the column of this boundary.
-/

namespace SwiftTidy

/-! ### Rejected texts -/

namespace Lexer

variable {source : String} {pos : Nat} {cs : List Char} {e : ParseError}

theorem at_of_trivia_error {trailing : Bool} {fuel : Nat} (hat : At source pos cs)
    (h : trivia trailing fuel pos cs = .error e) : ∃ ds, At source e.offset ds := by
  induction fuel generalizing pos cs with
  | zero => cases h
  | succ fuel ih =>
    rw [trivia] at h
    split at h
    · next r _ =>
      cases h
      exact ⟨_, hat.drop r.index⟩
    · cases h
    · next kind n _ =>
      split at h
      · next hrest =>
        cases h
        exact ih (hat.drop n) hrest
      · cases h

/-- Trivia and the text behind it stand one behind the other. -/
theorem at_behind_trivia {trailing : Bool} {fuel : Nat} {t : Trivia} {rest : List Char}
    (hat : At source pos cs) (h : trivia trailing fuel pos cs = .ok (t, rest)) :
    At source (pos + t.len) rest := by
  rw [← toList_trivia _ _ _ _ h] at hat
  exact hat.trivia

theorem at_of_tokensFrom_error {fuel : Nat} {previous : Option Token} {leading : Trivia}
    (hat : At source pos cs) (h : tokensFrom fuel previous leading pos cs = .error e) :
    ∃ ds, At source e.offset ds := by
  induction fuel generalizing previous leading pos cs with
  | zero =>
    cases h
    exact ⟨cs, hat⟩
  | succ fuel ih =>
    cases cs with
    | nil => cases h
    | cons c cs =>
      rw [tokensFrom] at h
      split at h
      · next r _ =>
        cases h
        exact ⟨_, hat.drop r.index⟩
      · next kind n _ =>
        have hstop := hat.drop n
        rcases Except.bind_eq_error.mp h with h | ⟨⟨trailing, rest⟩, htrailing, h⟩
        · exact at_of_trivia_error hstop h
        have hrest := at_behind_trivia hstop htrailing
        rcases Except.bind_eq_error.mp h with h | ⟨⟨leading', rest'⟩, hleading, h⟩
        · exact at_of_trivia_error hrest h
        rcases Except.bind_eq_error.mp h with h | ⟨ts, -, h⟩
        · exact ih (at_behind_trivia hrest hleading) h
        · cases h

/-- The text behind the line that names an interpreter. -/
theorem at_interpreterLine (source : String) :
    At source (Trivia.len (interpreterLine source.toList).1) (interpreterLine source.toList).2 := by
  have hat := At.zero source
  rw [← toList_interpreterLine source.toList] at hat
  have hline := hat.trivia
  rwa [Nat.zero_add] at hline

/-- A text that cannot be cut into tokens is rejected at a boundary between two characters. -/
theorem at_of_tokens_error (h : tokens source = .error e) : ∃ ds, At source e.offset ds := by
  have hline := at_interpreterLine source
  unfold tokens at h
  dsimp only at h
  rcases Except.bind_eq_error.mp h with h | ⟨⟨t, rest⟩, htrivia, h⟩
  · exact at_of_trivia_error hline h
  · have hat := at_behind_trivia hline htrivia
    rw [← Trivia.len_append] at hat
    exact at_of_tokensFrom_error hat h

end Lexer

/-! ### Inputs of a source -/

open Lexer (At)

variable {source : String}

namespace Input

/-- What is left to read is a text of the source, and stands there at the offset of the input. -/
def StandsIn (source : String) (s : Input) : Prop :=
  At source s.offset (Token.spell (s.pending ++ [s.endOfFile]))

namespace StandsIn

variable {s : Input}

/-- The lexeme of the next token stands behind its trivia. -/
theorem at_position (h : s.StandsIn source) : ∃ cs, At source s.position cs := by
  obtain ⟨ts, hts⟩ : ∃ ts, s.pending ++ [s.endOfFile] = s.nth 0 :: ts := by
    cases hpending : s.pending with
    | nil => exact ⟨[], by rw [nth, hpending]; rfl⟩
    | cons t rest => exact ⟨rest ++ [s.endOfFile], by rw [nth, hpending]; rfl⟩
  rw [StandsIn, hts, Token.spell_cons, Token.toList_fullText, List.append_assoc,
    List.append_assoc] at h
  exact ⟨_, h.trivia⟩

/-- Behind a token stands the next one. -/
theorem take {t : Token} {rest : List Token} (h : s.StandsIn source) (hs : s.pending = t :: rest) :
    StandsIn source ⟨s.offset + t.fullLen, rest, s.endOfFile⟩ := by
  rw [StandsIn, hs, List.cons_append, Token.spell_cons] at h
  have hrest := h.append
  rwa [Lexer.byteLength_eq, Token.utf8Len_fullText] at hrest

/-- Behind all tokens stands the end of the file. -/
theorem atEnd (h : s.StandsIn source) : s.atEnd.StandsIn source := by
  obtain ⟨offset, pending, e⟩ := s
  induction pending generalizing offset with
  | nil => exact h
  | cons t rest ih =>
    have hend := ih _ (h.take rfl)
    unfold Input.atEnd at hend ⊢
    rwa [Nat.add_assoc] at hend

/-- An operator that is cut in two has the text that it had. -/
theorem splitRightAngle (h : s.StandsIn source) : s.splitRightAngle.StandsIn source := by
  have hkept := Grammar.Assembled.Kept.splitRightAngle s
  have hspell := hkept.spell
  rw [Element.leavesAll_nil, List.nil_append, List.nil_append] at hspell
  rw [StandsIn, Token.spell_append] at h ⊢
  rwa [hspell, hkept.endOfFile, offset_splitRightAngle]

end StandsIn

end Input

/-! ### Rejected tokens -/

namespace Grammar

variable {held : List Element} {g h : Grammar} {s : Input}

/-- Where a grammar rejects an input, it points between two characters of the source, and where it does
not, what it leaves is an input of the source. -/
def PointsInto (source : String) (g : Grammar) (s : Input) : Prop :=
  match g.run s with
  | .error e => ∃ cs, At source e.offset cs
  | .ok (_, s') => s'.StandsIn source

theorem pointsInto_iff : g.PointsInto source s ↔
    (∀ e, g.run s = .error e → ∃ cs, At source e.offset cs) ∧
      ∀ es s', g.run s = .ok (es, s') → s'.StandsIn source := by
  unfold PointsInto
  cases g.run s with
  | error e => simp
  | ok p => simp [Prod.ext_iff]

theorem PointsInto.append (hg : g.PointsInto source s)
    (hh : ∀ s', s'.StandsIn source → h.PointsInto source s') : (g ++ h).PointsInto source s := by
  obtain ⟨herror, hok⟩ := pointsInto_iff.mp hg
  unfold PointsInto
  rw [append_run]
  cases hrun : g.run s with
  | error e => exact herror e hrun
  | ok p =>
    have hsecond := hh p.2 (hok p.1 p.2 hrun)
    unfold PointsInto at hsecond
    cases hrun' : h.run p.2 with
    | error e => simpa [hrun'] using hsecond
    | ok q => simpa [hrun'] using hsecond

theorem PointsInto.capture {k : List Element → Grammar} (hg : g.PointsInto source s)
    (hk : ∀ es s', s'.StandsIn source → (k es).PointsInto source s') :
    (Grammar.capture g k).PointsInto source s := by
  obtain ⟨herror, hok⟩ := pointsInto_iff.mp hg
  unfold PointsInto
  rw [capture_run]
  cases hrun : g.run s with
  | error e => exact herror e hrun
  | ok p => exact hk p.1 p.2 (hok p.1 p.2 hrun)

theorem pointsInto_takeAs (k : SyntaxKind) (hs : s.StandsIn source) :
    (takeAs k).PointsInto source s := by
  rw [pointsInto_iff]
  constructor
  · intro e he
    unfold takeAs at he
    dsimp only at he
    split at he
    · cases he
      exact hs.at_position
    · cases he
  · intro es s' hrun
    obtain ⟨t, rest, hpending, -, rfl⟩ := run_takeAs hrun
    exact hs.take hpending

/-- **Every production** points into the source: what it is put together from does. -/
theorem Assembled.pointsInto (hg : Assembled held g) (hs : s.StandsIn source) :
    g.PointsInto source s := by
  induction hg generalizing s with
  | emit => exact hs
  | wrap _ _ _ ih => exact ih hs
  | emitFront _ _ ih => exact PointsInto.append (g := Grammar.emit _) hs fun _ hs' => ih hs'
  | fail held e he =>
    show ∃ cs, At source (e s).offset cs
    rcases he s with hoffset | hoffset
    · rw [hoffset]
      exact hs.at_position
    · rw [hoffset]
      exact hs.atEnd.at_position
  | peek _ ih => exact ih s hs
  | append _ _ ihg ihh => exact (ihg hs).append fun _ hs' => ihh hs'
  | capture _ _ _ ihg ihk => exact (ihg hs).capture fun es _ hs' => ihk es hs'
  | take => exact pointsInto_takeAs _ hs
  | takeAs k _ _ => exact pointsInto_takeAs k hs
  | splitRightAngle => exact hs.splitRightAngle

theorem pointsInto_sourceFile {r : Level} (hr : r.Assembled) (hs : s.StandsIn source) :
    (sourceFile r).PointsInto source s := by
  refine PointsInto.capture ?_ fun _ _ hs' => hs'
  exact ((assembled_fileItems hr).pointsInto hs).append fun _ hs' => hs'

end Grammar

/-! ### Rejected sources -/

theorem at_of_parse_error {e : ParseError} (h : parse source = .error e) :
    ∃ cs, At source e.offset cs := by
  unfold parse at h
  split_ifs at h
  · cases h
    exact ⟨_, At.zero source⟩
  · rcases Except.bind_eq_error.mp h with h | ⟨ts, htokens, h⟩
    · exact Lexer.at_of_tokens_error h
    · dsimp only at h
      split at h
      · next hrun =>
        cases h
        have hs : Input.StandsIn source ⟨0, ts.pending, ts.endOfFile⟩ := by
          rw [Input.StandsIn, Lexer.spell_tokens htokens]
          exact At.zero source
        exact (Grammar.pointsInto_iff.mp (Grammar.pointsInto_sourceFile
          (Grammar.assembled_level _) hs)).1 _ hrun
      · cases h

/-- **Where a source is rejected**: within the source and between two of its characters.  The report on a
source whose length 32 bits hold gives the line and the column that are counted in front of there. -/
theorem offset_of_parse_error {e : ParseError} (h : parse source = .error e) :
    e.offset ≤ source.utf8ByteSize ∧ Text.isBoundary source e.offset = true ∧
      (source.utf8ByteSize ≤ maxSourceLength →
        ∃ before behind loc, source.toList = before ++ behind ∧ e.offset = String.utf8Len before ∧
          (loc.line.val, loc.column.val) = Text.walk 1 1 before behind ∧
          (LineIndex.ofText source).location? e.offset = some loc ∧
          ∀ path, FileReport.unparsable path source e = ⟨path, [], some (loc, e.message)⟩) := by
  obtain ⟨behind, hat⟩ := at_of_parse_error h
  have hlength := hat.length_eq
  obtain ⟨before, htext, hoffset⟩ := hat
  rw [Lexer.byteLength_eq] at hoffset
  refine ⟨by omega, Text.isBoundary_iff.mpr ⟨before, behind, htext, hoffset⟩, fun hsize => ?_⟩
  obtain ⟨loc, hloc, hwalk⟩ := LineIndex.location?_eq (Nat.lt_succ_of_le hsize) htext
  rw [← hoffset] at hloc
  refine ⟨before, behind, loc, htext, hoffset, hwalk, hloc, fun path => ?_⟩
  rw [FileReport.unparsable, LineIndex.location_of_location?_eq_some hloc]

/-- The second `>` of `>>` closes nothing.  It stands behind an accent, which is two bytes and one
column. -/
theorem offset_of_parse_error_angle : ∃ e, parse "let é: A<B>>\n" = .error e ∧ e.offset = 12 ∧
    Text.isBoundary "let é: A<B>>\n" 12 = true ∧
    ∃ loc, (LineIndex.ofText "let é: A<B>>\n").location? 12 = some loc ∧
      loc = ⟨⟨1, by decide⟩, ⟨12, by decide⟩⟩ ∧
      FileReport.unparsable "a.swift" "let é: A<B>>\n" e = ⟨"a.swift", [], some (loc, e.message)⟩ := by
  have hrejected : (match parse "let é: A<B>>\n" with
      | .error e => some e.offset
      | .ok _ => none) = some 12 := by decide +kernel
  split at hrejected
  · next e he =>
    obtain ⟨-, hboundary, hreport⟩ := offset_of_parse_error he
    obtain ⟨before, behind, loc, -, -, -, hloc, hreport⟩ := hreport (by decide)
    obtain ⟨offset, cause⟩ := e
    obtain rfl : offset = 12 := Option.some.inj hrejected
    have hcounted : (LineIndex.ofText "let é: A<B>>\n").location? 12 =
        some ⟨⟨1, by decide⟩, ⟨12, by decide⟩⟩ := by decide
    exact ⟨_, he, rfl, hboundary, loc, hloc, Option.some.inj (hloc.symm.trans hcounted), hreport _⟩
  · cases hrejected

end SwiftTidy
