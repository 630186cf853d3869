import Mathlib.Tactic.SplitIfs
import SwiftTidy.Proofs.Data.Except
import SwiftTidy.Proofs.Parse.Literals
import SwiftTidy.Proofs.Tree.Places

/-!
# Cutting loses nothing

The tokens of a source, the end-of-file token among them, spell the source (`spell_tokens`), and
the tokens in front of the end of the file have kinds of their own: a token kind, and not that of
the end of the file (`tokens_isWord`).

A scanner only says how long its lexeme is.  So none of the scanners is opened for the first
statement: what matters is that the front of some length and what is left behind it make up the
text again.  What the token in front is, is told once by its first character, and which scanner has
found its length (`frontToken_of_token`).
-/

namespace SwiftTidy

/-- The kinds of tokens that stand for text: those of leaves, apart from the end of the file. -/
def SyntaxKind.IsWord (k : SyntaxKind) : Prop := k.isToken = true ∧ k ≠ .endOfFile

instance (k : SyntaxKind) : Decidable k.IsWord := inferInstanceAs (Decidable (_ ∧ _))

/-- A kind that may be given to a token of another one: only semicolons and colons are read as such. -/
def SyntaxKind.IsGiven (k : SyntaxKind) : Prop := k ≠ .semicolon ∧ k ≠ .colon

instance (k : SyntaxKind) : Decidable k.IsGiven := inferInstanceAs (Decidable (_ ∧ _))

namespace Lexer

/-! ### The text is kept -/

theorem toList_front (n : Nat) (cs : List Char) : (front n cs).toList = cs.take n := by
  rw [front, String.toList_ofList]

/-- Trivia and the text behind it make up the text again. -/
theorem toList_trivia (trailing : Bool) (fuel pos : Nat) (cs : List Char) {t : Trivia}
    {rest : List Char} (h : trivia trailing fuel pos cs = .ok (t, rest)) :
    t.text.toList ++ rest = cs := by
  induction fuel generalizing pos cs t with
  | zero =>
    rw [trivia] at h
    cases h
    rfl
  | succ fuel ih =>
    rw [trivia] at h
    split at h
    · cases h
    · cases h
      rfl
    · rename_i kind n _
      split at h
      · cases h
      · rename_i t' rest' hrest
        cases h
        have hdrop := ih _ _ hrest
        rw [Trivia.toList_text_cons, List.append_assoc, hdrop, toList_front]
        exact List.take_append_drop n cs

/-- The interpreter line and the text behind it make up the text again. -/
theorem toList_interpreterLine (cs : List Char) :
    (Trivia.text (interpreterLine cs).1).toList ++ (interpreterLine cs).2 = cs := by
  unfold interpreterLine
  split
  · rename_i cs'
    rw [Trivia.toList_text_cons, Trivia.toList_text_nil, List.append_nil, toList_front]
    simp only [List.take_succ_cons, List.cons_append, List.take_append_drop]
  · rfl

/-- One step of the cutting: a token of some length, the trivia behind it on its line, the trivia
in front of the next token, and the tokens of the rest. -/
theorem tokensFrom_cons {fuel : Nat} {previous : Option Token} {leading : Trivia} {pos : Nat}
    {c : Char} {cs : List Char} {ts : Tokens}
    (h : tokensFrom (fuel + 1) previous leading pos (c :: cs) = .ok ts) :
    ∃ kind n trailing rest leading' rest' us,
      token (fuel + 1) (isLeftBound previous leading) (c :: cs) = .ok (kind, n) ∧
      trivia true fuel (pos + byteLength ((c :: cs).take n)) ((c :: cs).drop n)
        = .ok (trailing, rest) ∧
      trivia false fuel (pos + byteLength ((c :: cs).take n) + trailing.len) rest
        = .ok (leading', rest') ∧
      tokensFrom fuel (some ⟨kind, front n (c :: cs), leading, trailing⟩) leading'
        (pos + byteLength ((c :: cs).take n) + trailing.len + leading'.len) rest' = .ok us ∧
      ts = ⟨⟨kind, front n (c :: cs), leading, trailing⟩ :: us.pending, us.endOfFile⟩ := by
  rw [tokensFrom] at h
  split at h
  · cases h
  · rename_i kind n htoken
    obtain ⟨⟨trailing, rest⟩, htrailing, h⟩ := Except.bind_eq_ok.mp h
    obtain ⟨⟨leading', rest'⟩, hleading, h⟩ := Except.bind_eq_ok.mp h
    obtain ⟨us, hus, h⟩ := Except.bind_eq_ok.mp h
    cases h
    exact ⟨kind, n, trailing, rest, leading', rest', us, htoken, htrailing, hleading, hus, rfl⟩

/-- Every token of the text spells what was cut off for it, and the end-of-file token owns what
trivia is left. -/
theorem spell_tokensFrom (fuel : Nat) (previous : Option Token) (leading : Trivia) (pos : Nat)
    (cs : List Char) {ts : Tokens} (h : tokensFrom fuel previous leading pos cs = .ok ts) :
    Token.spell (ts.pending ++ [ts.endOfFile]) = leading.text.toList ++ cs := by
  induction fuel generalizing previous leading pos cs ts with
  | zero => cases h
  | succ fuel ih =>
    cases cs with
    | nil =>
      cases h
      simp [Token.spell, Token.toList_fullText]
    | cons c cs =>
      obtain ⟨kind, n, trailing, rest, leading', rest', us, -, htrailing, hleading, hus, rfl⟩ :=
        tokensFrom_cons h
      have h1 := toList_trivia _ _ _ _ htrailing
      have h2 := toList_trivia _ _ _ _ hleading
      have h3 := ih _ _ _ _ hus
      rw [List.cons_append, Token.spell_cons, h3, h2, Token.toList_fullText]
      simp only [toList_front, List.append_assoc]
      rw [h1, List.take_append_drop]

/-- A source is cut into tokens behind its interpreter line and the trivia that follows. -/
theorem tokens_eq_ok {source : String} {ts : Tokens} (h : tokens source = .ok ts) :
    ∃ line t rest, line = (interpreterLine source.toList).1 ∧
      trivia false source.toList.length line.len (interpreterLine source.toList).2
        = .ok (t, rest) ∧
      tokensFrom (source.toList.length + 1) none (line ++ t) (Trivia.len (line ++ t)) rest
        = .ok ts := by
  unfold tokens at h
  dsimp only at h
  obtain ⟨⟨t, rest⟩, htrivia, h⟩ := Except.bind_eq_ok.mp h
  exact ⟨_, t, rest, rfl, htrivia, h⟩

/-- The tokens of a source spell the source. -/
theorem spell_tokens {source : String} {ts : Tokens} (h : tokens source = .ok ts) :
    Token.spell (ts.pending ++ [ts.endOfFile]) = source.toList := by
  obtain ⟨line, t, rest, rfl, htrivia, h⟩ := tokens_eq_ok h
  rw [spell_tokensFrom _ _ _ _ _ h, Trivia.toList_text_append, List.append_assoc,
    toList_trivia _ _ _ _ htrivia, toList_interpreterLine]

/-! ### The token in front -/

/-- The tokens of one character. -/
def markKinds : List (Char × SyntaxKind) :=
  [('(', .leftParen), (')', .rightParen), ('\x7b', .leftBrace), ('\x7d', .rightBrace),
    ('[', .leftBracket), (']', .rightBracket), (',', .comma), (':', .colon), (';', .semicolon),
    ('@', .atSign)]

/-- The kind of a token of one character. -/
def mark? (c : Char) : Option SyntaxKind := markKinds.lookup c

theorem mem_markKinds {c : Char} {kind : SyntaxKind} (h : mark? c = some kind) : (c, kind) ∈ markKinds := by
  obtain ⟨ps, qs, hmem, -⟩ := List.lookup_eq_some_iff.mp h
  rw [hmem]
  exact List.mem_append_right _ List.mem_cons_self

/-- What the token at the front is, by its first character. -/
theorem token_cons (fuel : Nat) (leftBound : Bool) (c : Char) (cs : List Char) :
    token fuel leftBound (c :: cs) =
      match mark? c with
      | some k => .ok (k, 1)
      | none =>
        if c = '.' then
          if cs.head? = some '.' then .ok (operator leftBound (rangeOperatorLength (c :: cs)) (c :: cs))
          else .ok (.period, 1)
        else if c = '"' then (literalLength fuel 0 (c :: cs)).map fun n => (.stringLiteral, n)
        else if c = '#' then
          match rawHashes? (c :: cs) with
          | some hashes => (literalLength fuel hashes (c :: cs)).map fun n => (.stringLiteral, n)
          | none =>
            if nameLength cs = 0 then .error ⟨.poundWithoutName, 0⟩
            else .ok (.poundKeyword, nameLength cs + 1)
        else if c = '\x60' then
          match escapedNameLength cs with
          | some n => .ok (.identifier, n)
          | none => .error ⟨.unterminatedIdentifier, 0⟩
        else if c = '$' then .ok (.dollarIdentifier, nameLength cs + 1)
        else if c.isDigit then .ok (number (c :: cs))
        else if c == '_' || CharClass.isAlphabetic c then
          .ok (nameKind (front (nameLength cs + 1) (c :: cs)), nameLength cs + 1)
        else if isOperatorChar c then
          .ok (operator leftBound (operatorLength leftBound (c :: cs)) (c :: cs))
        else .error ⟨.unexpectedCharacter c, 0⟩ := by
  unfold token
  split
  -- most characters tell what the token is
  all_goals try (rename_i heq; cases heq; rfl)
  · next heq => cases heq
  · next hne heq =>
    cases heq
    have hhead : ¬ cs.head? = some '.' := by
      cases cs with
      | nil => simp
      | cons d cs => exact fun hd => hne cs (by rw [Option.some.inj hd])
    rw [if_pos rfl, if_neg hhead]
    rfl
  · next heq =>
    cases heq
    have hmark : mark? c = none := by
      rw [mark?, markKinds, List.lookup_eq_none_iff]
      simp_all
    rw [hmark]
    simp_all

/-- Whether an operator may start with the character. -/
def startsOperator (c : Char) : Bool := c == '.' || isOperatorChar c

/-- What is cut off in front of a text that is not empty, by the character that is in front. -/
inductive FrontToken (fuel : Nat) (leftBound : Bool) (c : Char) (cs : List Char) :
    SyntaxKind → Nat → Prop
  | mark {kind : SyntaxKind} (hc : (c, kind) ∈ markKinds) : FrontToken fuel leftBound c cs kind 1
  | period (hc : c = '.') : FrontToken fuel leftBound c cs .period 1
  | operator {n : Nat} (hc : startsOperator c = true)
      (hn : n = if c = '.' then rangeOperatorLength (c :: cs) else operatorLength leftBound (c :: cs)) :
      FrontToken fuel leftBound c cs
        (classifyOperator (front n (c :: cs)) leftBound (isRightBound ((c :: cs).drop n))) n
  | literal {hashes n : Nat} (hhashes : rawHashes? (c :: cs) = some hashes)
      (hn : literalLength fuel hashes (c :: cs) = .ok n) : FrontToken fuel leftBound c cs .stringLiteral n
  | directive (hc : c = '#') : FrontToken fuel leftBound c cs .poundKeyword (nameLength cs + 1)
  | escaped {n : Nat} (hc : c = '\x60') (hn : escapedNameLength cs = some n) :
      FrontToken fuel leftBound c cs .identifier n
  | dollar (hc : c = '$') : FrontToken fuel leftBound c cs .dollarIdentifier (nameLength cs + 1)
  | number (hc : c.isDigit = true) :
      FrontToken fuel leftBound c cs (number (c :: cs)).1 (number (c :: cs)).2
  | name (hc : (c == '_' || CharClass.isAlphabetic c) = true) :
      FrontToken fuel leftBound c cs (nameKind (front (nameLength cs + 1) (c :: cs))) (nameLength cs + 1)

theorem frontToken_of_token {fuel : Nat} {leftBound : Bool} {c : Char} {cs : List Char}
    {kind : SyntaxKind} {n : Nat} (h : token fuel leftBound (c :: cs) = .ok (kind, n)) :
    FrontToken fuel leftBound c cs kind n := by
  rw [token_cons] at h
  cases hmark : mark? c with
  | some k =>
    rw [hmark] at h
    cases h
    exact .mark (mem_markKinds hmark)
  | none =>
    rw [hmark] at h
    dsimp only at h
    by_cases hhash : c = '#'
    · rw [if_neg (by rw [hhash]; decide), if_neg (by rw [hhash]; decide), if_pos hhash] at h
      split at h
      · next hashes hhashes =>
        obtain ⟨m, hliteral, heq⟩ := Except.map_eq_ok.mp h
        cases heq
        exact .literal hhashes hliteral
      · split_ifs at h
        cases h
        exact .directive hhash
    rw [if_neg hhash] at h
    -- the branches that are left, in the order in which the lexer tries them
    split_ifs at h with hpoint hrange hquote hbacktick hdollar hdigit hname hoperator
    · cases h
      exact .operator (by rw [startsOperator, hpoint]; rfl) (by rw [if_pos hpoint])
    · cases h
      exact .period hpoint
    · obtain ⟨m, hliteral, heq⟩ := Except.map_eq_ok.mp h
      cases heq
      refine .literal ?_ hliteral
      rw [hquote, rawHashes?_cons (by decide), if_pos rfl]
    · split at h
      · next m hm =>
        cases h
        exact .escaped hbacktick hm
      · cases h
    · cases h
      exact .dollar hdollar
    · have heq := Except.ok.inj h
      rw [show kind = (number (c :: cs)).1 by rw [heq], show n = (number (c :: cs)).2 by rw [heq]]
      exact .number hdigit
    · cases h
      exact .name hname
    · cases h
      exact .operator (by rw [startsOperator, hoperator, Bool.or_true]) (by rw [if_neg hpoint])

/-! ### The kinds of tokens -/

theorem classifyOperator_isWord (text : String) (leftBound rightBound : Bool) :
    (classifyOperator text leftBound rightBound).IsWord := by
  unfold classifyOperator
  split_ifs <;> decide

theorem isGiven_classifyOperator (text : String) (leftBound rightBound : Bool) :
    (classifyOperator text leftBound rightBound).IsGiven := by
  unfold classifyOperator
  split_ifs <;> decide

/-- Every reserved word has the kind of a token. -/
theorem keywords_isWord : ∀ p ∈ SyntaxKind.keywords, p.2.IsWord := by decide

/-- A name is a wildcard, an identifier or a reserved word. -/
theorem nameKind_of {P : SyntaxKind → Prop} (hwildcard : P .wildcard) (hidentifier : P .identifier)
    (hkeywords : ∀ p ∈ SyntaxKind.keywords, P p.2) (text : String) : P (nameKind text) := by
  unfold nameKind
  split
  · exact hwildcard
  · cases hk : SyntaxKind.ofKeyword? text with
    | none => exact hidentifier
    | some k =>
      obtain ⟨ws, w, hmem, -⟩ := List.lookup_eq_some_iff.mp hk
      exact hkeywords (text, k) (by rw [hmem]; simp)

theorem nameKind_isWord (text : String) : (nameKind text).IsWord :=
  nameKind_of (by decide) (by decide) keywords_isWord text

/-- A number has a point or an exponent, or it is an integer. -/
theorem number_of {P : SyntaxKind → Prop} (hfloat : P .floatLiteral) (hinteger : P .integerLiteral)
    (cs : List Char) : P (number cs).1 := by
  unfold number
  dsimp only
  split
  · exact hfloat
  · exact hinteger

theorem number_isWord (cs : List Char) : (number cs).1.IsWord := number_of (by decide) (by decide) cs

/-- A token that is cut off a text which is not empty has the kind of a token, and not that of
the end of the file. -/
theorem token_isWord (fuel : Nat) (leftBound : Bool) (c : Char) (cs : List Char) {k : SyntaxKind}
    {n : Nat} (h : token fuel leftBound (c :: cs) = .ok (k, n)) : k.IsWord := by
  cases frontToken_of_token h with
  | mark hc => exact (by decide : ∀ p ∈ markKinds, p.2.IsWord) _ hc
  | operator => exact classifyOperator_isWord _ _ _
  | number => exact number_isWord _
  | name => exact nameKind_isWord _
  | period | literal | directive | escaped | dollar => decide

/-- A token of a kind that is not given to others is one character. -/
theorem token_of_not_isGiven {fuel n : Nat} {leftBound : Bool} {c : Char} {cs : List Char}
    {kind : SyntaxKind} (h : token fuel leftBound (c :: cs) = .ok (kind, n)) (hkind : ¬ kind.IsGiven) :
    (c, kind) ∈ markKinds ∧ n = 1 := by
  cases frontToken_of_token h with
  | mark hc => exact ⟨hc, rfl⟩
  | operator => exact absurd (isGiven_classifyOperator _ _ _) hkind
  | number => exact absurd (number_of (by decide) (by decide) _) hkind
  | name => exact absurd (nameKind_of (by decide) (by decide) (by decide) _) hkind
  | period | literal | directive | escaped | dollar => exact absurd (by decide) hkind

theorem tokensFrom_isWord (fuel : Nat) (previous : Option Token) (leading : Trivia) (pos : Nat)
    (cs : List Char) {ts : Tokens} (h : tokensFrom fuel previous leading pos cs = .ok ts) :
    (∀ t ∈ ts.pending, t.kind.IsWord) ∧ ts.endOfFile.kind = .endOfFile := by
  induction fuel generalizing previous leading pos cs ts with
  | zero => cases h
  | succ fuel ih =>
    cases cs with
    | nil =>
      cases h
      exact ⟨fun t ht => absurd ht List.not_mem_nil, rfl⟩
    | cons c cs =>
      obtain ⟨kind, n, trailing, rest, leading', rest', us, htoken, -, -, hus, rfl⟩ :=
        tokensFrom_cons h
      obtain ⟨hpending, hend⟩ := ih _ _ _ _ hus
      refine ⟨fun t ht => ?_, hend⟩
      rcases List.mem_cons.mp ht with rfl | ht
      · exact token_isWord _ _ _ _ htoken
      · exact hpending t ht

/-- The tokens of a source have the kinds of tokens that stand for text, and the end of the file
is apart from them. -/
theorem tokens_isWord {source : String} {ts : Tokens} (h : tokens source = .ok ts) :
    (∀ t ∈ ts.pending, t.kind.IsWord) ∧ ts.endOfFile.kind = .endOfFile := by
  obtain ⟨line, t, rest, -, -, h⟩ := tokens_eq_ok h
  exact tokensFrom_isWord _ _ _ _ _ h

end Lexer

end SwiftTidy
