import SwiftTidy.Proofs.Parse.Depth
import SwiftTidy.Proofs.Parse.LookAhead
import SwiftTidy.Proofs.Parse.Productions

/-!
# Every source is read or rejected

`parse_total`: a source of any kind is read into a tree or rejected for a cause that lies in it.  No
bound of the reader is ever reached, because every step of a loop and every production takes
something of the source; and the answer is the one that is found when every cut of the text, every
index into the tokens and every counter is checked (`ParsesTo`).
-/

namespace SwiftTidy

namespace Lexer

/-! ### What a scanner takes is there -/

theorem blockCommentLength_le {depth n : Nat} {cs : List Char}
    (h : blockCommentLength depth cs = some n) : n ≤ cs.length := by
  induction depth, cs using blockCommentLength.induct generalizing n with
  | case1 cs =>
    rw [blockCommentLength] at h
    cases h
    exact Nat.zero_le _
  | case2 depth cs ih =>
    rw [blockCommentLength] at h
    obtain ⟨m, hm, rfl⟩ := Option.map_eq_some_iff.mp h
    exact Nat.add_le_add_right (ih hm) 2
  | case3 depth cs ih =>
    rw [blockCommentLength] at h
    obtain ⟨m, hm, rfl⟩ := Option.map_eq_some_iff.mp h
    exact Nat.add_le_add_right (ih hm) 2
  | case4 depth c cs hopen hclose ih =>
    rw [blockCommentLength.eq_4] at h
    · obtain ⟨m, hm, rfl⟩ := Option.map_eq_some_iff.mp h
      exact Nat.add_le_add_right (ih hm) 1
    · exact hopen
    · exact hclose
  | case5 depth =>
    rw [blockCommentLength] at h
    cases h

theorem triviaPiece?_le {trailing : Bool} {cs : List Char} {kind : TriviaKind} {n : Nat}
    (h : triviaPiece? trailing cs = .ok (some (kind, n))) : n ≤ cs.length := by
  have hwhile : ∀ (p : Char → Bool) (ds : List Char), (ds.takeWhile p).length ≤ ds.length :=
    fun p ds => (List.takeWhile_prefix p).length_le
  unfold triviaPiece? at h
  split at h
  · cases h
  · split at h <;> cases h
    exact Nat.succ_le_succ (Nat.zero_le _)
  · split at h <;> cases h
    exact Nat.succ_le_succ (Nat.succ_le_succ (Nat.zero_le _))
  · split at h <;> cases h
    exact Nat.succ_le_succ (Nat.zero_le _)
  · cases h
    exact Nat.add_le_add_right (hwhile _ _) 2
  · split at h
    · next m hm =>
      cases h
      exact Nat.add_le_add_right (blockCommentLength_le hm) 2
    · cases h
  · split at h <;> cases h
    exact Nat.succ_le_succ (hwhile _ _)

end Lexer

/-! ### Reading with every check -/

open Lexer Grammar TokenVector

/-- The answer for a source that is cut by offsets and read over a vector, with every check. -/
inductive ParsesTo (source : String) : Except ParseError Element → Prop where
  | tooLarge (hsize : maxSourceLength < source.utf8ByteSize) :
      ParsesTo source (.error ⟨0, .tooLarge⟩)
  | rejectedText {e : ParseError} (hsize : source.utf8ByteSize ≤ maxSourceLength)
      (hlex : lex source = .error (.rejected e)) : ParsesTo source (.error e)
  | rejectedTokens {ls : List Lexed} {e : ParseError}
      (hsize : source.utf8ByteSize ≤ maxSourceLength) (hlex : lex source = .ok ls)
      (hrun : Executes source (sourceFile (level (depthFor source.utf8ByteSize))) ⟨ls, 0⟩
        (.error e)) :
      ParsesTo source (.error e)
  | tree {ls : List Lexed} {tree : Element} {v : TokenVector}
      (hsize : source.utf8ByteSize ≤ maxSourceLength) (hlex : lex source = .ok ls)
      (hrun : Executes source (sourceFile (level (depthFor source.utf8ByteSize))) ⟨ls, 0⟩
        (.ok ([tree], v))) :
      ParsesTo source (.ok tree)

/-- What is safe about reading a source. -/
structure ParsesSafely (source : String) : Prop where
  /-- A source is only rejected for a cause that lies in it: no bound is reached, and no token is
  taken behind the last one. -/
  isGenuine : ∀ e, parse source = .error e → e.IsGenuine
  /-- Every check that is made on the way to the answer succeeds. -/
  checked : ParsesTo source (parse source)
  /-- A tree renders to the source, which is asserted of it in the end. -/
  lossless : ∀ tree, parse source = .ok tree → tree.fullText = source
  /-- A piece of trivia takes characters, and they are there. -/
  piece_takes : ∀ trailing cs kind n, triviaPiece? trailing cs = .ok (some (kind, n)) →
    0 < n ∧ n ≤ cs.length
  /-- A token takes characters, and they are there. -/
  token_takes : ∀ fuel leftBound c cs kind n,
    token fuel leftBound (c :: cs) = .ok (kind, n) → 0 < n ∧ n ≤ (c :: cs).length
  /-- A production takes a token or rejects the input. -/
  production_takes : ∀ (p : Nonterminal) (s : Input), s.Ready → s.size ≤ source.utf8ByteSize →
    p.CanStart s → (nonterminal (depthFor source.utf8ByteSize) p).Reads s
  /-- Whatever input a vector shows, each look-ahead at it stays within the vector. -/
  looksSafely : ∀ (v : TokenVector) (s : Input), v.Shows source s → v.LooksSafely source s

/-- The tokens of a source have a text, and the end of the file is behind them. -/
theorem ready_of_tokens {source : String} {ts : Tokens} (h : tokens source = .ok ts) :
    (Input.mk 0 ts.pending ts.endOfFile).Ready :=
  ⟨fun t ht => ((tokens_isCut h).1 t ht).len_pos, (tokens_isWord h).2⟩

theorem total_len_le (ts : List Token) :
    Input.total Token.len ts ≤ String.utf8Len (Token.spell ts) := by
  induction ts with
  | nil => exact Nat.le_refl 0
  | cons t ts ih =>
    rw [Input.total, Token.spell_cons, String.utf8Len_append, Token.utf8Len_fullText, Token.fullLen]
    omega

/-- The lexemes of a source have no more bytes than the source. -/
theorem size_le_of_tokens {source : String} {ts : Tokens} (h : tokens source = .ok ts) :
    (Input.mk 0 ts.pending ts.endOfFile).size ≤ source.utf8ByteSize := by
  have hle := total_len_le ts.pending
  rw [Text.utf8ByteSize_eq, ← spell_tokens h, Token.spell_append, String.utf8Len_append]
  show Input.total Token.len ts.pending ≤ _
  omega

/-- The entries that a source is cut into show its tokens. -/
theorem shows_of_tokens {source : String} {ls : List Lexed} {ts : Tokens}
    (hstands : Stands source 0 ls (ts.pending ++ [ts.endOfFile])) (h : tokens source = .ok ts) :
    Shows source ⟨ls, 0⟩ ⟨0, ts.pending, ts.endOfFile⟩ :=
  ⟨hstands, fun t ht => ((tokens_isWord h).1 t ht).2, (tokens_isWord h).2⟩

/-- A whole file is read over a vector as it is read from its input. -/
theorem mirrors_sourceFile {source : String} {r : Level} {v : TokenVector} {s : Input}
    (hr : r.Assembled) (hs : v.Shows source s) (hsound : (sourceFile r).Sound s) :
    (sourceFile r).Mirrors source v s := by
  refine Mirrors.capture (Mirrors.append ?_ fun es s' hrun v' hs' => ?_) fun es s' hrun v' hs' => ?_
  · exact mirrors_of_assembled (assembled_fileItems hr) hs hsound.captured.first
  · exact .peek hs' ⟨v', .emit _ v', hs'⟩
  · exact ⟨v', .emit _ v', hs'⟩

theorem sound_sourceFile {source : String} {ts : Tokens} (h : tokens source = .ok ts) :
    (sourceFile (level (depthFor source.utf8ByteSize))).Sound ⟨0, ts.pending, ts.endOfFile⟩ :=
  (meets_sourceFile (ready_of_tokens h) (size_le_of_tokens h)).sound

/-- The answer for a source is found with every check. -/
theorem parsesTo_parse (source : String) : ParsesTo source (parse source) := by
  unfold parse
  by_cases hlarge : maxSourceLength < source.utf8ByteSize
  · rw [if_pos hlarge]
    exact .tooLarge hlarge
  have hsize : source.utf8ByteSize ≤ maxSourceLength := Nat.le_of_not_lt hlarge
  have hagrees : Agrees (lex source) (tokens source) _ := lex_agrees (Nat.lt_succ_of_le hsize)
  rw [if_neg hlarge]
  unfold Agrees at hagrees
  split at hagrees
  · next e htokens =>
    rw [htokens]
    exact .rejectedText hsize hagrees
  · next ts htokens =>
    obtain ⟨ls, hlex, hstands⟩ := hagrees
    have hmirrors := mirrors_sourceFile (assembled_level _) (shows_of_tokens hstands htokens)
      (sound_sourceFile htokens)
    rw [htokens]
    dsimp only [bind, Except.bind]
    cases hrun : (sourceFile (level (depthFor source.utf8ByteSize))).run
      ⟨0, ts.pending, ts.endOfFile⟩ with
    | error e => exact .rejectedTokens hsize hlex ((mirrors_error hrun).mp hmirrors)
    | ok p =>
      obtain ⟨es, s⟩ := p
      obtain ⟨items, -, rfl⟩ := run_sourceFile hrun
      obtain ⟨v, hexec, -⟩ := (mirrors_ok hrun).mp hmirrors
      exact .tree hsize hlex hexec

/-- A source is rejected for a cause that lies in it. -/
theorem isGenuine_parse {source : String} {e : ParseError} (h : parse source = .error e) :
    e.IsGenuine := by
  unfold parse at h
  split_ifs at h
  · cases h
    exact ⟨nofun, nofun⟩
  · rcases Except.bind_eq_error.mp h with h | ⟨ts, htokens, h⟩
    · exact isGenuine_tokens h
    · dsimp only at h
      split at h
      · next hrun =>
        cases h
        exact sound_sourceFile htokens _ hrun
      · cases h

/-- **Every source is read or rejected**: the reader comes to its end on a source of any kind, with
a tree or with a cause that lies in the source, and no check fails on the way. -/
theorem parse_total (source : String) : ParsesSafely source where
  isGenuine _ h := isGenuine_parse h
  checked := parsesTo_parse source
  lossless _ h := fullText_parse h
  piece_takes _ _ _ _ h := ⟨(triviaPiece?_pos h).1, triviaPiece?_le h⟩
  token_takes _ _ _ _ _ _ h := ⟨token_pos _ _ _ _ h, token_le h⟩
  production_takes p s hs hsize hstart := by
    have hrank := p.rank_le s
    refine reads_nonterminal _ hs p hstart ?_
    unfold depthFor
    omega
  looksSafely _ _ h := h.looksSafely

end SwiftTidy
