import SwiftTidy.Proofs.Parse.Pieces

/-!
# Texts without some of their empty lines

`Trivia.Thins b s t` says that `t` is `s` without some lines that hold nothing but blanks; a line starts
behind a line break, and at the front of `s` where `b` says so.  What is left is cut off again in the
same pieces, except where a lone CR has come to stand in front of a lone LF: the two are one line break
then (`CutsOff.thins`, `CutsOff.breaksApart`).

Where lines of blanks are left out in front of the tokens of a text, the text is cut into the same
tokens again (`tokens_of_thinned`).  A token, and the trivia behind it, is told by what it starts with
and by how the text behind it starts (`token_congr`, `CutsOff.congr`), and that stays the same: in
front of every token but the first one the first piece of the trivia is kept.
-/

namespace SwiftTidy

namespace Trivia

/-- The second run is the first without some lines of blanks.  The flag says whether a line starts
at the front. -/
inductive Thins : Bool → Trivia → Trivia → Prop where
  | nil {b : Bool} : Thins b [] []
  | keep {b : Bool} {p : TriviaPiece} {s t : Trivia} (h : Thins p.isNewline s t) :
      Thins b (p :: s) (p :: t)
  | drop {line : Trivia} {p : TriviaPiece} {s t : Trivia} (hline : line.isWhitespaceOnly = true)
      (hp : p.isNewline = true) (h : Thins true s t) : Thins true (line ++ p :: s) t

/-- No lone CR stands directly in front of a lone LF. -/
def BreaksApart (t : Trivia) : Prop := t.IsChain fun p q => ¬ (p.text = "\r" ∧ q.text = "\n")

instance (t : Trivia) : Decidable t.BreaksApart :=
  inferInstanceAs (Decidable (t.IsChain _))

namespace Thins

variable {b : Bool} {s t : Trivia}

theorem refl (b : Bool) (t : Trivia) : Thins b t t := by
  induction t generalizing b with
  | nil => exact .nil
  | cons p t ih => exact .keep (ih _)

theorem isEmpty_eq (h : Thins false s t) : t.isEmpty = s.isEmpty := by
  cases h with
  | nil => rfl
  | keep _ => rfl

theorem containsNewline_eq (h : Thins b s t) (hb : b = false) :
    t.containsNewline = s.containsNewline := by
  induction h with
  | nil => rfl
  | @keep _ p s t h ih =>
    cases hp : p.isNewline with
    | true => simp [containsNewline, hp]
    | false =>
      have hrest := ih hp
      unfold containsNewline at hrest ⊢
      rw [List.any_cons, List.any_cons, hrest]
  | drop => cases hb

theorem len_le (h : Thins b s t) : t.len ≤ s.len := by
  induction h with
  | nil => exact Nat.le_refl _
  | keep _ ih =>
    rw [len_cons, len_cons]
    omega
  | drop _ _ _ ih =>
    rw [len_append, len_cons]
    omega

end Thins

end Trivia

namespace Lexer

open Trivia

variable {rest rest' : List Char} {b : Bool} {s t : Trivia}

/-! ### Line breaks -/

/-- A line break is cut off in front of any other text, unless LF comes to stand behind CR. -/
theorem triviaPiece?_newline {trailing : Bool} {c : Char} {w : List Char}
    (h : triviaPiece? trailing (c :: (w ++ rest)) = .ok (some (.newline, w.length + 1)))
    (hrest : c = '\r' → w = [] → rest'.head? ≠ some '\n') :
    triviaPiece? trailing (c :: (w ++ rest')) = .ok (some (.newline, w.length + 1)) := by
  rw [triviaPiece?_cons] at h ⊢
  by_cases hlf : c = '\n'
  · rwa [if_pos hlf] at h ⊢
  rw [if_neg hlf] at h ⊢
  by_cases hcr : c = '\r'
  · rw [if_pos hcr] at h ⊢
    cases w with
    | nil =>
      have hnext : ¬ rest'.head? = some '\n' := hrest hcr rfl
      rw [List.nil_append, if_neg hnext]
      cases trailing with
      | true => cases h
      | false => rfl
    | cons d w => exact h
  rw [if_neg hcr] at h
  have hcomment : ∀ {k : TriviaKind}, k.isComment = true → k ≠ .newline := ne_newline_of_isComment
  split_ifs at h with hline hblock hblank
  · exact absurd (Prod.mk.inj (Option.some.inj (Except.ok.inj h))).1
      (hcomment (isComment_lineCommentKind _))
  · split at h
    · exact absurd (Prod.mk.inj (Option.some.inj (Except.ok.inj h))).1
        (hcomment (isComment_blockCommentKind _))
    · cases h
  · cases h
  · cases h

/-- What is cut off in front of LF is LF. -/
theorem text_of_head?_eq {p : TriviaPiece}
    (hpiece : triviaPiece? false (p.text.toList ++ rest) = .ok (some (p.kind, p.text.toList.length)))
    (hhead : (p.text.toList ++ rest).head? = some '\n') : p.text = "\n" := by
  obtain ⟨tail, htail⟩ := List.head?_eq_some_iff.mp hhead
  rw [htail] at hpiece
  have hlength : 1 = p.text.toList.length :=
    congrArg Prod.snd (Option.some.inj (Except.ok.inj hpiece))
  obtain ⟨d, hd⟩ := List.length_eq_one_iff.mp hlength.symm
  rw [hd] at htail
  obtain ⟨rfl, -⟩ := List.cons.inj htail
  rw [← String.toList_inj, hd]
  rfl

/-- Behind CR that is a line break by itself, trivia does not start with LF. -/
theorem head?_ne_of_breaksApart {p : TriviaPiece} (h : CutsOff false rest t)
    (hapart : BreaksApart (p :: t)) (hp : p.text = "\r") :
    ((Trivia.text t).toList ++ rest).head? ≠ some '\n' := by
  intro hhead
  cases h with
  | done hrest =>
    obtain ⟨tail, rfl⟩ := List.head?_eq_some_iff.mp hhead
    cases hrest
  | @piece q t hpiece ht =>
    rw [Trivia.toList_text_cons, List.append_assoc] at hhead
    have hq := text_of_head?_eq hpiece hhead
    exact (List.isChain_cons_cons.mp hapart).1 ⟨hp, hq⟩

/-! ### Pieces that are left -/

/-- Trivia that is cut off has no lone CR in front of a lone LF. -/
theorem CutsOff.breaksApart (h : CutsOff false rest t) : BreaksApart t := by
  induction h with
  | done => exact .nil
  | @piece p t hpiece ht ih =>
    cases ht with
    | done => exact .singleton p
    | @piece q t _ _ =>
      refine .cons_cons ?_ ih
      rintro ⟨hp, hq⟩
      rw [Trivia.toList_text_cons, hp, hq] at hpiece
      have hlength : 2 = 1 := congrArg Prod.snd (Option.some.inj (Except.ok.inj hpiece))
      cases hlength

/-- The texts behind a piece that is not a line break start with the same character. -/
theorem head?_text_eq (h : CutsOff false rest s) (hthins : Thins false s t)
    (hhead : rest.head? = rest'.head?) :
    ((Trivia.text s).toList ++ rest).head? = ((Trivia.text t).toList ++ rest').head? := by
  cases hthins with
  | nil => exact hhead
  | @keep _ p s t _ =>
    cases h with
    | piece hpiece _ =>
      have hpos := (triviaPiece?_pos hpiece).1
      rw [Trivia.toList_text_cons, Trivia.toList_text_cons]
      cases hp : p.text.toList with
      | nil =>
        rw [hp] at hpos
        cases hpos
      | cons c w => rfl

/-- **What is left is cut off again**: the pieces that are not dropped are cut off one by one in front
of a text that starts alike, if no line break has come to stand in front of another one that it takes
in. -/
theorem CutsOff.thins (h : CutsOff false rest s) (hthins : Thins b s t) (hapart : BreaksApart t)
    (halike : StartsAlike rest rest') : CutsOff false rest' t := by
  induction hthins with
  | nil => exact h.congr halike
  | @keep _ p s t hrest ih =>
    cases h with
    | piece hpiece hs =>
      have hleft := ih hs hapart.of_cons
      refine .piece ?_ hleft
      have hpos := (triviaPiece?_pos hpiece).1
      cases hp : p.text.toList with
      | nil =>
        rw [hp] at hpos
        cases hpos
      | cons c w =>
        rw [hp] at hpiece
        cases hnewline : p.isNewline with
        | false =>
          rw [hnewline] at hrest
          exact triviaPiece?_congr (head?_text_eq hs hrest halike.head?_eq) hpiece
        | true =>
          have hkind : p.kind = .newline := eq_of_beq hnewline
          rw [hkind] at hpiece ⊢
          refine triviaPiece?_newline hpiece ?_
          intro hc hw
          have hcr : p.text = "\r" := by
            rw [← String.toList_inj, hp, hc, hw]
            rfl
          exact head?_ne_of_breaksApart hleft hapart hcr
  | @drop line p s t hline hp hrest ih =>
    refine ih ?_ hapart
    -- the pieces of the line go first
    have hskip : ∀ s₁ s₂ : Trivia, CutsOff false rest (s₁ ++ s₂) → CutsOff false rest s₂ := by
      intro s₁ s₂ hcuts
      induction s₁ with
      | nil => exact hcuts
      | cons q s₁ ih =>
        cases hcuts with
        | piece _ hcuts => exact ih hcuts
    cases hskip line (p :: s) h with
    | piece _ hs => exact hs

end Lexer

namespace Token

/-- A token with some lines of blanks left out in front of it.  The flag says whether a line starts
in front of it. -/
structure Thinned (b : Bool) (t u : Token) : Prop where
  kind : u.kind = t.kind
  text : u.text = t.text
  trailing : u.trailing = t.trailing
  leading : Trivia.Thins b t.leading u.leading
  apart : Trivia.BreaksApart u.leading

theorem Thinned.eq {b : Bool} {t u : Token} (h : t.Thinned b u) :
    u = { t with leading := u.leading } := by
  obtain ⟨kind, text, leading, trailing⟩ := u
  obtain ⟨rfl, rfl, rfl⟩ : kind = t.kind ∧ text = t.text ∧ trailing = t.trailing :=
    ⟨h.kind, h.text, h.trailing⟩
  rfl

/-- A token ends as it did. -/
theorem Thinned.sameEnd {b : Bool} {t u : Token} (h : t.Thinned b u) :
    (some u).map (fun t => (t.text, t.trailing)) = (some t).map fun t => (t.text, t.trailing) := by
  rw [Option.map_some, Option.map_some, h.text, h.trailing]

/-- Tokens with some lines of blanks left out in front of them. -/
inductive AllThinned : Bool → List Token → List Token → Prop where
  | nil {b : Bool} : AllThinned b [] []
  | cons {b : Bool} {t u : Token} {ts us : List Token} (h : t.Thinned b u)
      (hrest : AllThinned false ts us) : AllThinned b (t :: ts) (u :: us)

theorem AllThinned.length_eq {b : Bool} {ts us : List Token} (h : AllThinned b ts us) :
    us.length = ts.length := by
  induction h with
  | nil => rfl
  | cons _ _ ih => rw [List.length_cons, List.length_cons, ih]

end Token

namespace Lexer

open Token Trivia

variable {x rest rest' : List Char} {b : Bool}

/-! ### Operators that end in a slash -/

/-- A run of operator characters ends in front of a comment. -/
theorem startsComment_of_operatorRunLength (h : operatorRunLength (x ++ rest) = x.length)
    (hlast : x.getLast? = some '/') : startsComment ('/' :: rest) = false := by
  induction x with
  | nil => cases hlast
  | cons c x ih =>
    rw [List.cons_append, operatorRunLength] at h
    split_ifs at h with hend
    rw [Bool.or_eq_true, not_or] at hend
    cases x with
    | nil =>
      obtain rfl : c = '/' := Option.some.inj hlast
      exact Bool.eq_false_iff.mpr hend.1
    | cons d x =>
      rw [List.getLast?_cons_cons] at hlast
      exact ih (Nat.succ.inj h) hlast

/-- A range operator ends in a point or in `<`. -/
theorem getLast?_ne_of_rangeOperatorLength (h : rangeOperatorLength (x ++ rest) = x.length) :
    x.getLast? ≠ some '/' := by
  induction x with
  | nil => nofun
  | cons c x ih =>
    intro hlast
    by_cases hc : c = '.'
    · rw [hc, List.cons_append, rangeOperatorLength_point] at h
      cases x with
      | nil =>
        rw [hc] at hlast
        cases hlast
      | cons d x =>
        rw [List.getLast?_cons_cons] at hlast
        exact ih (Nat.succ.inj h) hlast
    · rw [List.cons_append, rangeOperatorLength_eq (by simpa using hc)] at h
      split_ifs at h with hangle
      have hx : x = [] := List.length_eq_zero_iff.mp (Nat.succ.inj h).symm
      have hless : c = '<' := by simpa using hangle
      rw [hx, hless] at hlast
      cases hlast

/-- A comment does not start at the end of a token. -/
theorem startsComment_of_token {fuel : Nat} {leftBound : Bool} {c : Char} {kind : SyntaxKind}
    (h : token fuel leftBound (c :: (x ++ rest)) = .ok (kind, x.length + 1))
    (hstart : startsOperator c = true) (hlast : x.getLast? = some '/') :
    startsComment ('/' :: rest) = false := by
  have hlength : x.length + 1 ≠ 1 := by
    intro h
    rw [List.length_eq_zero_iff.mp (Nat.succ.inj h)] at hlast
    cases hlast
  rw [token_of_startsOperator hstart] at h
  split_ifs at h with hperiod hpoint
  · exact absurd (congrArg Prod.snd (Except.ok.inj h)).symm hlength
  · have hrun : rangeOperatorLength ((c :: x) ++ rest) = (c :: x).length :=
      congrArg Prod.snd (Except.ok.inj h)
    refine absurd ?_ (getLast?_ne_of_rangeOperatorLength hrun)
    rw [List.getLast?_cons, hlast]
    rfl
  · have hrun : operatorLength leftBound (c :: (x ++ rest)) = x.length + 1 :=
      congrArg Prod.snd (Except.ok.inj h)
    rw [operatorLength] at hrun
    split_ifs at hrun with hmark
    · exact absurd hrun.symm hlength
    · exact startsComment_of_operatorRunLength (Nat.succ.inj hrun) hlast

/-- **The front decides**: a token is cut off the same in front of a text that starts alike. -/
theorem token_of_startsAlike {fuel fuel' : Nat} {leftBound : Bool} {c : Char} {kind : SyntaxKind}
    (halike : StartsAlike rest rest') (hfuel : x.length + 1 < fuel')
    (h : token fuel leftBound (c :: (x ++ rest)) = .ok (kind, x.length + 1)) :
    token fuel' leftBound (c :: (x ++ rest')) = .ok (kind, x.length + 1) := by
  refine token_congr halike.looksLike (fun _ => halike.isRightBound_eq) ?_ hfuel h
  intro hstart hlast
  have hcomment := startsComment_of_token h hstart hlast
  rw [startsComment_cons] at hcomment ⊢
  rwa [← halike.head?_eq]

/-! ### Texts of thinned tokens -/

/-- What is cut off first is the same where a text goes on with trivia of which the first piece is
kept. -/
theorem startsAlike_leading {s t : Trivia} (h : CutsOff false rest s) (hthins : Thins false s t)
    (hnone : triviaPiece? true ((Trivia.text s).toList ++ rest) = .ok none)
    (halike : StartsAlike rest rest') :
    StartsAlike ((Trivia.text s).toList ++ rest) ((Trivia.text t).toList ++ rest') := by
  cases hthins with
  | nil => exact halike
  | @keep _ p s t _ =>
    cases h with
    | piece hpiece _ =>
      have hpos := (triviaPiece?_pos hpiece).1
      rw [Trivia.toList_text_cons, List.append_assoc] at hnone
      rw [Trivia.toList_text_cons, Trivia.toList_text_cons, List.append_assoc, List.append_assoc]
      cases hp : p.text.toList with
      | nil =>
        rw [hp] at hpos
        cases hpos
      | cons c w =>
        -- behind the trivia on its line a token has a line break, or nothing
        rw [hp, List.cons_append] at hpiece hnone
        have hend : isLineEnd c = true := by
          by_contra hend
          rw [triviaPiece?_eq_none_iff, if_neg hend] at hnone
          have hnone' : triviaPiece? false (c :: (w ++ ((Trivia.text s).toList ++ rest))) =
              .ok none := by
            rw [triviaPiece?_eq_none_iff, if_neg hend]
            exact hnone
          rw [hpiece] at hnone'
          cases hnone'
        have hslash : c ≠ '/' := by
          rintro rfl
          exact absurd hend (by decide)
        have hcomment : ∀ cs, startsComment (c :: cs) = false := by
          intro cs
          rw [startsComment_cons, beq_eq_false_iff_ne.mpr hslash, Bool.false_and]
        have hbreak : ∀ cs, isBreak (c :: cs) = true := by
          intro cs
          simp [isBreak, hend]
        rw [List.cons_append, List.cons_append]
        exact ⟨rfl, by rw [hcomment, hcomment], .breaks (hbreak _) (hbreak _)⟩

/-- One step of the cutting, put together from its parts. -/
theorem tokensFrom_eq {fuel n : Nat} (pos : Nat) {previous : Option Token}
    {leading trailing leading' : Trivia} {c : Char} {cs : List Char} {kind : SyntaxKind} {us : Tokens}
    (htoken : token (fuel + 1) (isLeftBound previous leading) (c :: cs) = .ok (kind, n))
    (htrailing : ∀ p, trivia true fuel p ((c :: cs).drop n) = .ok (trailing, rest))
    (hleading : ∀ p, trivia false fuel p rest = .ok (leading', rest'))
    (hus : ∀ p, tokensFrom fuel (some ⟨kind, front n (c :: cs), leading, trailing⟩) leading' p rest' =
      .ok us) :
    tokensFrom (fuel + 1) previous leading pos (c :: cs) =
      .ok ⟨⟨kind, front n (c :: cs), leading, trailing⟩ :: us.pending, us.endOfFile⟩ := by
  rw [tokensFrom, htoken]
  simp only [htrailing, hleading, hus, bind, Except.bind, pure, Except.pure]

/-- All tokens, that of the end of the file among them. -/
def Tokens.all (ts : Tokens) : List Token := ts.pending ++ [ts.endOfFile]

/-- A token is bound to the left alike behind a token that ends alike. -/
theorem isLeftBound_eq {previous previous' : Option Token} {s t : Trivia}
    (hprevious : previous'.map (fun t => (t.text, t.trailing)) =
      previous.map fun t => (t.text, t.trailing))
    (hempty : previous ≠ none → t.isEmpty = s.isEmpty) :
    isLeftBound previous' t = isLeftBound previous s := by
  cases previous with
  | none =>
    obtain rfl : previous' = none := Option.map_eq_none_iff.mp hprevious
    rfl
  | some p =>
    obtain ⟨p', rfl, hp⟩ := Option.map_eq_some_iff.mp hprevious
    obtain ⟨htext, htrailing⟩ := Prod.mk.inj hp
    rw [isLeftBound, isLeftBound, hempty (Option.some_ne_none p), htext, htrailing]

/-- The end of the file by itself. -/
theorem exists_of_all_singleton {t : Token} {vs : Tokens} (h : AllThinned b [t] vs.all) :
    ∃ v, vs = ⟨[], v⟩ ∧ t.Thinned b v := by
  obtain ⟨pending, v⟩ := vs
  cases pending with
  | nil =>
    cases h with
    | cons hv _ => exact ⟨v, rfl, hv⟩
  | cons u pending =>
    cases h with
    | cons _ hrest =>
      have hlength := hrest.length_eq
      simp at hlength

/-- A token in front of others. -/
theorem exists_of_all_cons {t : Token} {us vs : Tokens}
    (h : AllThinned b (Tokens.all ⟨t :: us.pending, us.endOfFile⟩) vs.all) :
    ∃ v ws, vs = ⟨v :: Tokens.pending ws, ws.endOfFile⟩ ∧ t.Thinned b v ∧
      AllThinned false us.all ws.all := by
  obtain ⟨pending, e⟩ := vs
  cases pending with
  | nil =>
    cases h with
    | cons _ hrest =>
      have hlength := hrest.length_eq
      simp at hlength
  | cons v pending =>
    cases h with
    | cons hv hrest => exact ⟨v, ⟨pending, e⟩, rfl, hv, hrest⟩

/-- **The loop**: behind the trivia in front of its first token, a text of tokens with lines left out in
front of them starts as it did, and is cut into these tokens. -/
theorem exists_tokensFrom {fuel pos : Nat} {previous previous' : Option Token} {leading : Trivia}
    {cs : List Char} {ts vs : Tokens} (h : tokensFrom fuel previous leading pos cs = .ok ts)
    (hfuel : cs.length < fuel)
    (hprevious : previous'.map (fun t => (t.text, t.trailing)) =
      previous.map fun t => (t.text, t.trailing))
    (hb : b = true → previous = none) (hthinned : AllThinned b ts.all vs.all) :
    ∃ leading' cs', Token.spell vs.all = (Trivia.text leading').toList ++ cs' ∧
      Thins b leading leading' ∧ BreaksApart leading' ∧ StartsAlike cs cs' ∧
      ∀ fuel' pos', cs'.length < fuel' → tokensFrom fuel' previous' leading' pos' cs' = .ok vs := by
  induction fuel generalizing pos previous previous' leading cs ts vs b with
  | zero => cases h
  | succ fuel ih =>
    cases cs with
    | nil =>
      cases h
      obtain ⟨v, rfl, hv⟩ := exists_of_all_singleton hthinned
      refine ⟨v.leading, [], ?_, hv.leading, hv.apart, .nil, fun fuel' pos' hfuel' => ?_⟩
      · rw [Tokens.all, List.nil_append, Token.spell_cons, Token.spell_nil, Token.toList_fullText,
          hv.text, hv.trailing]
        simp
      · obtain ⟨fuel', rfl⟩ := Nat.exists_eq_succ_of_ne_zero (Nat.ne_of_gt hfuel')
        obtain ⟨kind, text, lead, trail⟩ := v
        obtain ⟨rfl, rfl, rfl⟩ : kind = .endOfFile ∧ text = "" ∧ trail = [] :=
          ⟨hv.kind, hv.text, hv.trailing⟩
        rfl
    | cons c cs =>
      obtain ⟨kind, n, trailing, rest, leading₂, rest₂, us, htoken, htrailing, hleading, hus, rfl⟩ :=
        tokensFrom_cons h
      obtain ⟨v, ws, rfl, hv, hws⟩ := exists_of_all_cons hthinned
      -- the lexeme, the trivia behind it and the trivia in front of the next token
      have hpos := token_pos _ _ _ _ htoken
      have hle := token_le htoken
      obtain ⟨n, rfl⟩ := Nat.exists_eq_succ_of_ne_zero (Nat.ne_of_gt hpos)
      obtain ⟨x, y, rfl, hx⟩ : ∃ x y, cs = x ++ y ∧ x.length = n :=
        ⟨cs.take n, cs.drop n, (List.take_append_drop n cs).symm,
          List.length_take_of_le (Nat.le_of_succ_le_succ hle)⟩
      have hdrop : ∀ y, (c :: (x ++ y)).drop (n + 1) = y := by
        intro y
        rw [List.drop_succ_cons, ← hx, List.drop_left]
      have hfront : ∀ y, front (n + 1) (c :: (x ++ y)) = String.ofList (c :: x) := by
        intro y
        rw [front, List.take_succ_cons, ← hx, List.take_left]
      rw [hdrop] at htrailing
      rw [hfront] at hus hv
      obtain rfl := toList_trivia _ _ _ _ htrailing
      obtain rfl := toList_trivia _ _ _ _ hleading
      simp only [List.length_cons, List.length_append] at hfuel
      have hcuts := cutsOff_of_trivia (by simp only [List.length_append]; omega) htrailing
      have hcuts₂ := cutsOff_of_trivia (by simp only [List.length_append]; omega) hleading
      -- what is behind the next token
      obtain ⟨leading₃, rest₃, hws', hthins, hapart, halike, hlex⟩ :=
        ih (b := false) hus (by omega) hv.sameEnd (fun h => by cases h) hws
      have hstart := startsAlike_leading hcuts₂ hthins hcuts.triviaPiece?_rest halike
      have hall := hstart.append_left (Trivia.text trailing).toList
      refine ⟨v.leading, c :: (x ++ ((Trivia.text trailing).toList ++
        ((Trivia.text leading₃).toList ++ rest₃))), ?_, hv.leading, hv.apart,
        hall.append_left (c :: x), fun fuel' pos' hfuel' => ?_⟩
      · rw [Tokens.all, List.cons_append, Token.spell_cons, ← Tokens.all, hws', Token.toList_fullText,
          hv.text, hv.trailing, String.toList_ofList]
        simp only [List.append_assoc, List.cons_append]
      · obtain ⟨fuel', rfl⟩ := Nat.exists_eq_succ_of_ne_zero (Nat.ne_zero_of_lt hfuel')
        simp only [List.length_cons, List.length_append] at hfuel'
        have hbound : isLeftBound previous' v.leading = isLeftBound previous leading := by
          refine isLeftBound_eq hprevious fun hne => ?_
          cases b with
          | true => exact absurd (hb rfl) hne
          | false => exact hv.leading.isEmpty_eq
        rw [← hbound, ← hx] at htoken
        have htoken' : token (fuel' + 1) (isLeftBound previous' v.leading) (c :: (x ++
            ((Trivia.text trailing).toList ++ ((Trivia.text leading₃).toList ++ rest₃)))) =
            .ok (kind, x.length + 1) := token_of_startsAlike hall (by omega) htoken
        have htrailing' : ∀ p, trivia true fuel' p ((Trivia.text trailing).toList ++
            ((Trivia.text leading₃).toList ++ rest₃)) = .ok (trailing, _) := fun p =>
          (hcuts.congr hstart).trivia_eq p (by simp only [List.length_append]; omega)
        have hleading' : ∀ p, trivia false fuel' p ((Trivia.text leading₃).toList ++ rest₃) =
            .ok (leading₃, rest₃) := fun p =>
          (hcuts₂.thins hthins hapart halike).trivia_eq p (by simp only [List.length_append]; omega)
        have hv' : (⟨kind, String.ofList (c :: x), v.leading, trailing⟩ : Token) = v := hv.eq.symm
        rw [hx] at htoken'
        have hstep := tokensFrom_eq pos' htoken' (fun p => by rw [hdrop, htrailing']) hleading'
          fun p => by rw [hfront, hv']; exact hlex fuel' p (by omega)
        rwa [hfront, hv'] at hstep

/-! ### The start of the file -/

/-- Trivia does not start with `#`. -/
theorem head?_ne_hash {p : TriviaPiece}
    (hpiece : triviaPiece? false (p.text.toList ++ rest) = .ok (some (p.kind, p.text.toList.length))) :
    (p.text.toList ++ rest).head? ≠ some '#' := by
  intro hhead
  obtain ⟨tail, htail⟩ := List.head?_eq_some_iff.mp hhead
  rw [htail] at hpiece
  have hnone : triviaPiece? false ('#' :: tail) = .ok none := by
    rw [triviaPiece?_eq_none_iff, if_neg (by decide), startsComment_cons]
    exact ⟨rfl, rfl⟩
  rw [hpiece] at hnone
  cases hnone

/-- No token starts with `#!`. -/
theorem token_interpreter (fuel : Nat) (leftBound : Bool) (cs : List Char) :
    token fuel leftBound ('#' :: '!' :: cs) = .error ⟨.poundWithoutName, 0⟩ := by
  rw [token, rawHashes?_hash, rawHashes?_cons (by decide)]
  rfl

/-- Where no interpreter is named, none comes to be named. -/
theorem interpreterLine_of_startsAlike {fuel pos : Nat} {previous : Option Token} {leading : Trivia}
    {ts : Tokens} (h : tokensFrom fuel previous leading pos rest = .ok ts)
    (halike : StartsAlike rest rest') : (interpreterLine rest') = ([], rest') := by
  unfold interpreterLine
  split
  · next cs' =>
    obtain ⟨cs, rfl⟩ := List.head?_eq_some_iff.mp (halike.head?_eq.trans rfl)
    cases halike.looksLike with
    | breaks hbreak _ =>
      rw [isBreak, startsComment_cons] at hbreak
      cases hbreak
    | cons _ hnext _ =>
      obtain ⟨cs, rfl⟩ := List.head?_eq_some_iff.mp
        ((hnext.head?_iff (d := '!') (by decide)).mpr rfl)
      cases fuel with
      | zero => cases h
      | succ fuel =>
        rw [tokensFrom, token_interpreter] at h
        cases h
  · rfl

/-- Either no interpreter is named, or the first line is cut off. -/
theorem interpreterLine_cases (cs : List Char) :
    interpreterLine cs = ([], cs) ∨
    ∃ w rest, cs = '#' :: '!' :: (w ++ rest) ∧ lineLength (w ++ rest) = w.length ∧
      interpreterLine cs = ([⟨.lineComment, String.ofList ('#' :: '!' :: w)⟩], rest) := by
  unfold interpreterLine
  split
  · next cs =>
    have hle : lineLength cs ≤ cs.length := (List.takeWhile_prefix _).length_le
    refine .inr ⟨cs.take (lineLength cs), cs.drop (lineLength cs), ?_, ?_, ?_⟩
    · rw [List.take_append_drop]
    · rw [List.take_append_drop, List.length_take_of_le hle]
    · rfl
  · exact .inl rfl

theorem interpreterLine_of_head?_ne {cs : List Char} (h : cs.head? ≠ some '#') :
    interpreterLine cs = ([], cs) := by
  unfold interpreterLine
  split
  · exact absurd rfl h
  · rfl

/-- The line that names an interpreter is cut off in front of the same next character. -/
theorem interpreterLine_eq {w : List Char} (hhead : rest.head? = rest'.head?)
    (hlength : lineLength (w ++ rest) = w.length) :
    interpreterLine ('#' :: '!' :: (w ++ rest')) =
      ([⟨.lineComment, String.ofList ('#' :: '!' :: w)⟩], rest') := by
  have hlength' : lineLength (w ++ rest') = w.length := by
    unfold lineLength at hlength ⊢
    rw [length_takeWhile_append_iff] at hlength ⊢
    rwa [← hhead]
  rw [interpreterLine, hlength', List.drop_left, front, List.take_succ_cons, List.take_succ_cons,
    List.take_left]

/-- A line that is left out starts with a blank or a line break. -/
theorem thins_comment {p : TriviaPiece} {s t : Trivia} (h : Thins b (p :: s) t)
    (hp : p.kind = .lineComment) : ∃ t', t = p :: t' ∧ Thins false s t' := by
  have hnewline : p.isNewline = false := by
    rw [TriviaPiece.isNewline, hp]
    rfl
  generalize hs : p :: s = s' at h
  cases h with
  | nil => cases hs
  | @keep _ q s₁ t h =>
    obtain ⟨rfl, rfl⟩ := List.cons.inj hs
    rw [hnewline] at h
    exact ⟨t, rfl, h⟩
  | @drop line q s₁ _ hline hq h =>
    cases line with
    | nil =>
      obtain ⟨rfl, -⟩ := List.cons.inj hs
      rw [hnewline] at hq
      cases hq
    | cons r line =>
      obtain ⟨rfl, -⟩ := List.cons.inj hs
      rw [isWhitespaceOnly, List.all_cons, TriviaPiece.isWhitespace, hp] at hline
      cases hline

/-- A source is cut into what is cut off behind its interpreter line and the trivia that follows. -/
theorem tokens_of_line {source : String} {line t : Trivia} {cs : List Char} {ts : Tokens}
    (hline : interpreterLine source.toList = (line, (Trivia.text t).toList ++ cs))
    (hcuts : CutsOff false cs t)
    (hlex : ∀ fuel pos, cs.length < fuel → tokensFrom fuel none (line ++ t) pos cs = .ok ts) :
    tokens source = .ok ts := by
  have hspell := congrArg List.length (toList_interpreterLine source.toList)
  rw [hline, List.length_append] at hspell
  dsimp only at hspell
  have htrivia : trivia false source.toList.length (Trivia.len line) ((Trivia.text t).toList ++ cs) =
      .ok (t, cs) := hcuts.trivia_eq _ (by omega)
  rw [List.length_append] at hspell
  have hfrom := hlex (source.toList.length + 1) (Trivia.len (line ++ t)) (by omega)
  rw [tokens, hline]
  simp only [htrivia, hfrom, bind, Except.bind]

/-- A text that starts with what is left of the front of another one, and goes on like it, is cut into
the tokens that are cut off behind that. -/
theorem tokens_of_front {source source' : String} {fuel pos : Nat} {leading leading' t : Trivia}
    {rest cs' : List Char} {ts vs : Tokens}
    (htrivia : trivia false source.toList.length (Trivia.len (interpreterLine source.toList).1)
      (interpreterLine source.toList).2 = .ok (t, rest))
    (hleading : leading = (interpreterLine source.toList).1 ++ t)
    (hfrom : tokensFrom fuel none leading pos rest = .ok ts) (hthins : Thins true leading leading')
    (hapart : BreaksApart leading') (halike : StartsAlike rest cs')
    (hlex : ∀ fuel' pos', cs'.length < fuel' → tokensFrom fuel' none leading' pos' cs' = .ok vs)
    (hsource : source'.toList = (Trivia.text leading').toList ++ cs') : tokens source' = .ok vs := by
  have hcuts : CutsOff false rest t := by
    refine cutsOff_of_trivia ?_ htrivia
    have hspell := congrArg List.length (toList_interpreterLine source.toList)
    rw [List.length_append] at hspell
    omega
  rcases interpreterLine_cases source.toList with hline | ⟨w, rest₀, hcs, hw, hline⟩
  · rw [hleading, hline] at hthins
    have hcuts' : CutsOff false cs' leading' := hcuts.thins hthins hapart halike
    have hline' : interpreterLine source'.toList = ([], (Trivia.text leading').toList ++ cs') := by
      rw [hsource]
      cases hcuts' with
      | done => exact interpreterLine_of_startsAlike hfrom halike
      | @piece p t' hpiece _ =>
        rw [Trivia.toList_text_cons, List.append_assoc]
        exact interpreterLine_of_head?_ne (head?_ne_hash hpiece)
    exact tokens_of_line hline' hcuts' hlex
  · rw [hleading, hline] at hthins
    obtain ⟨t', rfl, hthins'⟩ := thins_comment hthins rfl
    have hcuts' : CutsOff false cs' t' := hcuts.thins hthins' hapart.of_cons halike
    have hrest : (Trivia.text t).toList ++ rest = rest₀ := by
      rw [hline] at htrivia
      exact toList_trivia _ _ _ _ htrivia
    have hhead : rest₀.head? = ((Trivia.text t').toList ++ cs').head? := by
      rw [← hrest]
      exact head?_text_eq hcuts hthins' halike.head?_eq
    rw [Trivia.toList_text_cons, String.toList_ofList, List.append_assoc] at hsource
    have hline' := interpreterLine_eq hhead hw
    rw [← List.cons_append, ← List.cons_append, ← hsource] at hline'
    exact tokens_of_line hline' hcuts' hlex

/-- **Lines left out**: a text of tokens with some lines of blanks left out in front of them is cut into
these tokens, if no lone CR has come to stand in front of a lone LF. -/
theorem tokens_of_thinned {source source' : String} {ts vs : Tokens} (h : tokens source = .ok ts)
    (hthinned : AllThinned true ts.all vs.all) (hsource : source'.toList = Token.spell vs.all) :
    tokens source' = .ok vs := by
  obtain ⟨line, t, rest, rfl, htrivia, hfrom⟩ := tokens_eq_ok h
  have hlength : rest.length < source.toList.length + 1 := by
    have hspell := congrArg List.length (toList_interpreterLine source.toList)
    have hspell' := congrArg List.length (toList_trivia _ _ _ _ htrivia)
    rw [List.length_append] at hspell hspell'
    omega
  have hnone : (none : Option Token).map (fun t => (t.text, t.trailing)) =
      (none : Option Token).map fun t => (t.text, t.trailing) := rfl
  obtain ⟨leading', cs', hspell, hthins, hapart, halike, hlex⟩ :=
    exists_tokensFrom hfrom hlength hnone (fun _ => rfl) hthinned
  rw [hspell] at hsource
  exact tokens_of_front htrivia rfl hfrom hthins hapart halike hlex hsource

/-! ### Tokens of a text -/

/-- Tokens that are cut off have no lone CR in front of a lone LF, if there is none in front of the
first one. -/
theorem breaksApart_of_tokensFrom {fuel pos : Nat} {previous : Option Token} {leading : Trivia}
    {cs : List Char} {ts : Tokens} (h : tokensFrom fuel previous leading pos cs = .ok ts)
    (hfuel : cs.length < fuel) (hleading : BreaksApart leading) :
    ∀ t ∈ ts.all, BreaksApart t.leading := by
  induction fuel generalizing pos previous leading cs ts with
  | zero => cases h
  | succ fuel ih =>
    cases cs with
    | nil =>
      cases h
      exact List.forall_mem_singleton.mpr hleading
    | cons c cs =>
      obtain ⟨kind, n, trailing, rest, leading', rest', us, htoken, htrailing, hleading', hus, rfl⟩ :=
        tokensFrom_cons h
      have hpos := token_pos _ _ _ _ htoken
      have hrest := congrArg List.length (toList_trivia _ _ _ _ htrailing)
      have hrest' := congrArg List.length (toList_trivia _ _ _ _ hleading')
      rw [List.length_append, List.length_drop, List.length_cons] at hrest
      rw [List.length_append] at hrest'
      rw [List.length_cons] at hfuel
      have hcuts := cutsOff_of_trivia (by omega) hleading'
      rw [Tokens.all, List.cons_append, List.forall_mem_cons]
      exact ⟨hleading, ih hus (by omega) hcuts.breaksApart⟩

/-- No token has a lone CR in front of a lone LF. -/
theorem breaksApart_of_tokens {source : String} {ts : Tokens} (h : tokens source = .ok ts) :
    ∀ t ∈ ts.all, BreaksApart t.leading := by
  obtain ⟨line, t, rest, rfl, htrivia, hfrom⟩ := tokens_eq_ok h
  have hline := congrArg List.length (toList_interpreterLine source.toList)
  have hrest := congrArg List.length (toList_trivia _ _ _ _ htrivia)
  rw [List.length_append] at hline hrest
  have hcuts := cutsOff_of_trivia (by omega) htrivia
  refine breaksApart_of_tokensFrom hfrom (by omega) ?_
  rcases interpreterLine_cases source.toList with hnone | ⟨w, rest', -, -, hsome⟩
  · rw [hnone]
    exact hcuts.breaksApart
  · -- the line that names an interpreter is no line break
    rw [hsome, List.singleton_append]
    have hapart := hcuts.breaksApart
    cases t with
    | nil => exact .singleton _
    | cons q t =>
      refine .cons_cons (fun hcr => ?_) hapart
      have hw := congrArg String.toList hcr.1
      rw [String.toList_ofList] at hw
      cases hw

end Lexer

end SwiftTidy
