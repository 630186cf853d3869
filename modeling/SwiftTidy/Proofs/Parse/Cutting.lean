import SwiftTidy.Proofs.Parse.Relexing

/-!
# Texts that are cut into tokens

`Cuts previous leading cs ts` says that the text `cs`, with the trivia `leading` in front of it and the
token `previous` in front of that, is cut into the tokens `ts`.  It is what the lexer does
(`cuts_of_tokensFrom`, `Cuts.tokensFrom_eq`), without its fuel and its positions.

Where something is left out between two runs of trivia, they come together: blanks join, and a lone CR
takes a lone LF in.  What is cut off is trivia again, on as many lines (`CutsOff.join`), and so is what
stands in front of its first line break and behind it (`CutsOff.exists_split`).
-/

namespace SwiftTidy

namespace Lexer

open Token Trivia

variable {x rest rest' : List Char} {s t : Trivia}

/-! ### The judgment -/

/-- The text is cut into the tokens; the trivia in front of it is that of the first one. -/
inductive Cuts : Option Token → Trivia → List Char → Tokens → Prop where
  | done {previous : Option Token} {leading : Trivia} :
      Cuts previous leading [] ⟨[], ⟨.endOfFile, "", leading, []⟩⟩
  | token {previous : Option Token} {leading trailing leading' : Trivia} {kind : SyntaxKind} {c : Char}
      {x rest : List Char} {ts : Tokens}
      (htoken : token (x.length + 2) (isLeftBound previous leading)
        (c :: (x ++ ((Trivia.text trailing).toList ++ ((Trivia.text leading').toList ++ rest)))) =
          .ok (kind, x.length + 1))
      (htrailing : CutsOff true ((Trivia.text leading').toList ++ rest) trailing)
      (hleading : CutsOff false rest leading')
      (hrest : Cuts (some ⟨kind, String.ofList (c :: x), leading, trailing⟩) leading' rest ts) :
      Cuts previous leading
        (c :: (x ++ ((Trivia.text trailing).toList ++ ((Trivia.text leading').toList ++ rest))))
        ⟨⟨kind, String.ofList (c :: x), leading, trailing⟩ :: ts.pending, ts.endOfFile⟩

/-- A text starts like itself. -/
theorem StartsAlike.refl (cs : List Char) : StartsAlike cs cs := by
  have h := StartsAlike.nil.append_left cs
  rwa [List.append_nil] at h

/-- A lexeme that ends in front of two texts starts alike with them. -/
theorem startsAlike_of_isBreak {c : Char} (h : isBreak rest = true) (h' : isBreak rest' = true)
    (hcomment : c = '/' → x = [] → startsComment ('/' :: rest) = startsComment ('/' :: rest')) :
    StartsAlike (c :: (x ++ rest)) (c :: (x ++ rest')) := by
  have hsame : startsComment (c :: (x ++ rest)) = startsComment (c :: (x ++ rest')) := by
    cases x with
    | cons d x =>
      rw [startsComment_cons, startsComment_cons]
      rfl
    | nil =>
      by_cases hc : c = '/'
      · rw [hc]
        exact hcomment hc rfl
      · rw [startsComment_cons, startsComment_cons, beq_eq_false_iff_ne.mpr hc, Bool.false_and,
          Bool.false_and]
  exact ⟨rfl, hsame, .cons c (SameNext.append_left x (.inr ⟨h, h'⟩)) hsame⟩

/-- What the lexer finds. -/
theorem cuts_of_tokensFrom {fuel pos : Nat} {previous : Option Token} {leading : Trivia}
    {cs : List Char} {ts : Tokens} (h : tokensFrom fuel previous leading pos cs = .ok ts)
    (hfuel : cs.length < fuel) : Cuts previous leading cs ts := by
  induction fuel generalizing pos previous leading cs ts with
  | zero => cases h
  | succ fuel ih =>
    cases cs with
    | nil =>
      cases h
      exact .done
    | cons c cs =>
      obtain ⟨kind, n, trailing, rest, leading', rest', us, htoken, htrailing, hleading, hus, rfl⟩ :=
        tokensFrom_cons h
      have hpos := token_pos _ _ _ _ htoken
      have hle := token_le htoken
      obtain ⟨n, rfl⟩ := Nat.exists_eq_succ_of_ne_zero (Nat.ne_of_gt hpos)
      obtain ⟨x, y, rfl, hx⟩ : ∃ x y, cs = x ++ y ∧ x.length = n :=
        ⟨cs.take n, cs.drop n, (List.take_append_drop n cs).symm,
          List.length_take_of_le (Nat.le_of_succ_le_succ hle)⟩
      rw [List.drop_succ_cons, ← hx, List.drop_left] at htrailing
      rw [front, List.take_succ_cons, ← hx, List.take_left] at hus
      obtain rfl := toList_trivia _ _ _ _ htrailing
      obtain rfl := toList_trivia _ _ _ _ hleading
      rw [List.length_cons] at hfuel
      simp only [List.length_append] at hfuel
      have hcuts := cutsOff_of_trivia (by simp only [List.length_append]; omega) htrailing
      have hcuts' := cutsOff_of_trivia (by simp only [List.length_append]; omega) hleading
      rw [← hx] at htoken
      rw [front, List.take_succ_cons, ← hx, List.take_left]
      exact .token (token_of_startsAlike (.refl _) (by omega) htoken) hcuts hcuts' (ih hus (by omega))

/-- The tokens of a source are cut off the text behind the trivia in front of the first of them. -/
theorem exists_cuts_of_tokens {source : String} {ts : Tokens} (h : tokens source = .ok ts) :
    ∃ t rest, trivia false source.toList.length (interpreterLine source.toList).1.len
        (interpreterLine source.toList).2 = .ok (t, rest) ∧
      tokensFrom (source.toList.length + 1) none ((interpreterLine source.toList).1 ++ t)
        (Trivia.len ((interpreterLine source.toList).1 ++ t)) rest = .ok ts ∧
      CutsOff false rest t ∧ Cuts none ((interpreterLine source.toList).1 ++ t) rest ts := by
  obtain ⟨line, t, rest, rfl, htrivia, hfrom⟩ := tokens_eq_ok h
  have hspell := congrArg List.length (toList_interpreterLine source.toList)
  have hspell' := congrArg List.length (toList_trivia _ _ _ _ htrivia)
  rw [List.length_append] at hspell hspell'
  exact ⟨t, rest, htrivia, hfrom, cutsOff_of_trivia (by omega) htrivia,
    cuts_of_tokensFrom hfrom (by omega)⟩

namespace Cuts

variable {previous : Option Token} {leading : Trivia} {cs : List Char} {ts : Tokens}

theorem text_endOfFile (h : Cuts previous leading cs ts) : ts.endOfFile.text = "" := by
  induction h with
  | done => rfl
  | token _ _ _ _ ih => exact ih

/-- A token of a kind that is not given to others is spelled by the character of that kind. -/
theorem text_of_not_isGiven (h : Cuts previous leading cs ts) : ∀ t ∈ ts.pending, ¬ t.kind.IsGiven →
    ∃ c, (c, t.kind) ∈ markKinds ∧ t.text = String.ofList [c] := by
  induction h with
  | done => exact List.forall_mem_nil _
  | @token _ _ _ _ kind c x _ _ htoken _ _ _ ih =>
    refine List.forall_mem_cons.mpr ⟨fun hkind => ?_, ih⟩
    obtain ⟨hmark, hlength⟩ := token_of_not_isGiven htoken hkind
    exact ⟨c, hmark, by rw [List.length_eq_zero_iff.mp (Nat.succ.inj hlength)]⟩

/-- The lexer finds it. -/
theorem tokensFrom_eq (h : Cuts previous leading cs ts) {fuel : Nat} (pos : Nat)
    (hfuel : cs.length < fuel) : tokensFrom fuel previous leading pos cs = .ok ts := by
  induction h generalizing fuel pos with
  | done =>
    obtain ⟨fuel, rfl⟩ := Nat.exists_eq_succ_of_ne_zero (Nat.ne_of_gt hfuel)
    rfl
  | @token previous leading trailing leading' kind c x rest ts htoken htrailing hleading _ ih =>
    obtain ⟨fuel, rfl⟩ := Nat.exists_eq_succ_of_ne_zero (Nat.ne_zero_of_lt hfuel)
    rw [List.length_cons] at hfuel
    simp only [List.length_append] at hfuel
    have hdrop : ∀ y : List Char, (c :: (x ++ y)).drop (x.length + 1) = y := by
      intro y
      rw [List.drop_succ_cons, List.drop_left]
    have hfront : ∀ y, front (x.length + 1) (c :: (x ++ y)) = String.ofList (c :: x) := by
      intro y
      rw [front, List.take_succ_cons, List.take_left]
    have htoken' : Lexer.token (fuel + 1) (isLeftBound previous leading) _ = .ok (kind, x.length + 1) :=
      token_of_startsAlike (.refl _) (by omega) htoken
    have hstep := Lexer.tokensFrom_eq pos htoken'
      (fun p => by
        rw [hdrop]
        exact htrailing.trivia_eq p (by simp only [List.length_append]; omega))
      (fun p => hleading.trivia_eq p (by simp only [List.length_append]; omega))
      (fun p => by
        rw [hfront]
        exact ih p (by omega))
    rwa [hfront] at hstep

end Cuts

/-! ### Runs of trivia that come together -/

/-- Apart from the end of a line, the same is cut off behind a token and in front of one. -/
theorem triviaPiece?_trailing {c : Char} (cs : List Char) (h : isLineEnd c = false) :
    triviaPiece? true (c :: cs) = triviaPiece? false (c :: cs) := by
  rw [isLineEnd, Bool.or_eq_false_iff, beq_eq_false_iff_ne, beq_eq_false_iff_ne] at h
  rw [triviaPiece?_cons, triviaPiece?_cons, if_neg h.1, if_neg h.1, if_neg h.2, if_neg h.2]

/-- A piece that is cut off behind a token is cut off in front of one. -/
theorem triviaPiece?_false {trailing : Bool} {cs : List Char} {k : TriviaKind} {n : Nat}
    (h : triviaPiece? trailing cs = .ok (some (k, n))) :
    triviaPiece? false cs = .ok (some (k, n)) := by
  cases trailing with
  | false => exact h
  | true =>
    cases cs with
    | nil => cases h
    | cons c cs =>
      cases hend : isLineEnd c with
      | false => rwa [triviaPiece?_trailing cs hend] at h
      | true =>
        have hnone : triviaPiece? true (c :: cs) = .ok none := by
          rw [triviaPiece?_eq_none_iff, if_pos hend]
        rw [hnone] at h
        cases h

/-- What becomes of a piece in front of another text: it is cut off again, or it is a lone CR in front of
LF, or a run of blanks in front of more of them. -/
theorem triviaPiece?_cases {k : TriviaKind} {c : Char} {w cs : List Char}
    (h : triviaPiece? false (c :: (w ++ rest)) = .ok (some (k, w.length + 1)))
    (hend : rest.head?.all isLineEnd = true → cs.head? = rest.head?) :
    triviaPiece? false (c :: (w ++ cs)) = .ok (some (k, w.length + 1)) ∨
    (k = .newline ∧ c = '\r' ∧ w = [] ∧ cs.head? = some '\n') ∨
    (k = .whitespace ∧ (∀ b ∈ c :: w, isHorizontal b = true) ∧ cs.head?.any isHorizontal = true) := by
  -- behind the same character nothing changes; otherwise the kind of the piece decides
  by_cases hhead : rest.head? = cs.head?
  · exact .inl (triviaPiece?_congr hhead h)
  rw [triviaPiece?_cons] at h
  rw [triviaPiece?_cons]
  by_cases hlf : c = '\n'
  · rw [if_pos hlf] at h ⊢
    exact .inl h
  rw [if_neg hlf] at h ⊢
  by_cases hcr : c = '\r'
  · rw [if_pos hcr] at h ⊢
    obtain ⟨hk, hlength⟩ := Prod.mk.inj (Option.some.inj (Except.ok.inj h))
    cases w with
    | cons d w => exact .inl h
    | nil =>
      by_cases hjoin : cs.head? = some '\n'
      · exact .inr (.inl ⟨hk.symm, hcr, rfl, hjoin⟩)
      · left
        rw [List.nil_append, if_neg hjoin, ← hk]
        rfl
  rw [if_neg hcr] at h ⊢
  by_cases hline : c = '/' ∧ (w ++ rest).head? = some '/'
  · -- a line comment is as long as its line, so the line ends behind it
    rw [if_pos hline] at h
    obtain ⟨-, hlength⟩ := Prod.mk.inj (Option.some.inj (Except.ok.inj h))
    cases w with
    | nil => cases hlength
    | cons d w =>
      rw [List.cons_append, List.tail_cons] at hlength
      have hlength : lineLength (w ++ rest) = w.length := Nat.add_right_cancel hlength
      rw [lineLength, length_takeWhile_append_iff] at hlength
      refine absurd (hend ?_).symm hhead
      cases hrest : rest.head? with
      | none => rfl
      | some e => simpa [hrest] using hlength.2
  rw [if_neg hline] at h
  by_cases hblock : c = '/' ∧ (w ++ rest).head? = some '*'
  · rw [if_pos hblock] at h
    obtain ⟨rfl, hstar⟩ := hblock
    split at h
    · next n hn =>
      obtain ⟨rfl, hlength⟩ := Prod.mk.inj (Option.some.inj (Except.ok.inj h))
      cases w with
      | nil => cases hlength
      | cons d w =>
        obtain rfl : d = '*' := Option.some.inj hstar
        obtain rfl : n = w.length := Nat.add_right_cancel hlength
        obtain ⟨hlength', hkind⟩ : blockCommentLength 1 (w ++ cs) = some w.length ∧
            blockCommentKind ('/' :: '*' :: (w ++ cs)) = blockCommentKind ('/' :: '*' :: (w ++ rest)) :=
          blockComment_congr hn
        left
        rw [if_neg (by simp), if_pos ⟨rfl, rfl⟩, List.cons_append, List.tail_cons, hlength', hkind]
        rfl
    · cases h
  -- what is left are blanks, which go on as long as there are more of them
  rw [if_neg hblock] at h
  split_ifs at h with hblank
  · obtain ⟨rfl, hlength⟩ := Prod.mk.inj (Option.some.inj (Except.ok.inj h))
    have hslash : c ≠ '/' := by
      rintro rfl
      exact absurd hblank (by decide)
    have hall := length_takeWhile_append_iff.mp (Nat.succ.inj hlength)
    by_cases hmore : cs.head?.any isHorizontal = true
    · exact .inr (.inr ⟨rfl, List.forall_mem_cons.mpr ⟨hblank, hall.1⟩, hmore⟩)
    · left
      rw [if_neg (fun h => hslash h.1), if_neg (fun h => hslash h.1), if_pos hblank,
        length_takeWhile_append_iff.mpr ⟨hall.1, Bool.eq_false_iff.mpr hmore⟩]
  · cases h

/-- Trivia in front of which blanks come to stand starts with a run of them. -/
theorem exists_blanks (h : CutsOff false rest t)
    (hhead : ((Trivia.text t).toList ++ rest).head?.any isHorizontal = true) :
    ∃ q t', t = q :: t' ∧ q.kind = .whitespace ∧ CutsOff false rest t' ∧
      (∀ b ∈ q.text.toList, isHorizontal b = true) ∧
      ((Trivia.text t').toList ++ rest).head?.any isHorizontal = false := by
  obtain ⟨d, hd, hblank⟩ := (Option.any_eq_true _ _).mp hhead
  obtain ⟨tail, htail⟩ := List.head?_eq_some_iff.mp hd
  have hne : d ≠ '\n' ∧ d ≠ '\r' ∧ d ≠ '/' := by
    refine ⟨?_, ?_, ?_⟩ <;> rintro rfl <;> exact absurd hblank (by decide)
  have hpiece : triviaPiece? false (d :: tail) =
      .ok (some (.whitespace, (tail.takeWhile isHorizontal).length + 1)) := by
    rw [triviaPiece?_cons, if_neg hne.1, if_neg hne.2.1, if_neg (fun h => hne.2.2 h.1),
      if_neg (fun h => hne.2.2 h.1), if_pos hblank]
  cases h with
  | done hrest =>
    rw [Trivia.toList_text_nil, List.nil_append] at htail
    rw [htail, hpiece] at hrest
    cases hrest
  | @piece q t' hq ht' =>
    rw [Trivia.toList_text_cons, List.append_assoc] at htail
    rw [htail, hpiece] at hq
    obtain ⟨hkind, hlength⟩ := Prod.mk.inj (Option.some.inj (Except.ok.inj hq))
    have hrun : ((q.text.toList ++ ((Trivia.text t').toList ++ rest)).takeWhile isHorizontal).length =
        q.text.toList.length := by
      rw [htail, List.takeWhile_cons, if_pos hblank, List.length_cons, hlength]
    obtain ⟨hall, hnext⟩ := length_takeWhile_append_iff.mp hrun
    exact ⟨q, t', rfl, hkind.symm, ht', hall, hnext⟩

namespace CutsOff

/-- A piece comes to stand in front of trivia. -/
theorem join_piece {p : TriviaPiece} {cs : List Char} (h : CutsOff false rest t)
    (hpiece : triviaPiece? false (p.text.toList ++ cs) = .ok (some (p.kind, p.text.toList.length)))
    (hend : cs.head?.all isLineEnd = true → ((Trivia.text t).toList ++ rest).head? = cs.head?) :
    ∃ t', CutsOff false rest t' ∧
      (Trivia.text t').toList = p.text.toList ++ (Trivia.text t).toList ∧
      t'.containsNewline = (p.isNewline || t.containsNewline) := by
  have hpos := (triviaPiece?_pos hpiece).1
  obtain ⟨c, w, hp⟩ := List.exists_cons_of_length_pos hpos
  have hsame := hpiece
  rw [hp] at hsame
  rcases triviaPiece?_cases hsame hend with hkept | ⟨hkind, rfl, rfl, hhead⟩ | ⟨hkind, hall, hhead⟩
  · refine ⟨p :: t, .piece ?_ h, by rw [Trivia.toList_text_cons], rfl⟩
    rw [hp]
    exact hkept
  · -- a lone CR takes in the LF that stands behind it
    obtain ⟨q, t', rfl, hq, ht'⟩ : ∃ q t', t = q :: t' ∧ q.text = "\n" ∧ CutsOff false rest t' := by
      cases h with
      | done hrest =>
        obtain ⟨tail, rfl⟩ := List.head?_eq_some_iff.mp hhead
        cases hrest
      | @piece q t' hq ht' =>
        rw [Trivia.toList_text_cons, List.append_assoc] at hhead
        exact ⟨q, t', rfl, text_of_head?_eq hq hhead, ht'⟩
    refine ⟨⟨.newline, "\r\n"⟩ :: t', .piece rfl ht', ?_, ?_⟩
    · rw [Trivia.toList_text_cons, Trivia.toList_text_cons, hp, hq]
      rfl
    · simp [containsNewline, TriviaPiece.isNewline, hkind]
  · -- blanks become one run with those behind them
    obtain ⟨q, t', rfl, hq, ht', hblanks, hnext⟩ := exists_blanks h hhead
    have hlength : (((c :: w) ++ q.text.toList ++ ((Trivia.text t').toList ++ rest)).takeWhile
        isHorizontal).length = ((c :: w) ++ q.text.toList).length := by
      rw [length_takeWhile_append_iff, List.forall_mem_append]
      exact ⟨⟨hall, hblanks⟩, hnext⟩
    have hblank := hall c List.mem_cons_self
    have hne : c ≠ '\n' ∧ c ≠ '\r' ∧ c ≠ '/' := by
      refine ⟨?_, ?_, ?_⟩ <;> rintro rfl <;> exact absurd hblank (by decide)
    refine ⟨⟨.whitespace, String.ofList ((c :: w) ++ q.text.toList)⟩ :: t', .piece ?_ ht', ?_, ?_⟩
    · rw [List.cons_append, List.cons_append, List.takeWhile_cons, if_pos hblank, List.length_cons]
        at hlength
      rw [String.toList_ofList, List.cons_append, List.cons_append, triviaPiece?_cons, if_neg hne.1,
        if_neg hne.2.1, if_neg (fun h => hne.2.2 h.1), if_neg (fun h => hne.2.2 h.1), if_pos hblank,
        hlength]
    · rw [Trivia.toList_text_cons, Trivia.toList_text_cons, String.toList_ofList, hp,
        List.append_assoc]
    · simp [containsNewline, TriviaPiece.isNewline, hkind, hq]

/-- **Runs that come together**: trivia comes to stand in front of other trivia, what stood between them
being left out.  Where a line ended behind it, it goes on with the same line break. -/
theorem join {trailing : Bool} {cs : List Char} (hs : CutsOff trailing cs s) (ht : CutsOff false rest t)
    (hend : cs.head?.all isLineEnd = true → ((Trivia.text t).toList ++ rest).head? = cs.head?) :
    ∃ t', CutsOff false rest t' ∧
      (Trivia.text t').toList = (Trivia.text s).toList ++ (Trivia.text t).toList ∧
      t'.containsNewline = (s.containsNewline || t.containsNewline) := by
  induction hs with
  | done => exact ⟨t, ht, by rw [Trivia.toList_text_nil, List.nil_append], rfl⟩
  | @piece p s hpiece hs ih =>
    obtain ⟨t₁, ht₁, htext, hnewline⟩ := ih
    obtain ⟨t₂, ht₂, htext₂, hnewline₂⟩ := ht₁.join_piece (triviaPiece?_false hpiece) fun hall => by
      rw [htext]
      cases hs with
      | done =>
        rw [Trivia.toList_text_nil, List.nil_append] at hall ⊢
        exact hend hall
      | @piece q s hq _ =>
        obtain ⟨d, v, hd⟩ := List.exists_cons_of_length_pos (triviaPiece?_pos hq).1
        rw [Trivia.toList_text_cons, hd]
        rfl
    refine ⟨t₂, ht₂, ?_, ?_⟩
    · rw [htext₂, htext, Trivia.toList_text_cons, List.append_assoc]
    · rw [hnewline₂, hnewline, ← Bool.or_assoc]
      rfl

/-- Trivia is cut in two in front of its first line break: the front stays on the line of the token in
front of it. -/
theorem exists_split (h : CutsOff false rest t) :
    ∃ a b, t = a ++ b ∧ CutsOff true ((Trivia.text b).toList ++ rest) a ∧ CutsOff false rest b ∧
      (t.containsNewline = true → b.containsNewline = true) := by
  induction h with
  | done hrest =>
    refine ⟨[], [], rfl, .done ?_, .done hrest, id⟩
    rw [Trivia.toList_text_nil, List.nil_append]
    cases rest with
    | nil => rfl
    | cons c cs =>
      rw [triviaPiece?_eq_none_iff] at hrest ⊢
      split_ifs at hrest ⊢
      exact hrest
  | @piece p t hpiece ht ih =>
    have hpos := (triviaPiece?_pos hpiece).1
    obtain ⟨c, w, hp⟩ := List.exists_cons_of_length_pos hpos
    cases hend : isLineEnd c with
    | true =>
      -- the line ends here
      refine ⟨[], p :: t, rfl, .done ?_, .piece hpiece ht, id⟩
      rw [Trivia.toList_text_cons, hp, List.cons_append, List.cons_append, triviaPiece?_eq_none_iff,
        if_pos hend]
    | false =>
      obtain ⟨a, b, rfl, ha, hb, hnewline⟩ := ih
      have hstays : triviaPiece? true (p.text.toList ++ ((Trivia.text (a ++ b)).toList ++ rest)) =
          .ok (some (p.kind, p.text.toList.length)) := by
        rw [← hpiece, hp, List.cons_append, triviaPiece?_trailing _ hend]
      have hnot : p.isNewline = false := beq_eq_false_iff_ne.mpr (triviaPiece?_ne_newline hstays)
      rw [Trivia.toList_text_append, List.append_assoc] at hstays
      refine ⟨p :: a, b, rfl, .piece hstays ha, hb, fun hcontains => ?_⟩
      rw [containsNewline, List.any_cons, hnot, Bool.false_or] at hcontains
      exact hnewline hcontains

end CutsOff

end Lexer

end SwiftTidy
