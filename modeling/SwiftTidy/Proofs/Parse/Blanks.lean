import Mathlib.Data.List.Forall2
import SwiftTidy.Proofs.Parse.Cutting

/-!
# Texts with other blanks

A text in which runs of blanks between tokens are replaced by other ones is cut into tokens with the same
texts again, and with these blanks (`tokens_reblanked`).  Where trivia ends and tokens start is told by
how a text starts, and for that all blanks are alike (`SameStart`).

Only the classification of operators looks closer at what stands behind them: a space or a tab keeps an
operator from being bound to the right, a vertical tab or a form feed does not.  So the kinds stay the
same exactly if behind every operator a run of blanks starts with one of these two characters in both
texts or in neither.
-/

namespace SwiftTidy

open Lexer

/-- One or more blanks. -/
def Lexer.IsBlanks (cs : List Char) : Prop := cs ≠ [] ∧ ∀ c ∈ cs, isHorizontal c = true

-- by a run over the list: an instance for all characters would look at each character there is
instance (cs : List Char) : Decidable (IsBlanks cs) :=
  decidable_of_iff (cs ≠ [] ∧ cs.all isHorizontal = true) (by rw [List.all_eq_true]; rfl)

/-- A piece of trivia, or blanks in the place of blanks. -/
inductive TriviaPiece.Reblanked : TriviaPiece → TriviaPiece → Prop
  | same (p : TriviaPiece) : Reblanked p p
  | blanks {s t : String} (hs : IsBlanks s.toList) (ht : IsBlanks t.toList) :
      Reblanked ⟨.whitespace, s⟩ ⟨.whitespace, t⟩

/-- Trivia with other blanks in it. -/
abbrev Trivia.Reblanked : Trivia → Trivia → Prop := List.Forall₂ TriviaPiece.Reblanked

/-- The blanks that do not keep an operator in front of them from being bound to the right. -/
def isVertical (c : Char) : Bool := c == '\x0b' || c == '\x0c'

/-- Whether trivia starts with such a blank. -/
def Trivia.startsVertical (t : Trivia) : Bool := (Trivia.text t).toList.head?.any isVertical

namespace Token

/-- A token with other blanks around it. -/
structure Reblanked (t u : Token) : Prop where
  text : u.text = t.text
  leading : Trivia.Reblanked t.leading u.leading
  trailing : Trivia.Reblanked t.trailing u.trailing

/-- A token that is cut off again with other blanks around it.  It is of the same kind, unless it is an
operator that is bound to the right in only one of the two places. -/
structure Recut (t u : Token) : Prop extends Reblanked t u where
  kind_iff : u.kind = t.kind ↔
    (t.kind.isOperator = true → u.trailing.startsVertical = t.trailing.startsVertical)

end Token

namespace Lexer

variable {x rest rest' : List Char} {s t : Trivia} {trailing : Bool}

/-! ### How texts start -/

/-- Texts that start alike, or with a blank both. -/
inductive SameStart (cs cs' : List Char) : Prop
  | alike (h : StartsAlike cs cs')
  | blanks (h : cs.head?.any isHorizontal = true) (h' : cs'.head?.any isHorizontal = true)

theorem isBreak_of_blank {cs : List Char} (h : cs.head?.any isHorizontal = true) : isBreak cs = true := by
  cases cs with
  | nil => rfl
  | cons c cs =>
    have hblank : isHorizontal c = true := h
    simp [isBreak, hblank]

theorem isLineEnd_of_blank {c : Char} (h : isHorizontal c = true) : isLineEnd c = false := by
  simp only [isHorizontal, Bool.or_eq_true, beq_iff_eq] at h
  rcases h with ((rfl | rfl) | rfl) | rfl
  all_goals decide

theorem ne_of_blank {cs : List Char} {d : Char} (h : cs.head?.any isHorizontal = true)
    (hd : isHorizontal d = false) : cs.head? ≠ some d := by
  intro hhead
  rw [hhead, Option.any_some, hd] at h
  cases h

namespace SameStart

variable {cs cs' : List Char}

theorem looksLike (h : SameStart cs cs') : LooksLike cs cs' := by
  cases h with
  | alike h => exact h.looksLike
  | blanks h h' => exact .breaks (isBreak_of_blank h) (isBreak_of_blank h')

/-- Behind the same character blanks are alike. -/
theorem cons (h : SameStart cs cs') (c : Char) : StartsAlike (c :: cs) (c :: cs') := by
  cases h with
  | alike h => exact h.append_left [c]
  | blanks h h' =>
    have hcomment : ∀ {r : List Char}, r.head?.any isHorizontal = true → startsComment (c :: r) = false := by
      intro r hr
      cases r with
      | nil => cases hr
      | cons d r =>
        have hslash : d ≠ '/' := fun hd => ne_of_blank hr (by decide) (congrArg some hd)
        have hstar : d ≠ '*' := fun hd => ne_of_blank hr (by decide) (congrArg some hd)
        simp [startsComment_cons, hslash, hstar]
    have heq : startsComment (c :: cs) = startsComment (c :: cs') := by rw [hcomment h, hcomment h']
    exact ⟨rfl, heq, .cons c (.inr ⟨isBreak_of_blank h, isBreak_of_blank h'⟩) heq⟩

/-- Behind the same text blanks are alike. -/
theorem append_left (h : SameStart cs cs') (w : List Char) : SameStart (w ++ cs) (w ++ cs') := by
  induction w with
  | nil => exact h
  | cons c w ih => exact .alike (ih.cons c)

/-- Where no blank stands, the texts start alike. -/
theorem startsAlike (h : SameStart cs cs') (hblank : cs.head?.any isHorizontal = false) :
    StartsAlike cs cs' := by
  cases h with
  | alike h => exact h
  | blanks h => rw [hblank] at h; cases h

end SameStart

/-! ### Trivia -/

theorem IsBlanks.any_head? (hx : IsBlanks x) : (x ++ rest).head?.any isHorizontal = true := by
  obtain ⟨c, w, rfl⟩ := List.exists_cons_of_ne_nil hx.1
  exact hx.2 c List.mem_cons_self

theorem blank_of_none {cs : List Char} (h : triviaPiece? trailing cs = .ok none) :
    cs.head?.any isHorizontal = false := by
  cases cs with
  | nil => rfl
  | cons c cs =>
    rw [triviaPiece?_eq_none_iff] at h
    split_ifs at h with hend
    · refine Bool.eq_false_iff.mpr fun hblank => ?_
      rw [isLineEnd_of_blank hblank] at hend
      cases hend
    · exact h.1

/-- A run of blanks is a piece where no blank follows. -/
theorem triviaPiece?_blanks_iff (hx : IsBlanks x) :
    triviaPiece? trailing (x ++ rest) = .ok (some (.whitespace, x.length)) ↔
      rest.head?.any isHorizontal = false := by
  obtain ⟨hne, hall⟩ := hx
  obtain ⟨c, w, rfl⟩ := List.exists_cons_of_ne_nil hne
  have hblank := hall c List.mem_cons_self
  have hother : ∀ d, isHorizontal d = false → c ≠ d := by
    rintro d hd rfl
    rw [hblank] at hd
    cases hd
  have hrun : ((w ++ rest).takeWhile isHorizontal).length = w.length ↔
      rest.head?.any isHorizontal = false := by
    rw [length_takeWhile_append_iff]
    exact and_iff_right fun d hd => hall d (List.mem_cons_of_mem c hd)
  rw [List.cons_append, triviaPiece?_cons, if_neg (hother _ rfl), if_neg (hother _ rfl),
    if_neg (fun h => hother _ rfl h.1), if_neg (fun h => hother _ rfl h.1), if_pos hblank, ← hrun]
  simp

/-- A piece is cut off the same in front of other blanks. -/
theorem triviaPiece?_of_blank {k : TriviaKind} {c : Char} {w : List Char}
    (hblank : rest.head?.any isHorizontal = true) (hblank' : rest'.head?.any isHorizontal = true)
    (h : triviaPiece? trailing (c :: (w ++ rest)) = .ok (some (k, w.length + 1))) :
    triviaPiece? trailing (c :: (w ++ rest')) = .ok (some (k, w.length + 1)) := by
  have hend : rest.head?.all isLineEnd = true → rest'.head? = rest.head? := by
    intro hend
    cases rest with
    | nil => cases hblank
    | cons d rest =>
      have hnot := isLineEnd_of_blank hblank
      rw [show isLineEnd d = true from hend] at hnot
      cases hnot
  have hfalse : triviaPiece? false (c :: (w ++ rest')) = .ok (some (k, w.length + 1)) := by
    rcases triviaPiece?_cases (triviaPiece?_false h) hend with hsame | ⟨-, -, -, hhead⟩ | ⟨rfl, hall, -⟩
    · exact hsame
    · exact absurd hhead (ne_of_blank hblank' (by decide))
    · -- a run of blanks takes in the blanks behind it
      have hnone := (triviaPiece?_blanks_iff (x := c :: w) ⟨List.cons_ne_nil c w, hall⟩).mp h
      rw [hblank] at hnone
      cases hnone
  cases trailing with
  | false => exact hfalse
  | true =>
    cases hline : isLineEnd c with
    | false => rwa [triviaPiece?_trailing _ hline]
    | true =>
      have hnone : triviaPiece? true (c :: (w ++ rest)) = .ok none := by
        rw [triviaPiece?_eq_none_iff, if_pos hline]
      rw [hnone] at h
      cases h

/-- **Trivia with other blanks** is cut off, and starts as it did, in front of a text that starts as it
did. -/
theorem CutsOff.reblanked (h : CutsOff trailing rest s) (hst : Trivia.Reblanked s t)
    (hstart : SameStart rest rest') :
    CutsOff trailing rest' t ∧
      SameStart ((Trivia.text s).toList ++ rest) ((Trivia.text t).toList ++ rest') := by
  induction h generalizing t with
  | done hrest =>
    cases hst
    exact ⟨.done (triviaPiece?_none_congr (hstart.startsAlike (blank_of_none hrest)) hrest), hstart⟩
  | @piece p s hpiece _ ih =>
    cases hst with
    | @cons _ q _ t hpq hst =>
      obtain ⟨hcuts, hbehind⟩ := ih hst
      rw [Trivia.toList_text_cons, Trivia.toList_text_cons, List.append_assoc, List.append_assoc]
      cases hpq with
      | same =>
        refine ⟨.piece ?_ hcuts, hbehind.append_left _⟩
        obtain ⟨c, w, hp⟩ := List.exists_cons_of_length_pos (triviaPiece?_pos hpiece).1
        rw [hp] at hpiece ⊢
        cases hbehind with
        | alike h => exact triviaPiece?_congr h.head?_eq hpiece
        | blanks h h' => exact triviaPiece?_of_blank h h' hpiece
      | blanks hs ht =>
        have hfree := (triviaPiece?_blanks_iff hs).mp hpiece
        have hhead := (hbehind.startsAlike hfree).head?_eq
        exact ⟨.piece ((triviaPiece?_blanks_iff ht).mpr (hhead ▸ hfree)) hcuts,
          .blanks hs.any_head? ht.any_head?⟩

/-! ### Operators -/

/-- Only the last cases of the classification look to the right. -/
theorem classifyOperator_eq_iff {text : String} {leftBound b b' : Bool} :
    classifyOperator text leftBound b' = classifyOperator text leftBound b ↔
      ((classifyOperator text leftBound b).isOperator = true → b' = b) := by
  unfold classifyOperator
  split_ifs <;> cases leftBound <;> cases b <;> cases b' <;> simp_all [SyntaxKind.isOperator]

theorem isVertical_of_not_blank {c : Char} (h : isHorizontal c = false) : isVertical c = false := by
  simp only [isHorizontal, Bool.or_eq_false_iff] at h
  rw [isVertical, h.1.2, h.2, Bool.or_false]

theorem startsVertical_eq (h : CutsOff trailing rest t) :
    t.startsVertical = ((Trivia.text t).toList ++ rest).head?.any isVertical := by
  cases h with
  | done hrest =>
    have hblank := blank_of_none hrest
    rw [Trivia.startsVertical, Trivia.toList_text_nil, List.nil_append]
    cases rest with
    | nil => rfl
    | cons c rest => exact (isVertical_of_not_blank hblank).symm
  | @piece p t hpiece _ =>
    obtain ⟨c, w, hp⟩ := List.exists_cons_of_length_pos (triviaPiece?_pos hpiece).1
    rw [Trivia.startsVertical, Trivia.toList_text_cons, hp]
    rfl

theorem isRightBound_of_blank {cs : List Char} (h : cs.head?.any isHorizontal = true) :
    isRightBound cs = cs.head?.any isVertical := by
  cases cs with
  | nil => cases h
  | cons c cs =>
    have hblank : isHorizontal c = true := h
    simp only [isHorizontal, Bool.or_eq_true, beq_iff_eq] at hblank
    rcases hblank with ((rfl | rfl) | rfl) | rfl
    all_goals rfl

/-- In front of trivia with other blanks an operator is bound to the right as it was, unless only one of
the two starts with a blank that it does not see. -/
theorem isRightBound_eq_iff (hs : CutsOff trailing rest s) (ht : CutsOff trailing rest' t)
    (hstart : SameStart ((Trivia.text s).toList ++ rest) ((Trivia.text t).toList ++ rest')) :
    isRightBound ((Trivia.text t).toList ++ rest') = isRightBound ((Trivia.text s).toList ++ rest) ↔
      t.startsVertical = s.startsVertical := by
  rw [startsVertical_eq hs, startsVertical_eq ht]
  cases hstart with
  | alike h => exact iff_of_true h.isRightBound_eq.symm (by rw [h.head?_eq])
  | blanks h h' => rw [isRightBound_of_blank h, isRightBound_of_blank h']

theorem nameKind_isOperator (text : String) : (nameKind text).isOperator = false :=
  nameKind_of (P := (·.isOperator = false)) rfl rfl (by decide) text

theorem number_isOperator (cs : List Char) : (number cs).1.isOperator = false :=
  number_of (P := (·.isOperator = false)) rfl rfl cs

/-- Operators start with characters of operators. -/
theorem startsOperator_of_isOperator {fuel n : Nat} {leftBound : Bool} {c : Char} {cs : List Char}
    {kind : SyntaxKind} (h : token fuel leftBound (c :: cs) = .ok (kind, n))
    (hkind : kind.isOperator = true) : startsOperator c = true := by
  cases frontToken_of_token h with
  | operator hc => exact hc
  | mark hc =>
    rw [(by decide : ∀ p ∈ markKinds, p.2.isOperator = false) _ hc] at hkind
    cases hkind
  | number =>
    rw [number_isOperator] at hkind
    cases hkind
  | name =>
    rw [nameKind_isOperator] at hkind
    cases hkind
  | period | literal | directive | escaped | dollar => cases hkind

/-- A token is cut off again in front of a text that starts as it did; what an operator is goes with the
side on which the new text binds it. -/
theorem token_of_sameStart {fuel fuel' : Nat} {leftBound : Bool} {c : Char} {kind : SyntaxKind}
    (h : token fuel leftBound (c :: (x ++ rest)) = .ok (kind, x.length + 1))
    (hstart : SameStart rest rest') (hfuel : x.length + 1 < fuel') :
    ∃ kind', token fuel' leftBound (c :: (x ++ rest')) = .ok (kind', x.length + 1) ∧
      (kind' = kind ↔ (kind.isOperator = true → isRightBound rest' = isRightBound rest)) := by
  have hslash : startsOperator c = true → x.getLast? = some '/' → startsComment ('/' :: rest') = false := by
    intro hoperator hlast
    rw [← (hstart.cons '/').startsComment_eq]
    exact startsComment_of_token h hoperator hlast
  by_cases hoperator : startsOperator c = true
  · rcases operator_congr hstart.looksLike hoperator (hslash hoperator) h fuel' with
      ⟨rfl, htoken⟩ | ⟨rfl, htoken⟩
    · exact ⟨_, htoken, iff_of_true rfl nofun⟩
    · exact ⟨_, htoken, classifyOperator_eq_iff⟩
  · refine ⟨kind, token_congr hstart.looksLike (fun h => absurd h hoperator) hslash hfuel h,
      iff_of_true rfl fun hkind => ?_⟩
    exact absurd (startsOperator_of_isOperator h hkind) hoperator

/-! ### The loop -/

/-- Tokens with other blanks around them end alike. -/
theorem isLeftBound_of_reblanked {previous previous' : Option Token}
    (hprevious : Option.Rel Token.Reblanked previous previous') (hst : Trivia.Reblanked s t) :
    isLeftBound previous' t = isLeftBound previous s := by
  have hempty : ∀ {s t : Trivia}, Trivia.Reblanked s t → t.isEmpty = s.isEmpty := by
    intro s t h
    cases h <;> rfl
  cases hprevious with
  | none => rfl
  | some h => rw [isLeftBound, isLeftBound, hempty hst, hempty h.trailing, h.text]

/-- Of the token in front of a text it counts how it ends. -/
theorem Cuts.of_previous {p p' : Token} {leading : Trivia} {cs : List Char} {ts : Tokens}
    (h : Cuts (some p) leading cs ts) (htext : p'.text = p.text) (htrailing : p'.trailing = p.trailing) :
    Cuts (some p') leading cs ts := by
  cases h with
  | done => exact .done
  | token htoken htrail hlead hrest =>
    refine .token ?_ htrail hlead hrest
    rwa [isLeftBound, htext, htrailing]

/-- **The loop**: what is cut into tokens is cut into the same ones again with other blanks around them,
behind the trivia in front of the first one. -/
theorem Cuts.reblanked {previous previous' : Option Token} {leading : Trivia} {cs : List Char}
    {ts : Tokens} {us : List Token} (h : Cuts previous leading cs ts)
    (hprevious : Option.Rel Token.Reblanked previous previous')
    (hus : List.Forall₂ Token.Reblanked ts.all us) :
    ∃ leading' cs' vs, Token.spell us = (Trivia.text leading').toList ++ cs' ∧
      Trivia.Reblanked leading leading' ∧ SameStart cs cs' ∧ Cuts previous' leading' cs' vs ∧
      List.Forall₂ Token.Recut ts.all vs.all := by
  induction h generalizing previous' us with
  | @done previous leading =>
    cases hus with
    | @cons _ u _ _ hu hnil =>
      cases hnil
      obtain ⟨kind, text, leading', trailing'⟩ := u
      obtain rfl : text = "" := hu.text
      obtain rfl : trailing' = [] := List.forall₂_nil_left_iff.mp hu.trailing
      refine ⟨leading', [], ⟨[], ⟨.endOfFile, "", leading', []⟩⟩, ?_, hu.leading, .alike .nil, .done,
        .cons ⟨⟨rfl, hu.leading, .nil⟩, iff_of_true rfl nofun⟩ .nil⟩
      simp [Token.toList_fullText]
  | @token previous leading trailing leading₂ kind c x rest ts htoken htrailing hleading _ ih =>
    rw [Tokens.all, List.cons_append] at hus
    cases hus with
    | @cons _ u _ us hu hus =>
      -- what stands behind the next token, whatever this one is
      let v : Token := ⟨kind, String.ofList (c :: x), u.leading, u.trailing⟩
      have hv : Token.Reblanked ⟨kind, String.ofList (c :: x), leading, trailing⟩ v :=
        ⟨rfl, hu.leading, hu.trailing⟩
      obtain ⟨leading₃, rest', vs, hspell, hleading₃, hsame, hcuts, hall⟩ := ih (.some hv) hus
      obtain ⟨hleading', hsame⟩ := hleading.reblanked hleading₃ hsame
      obtain ⟨htrailing', hstart⟩ := htrailing.reblanked hu.trailing hsame
      rw [← isLeftBound_of_reblanked hprevious hu.leading] at htoken
      obtain ⟨kind', htoken', hkind⟩ := token_of_sameStart htoken hstart (Nat.lt_succ_self _)
      refine ⟨u.leading, _, _, ?_, hu.leading, .alike ((hstart.append_left x).cons c),
        .token htoken' htrailing' hleading' (hcuts.of_previous rfl rfl), .cons
          ⟨⟨rfl, hu.leading, hu.trailing⟩, ?_⟩ hall⟩
      · rw [Token.spell_cons, hspell, Token.toList_fullText, hu.text, String.toList_ofList]
        simp only [List.append_assoc, List.cons_append]
      · rwa [isRightBound_eq_iff htrailing htrailing' hstart] at hkind

/-! ### Whole sources -/

/-- A source is the text of some tokens with other blanks around them. -/
def Tokens.Reblanked (ts : Tokens) (source : String) : Prop :=
  ∃ us, List.Forall₂ Token.Reblanked ts.all us ∧ source.toList = Token.spell us

/-- No blank stands behind the end of a line. -/
theorem blank_of_lineLength (h : lineLength (x ++ rest) = x.length) :
    rest.head?.any isHorizontal = false := by
  cases rest with
  | nil => rfl
  | cons c rest =>
    have hend := (length_takeWhile_append_iff.mp h).2
    refine Bool.eq_false_iff.mpr fun hblank => ?_
    have hnot := isLineEnd_of_blank hblank
    rw [List.head?_cons, Option.any_some, hnot] at hend
    cases hend

/-- Where no interpreter is named, none comes to be named. -/
theorem interpreterLine_of_sameStart {fuel pos : Nat} {previous : Option Token} {leading : Trivia}
    {ts : Tokens} (hs : CutsOff false rest s) (ht : CutsOff false rest' t) (hst : Trivia.Reblanked s t)
    (h : tokensFrom fuel previous leading pos rest = .ok ts) (hstart : SameStart rest rest') :
    interpreterLine ((Trivia.text t).toList ++ rest') = ([], (Trivia.text t).toList ++ rest') := by
  cases ht with
  | done hnone =>
    rw [Trivia.toList_text_nil, List.nil_append]
    cases hst
    exact interpreterLine_of_startsAlike h (hstart.startsAlike (blank_of_none hs.triviaPiece?_rest))
  | @piece p t hpiece _ =>
    rw [Trivia.toList_text_cons, List.append_assoc]
    exact interpreterLine_of_head?_ne (head?_ne_hash hpiece)

/-- **A source with other blanks** is cut into tokens again. -/
theorem exists_tokens_of_reblanked {source source' : String} {ts : Tokens}
    (h : tokens source = .ok ts) (hsource : ts.Reblanked source') :
    ∃ vs, tokens source' = .ok vs ∧ List.Forall₂ Token.Recut ts.all vs.all := by
  obtain ⟨line, t, rest, rfl, htrivia, hfrom⟩ := tokens_eq_ok h
  obtain ⟨us, hus, hspell⟩ := hsource
  have hline := congrArg List.length (toList_interpreterLine source.toList)
  have hrest := congrArg List.length (toList_trivia _ _ _ _ htrivia)
  rw [List.length_append] at hline hrest
  have hcuts := cutsOff_of_trivia (by omega) htrivia
  obtain ⟨leading', rest', vs, hspell', hleading, hstart, hvs, hall⟩ :=
    (cuts_of_tokensFrom hfrom (by omega)).reblanked .none hus
  rw [hspell'] at hspell
  have hlex : ∀ fuel pos, rest'.length < fuel → tokensFrom fuel none leading' pos rest' = .ok vs :=
    fun fuel pos hfuel => hvs.tokensFrom_eq pos hfuel
  refine ⟨vs, ?_, hall⟩
  rcases interpreterLine_cases source.toList with hnone | ⟨w, rest₀, -, hw, hsome⟩
  · rw [hnone] at hleading
    obtain ⟨hcuts', -⟩ := hcuts.reblanked hleading hstart
    have hline' : interpreterLine source'.toList = ([], (Trivia.text leading').toList ++ rest') := by
      rw [hspell]
      exact interpreterLine_of_sameStart hcuts hcuts' hleading hfrom hstart
    exact tokens_of_line hline' hcuts' hlex
  · -- the line that names an interpreter has no blanks behind it, since it ends with its line
    rw [hsome, List.singleton_append] at hleading
    cases hleading with
    | @cons _ p _ t' hp ht' =>
      cases hp
      obtain ⟨hcuts', hsame⟩ := hcuts.reblanked ht' hstart
      rw [hsome] at htrivia
      rw [toList_trivia _ _ _ _ htrivia] at hsame
      have halike := hsame.startsAlike (blank_of_lineLength hw)
      have hline' := interpreterLine_eq halike.head?_eq hw
      rw [Trivia.toList_text_cons, String.toList_ofList, List.append_assoc] at hspell
      rw [← List.cons_append, ← List.cons_append, ← hspell] at hline'
      exact tokens_of_line hline' hcuts' hlex

/-- **Sources with other blanks** are both rejected, or both cut into tokens, with the same texts in the
same order.  A token is of the same kind in both, unless it is an operator behind which blanks start with a
vertical tab or a form feed in only one of them: these two characters do not keep an operator from being
bound to the right, as a space and a tab do. -/
theorem tokens_reblanked {source source' : String}
    (h : ∀ ts, tokens source = .ok ts → ts.Reblanked source')
    (h' : ∀ ts, tokens source' = .ok ts → ts.Reblanked source) :
    (∃ e e', tokens source = .error e ∧ tokens source' = .error e') ∨
    ∃ ts ts', tokens source = .ok ts ∧ tokens source' = .ok ts' ∧
      List.Forall₂ Token.Recut ts.all ts'.all := by
  cases hsource : tokens source with
  | ok ts =>
    obtain ⟨ts', hts', hall⟩ := exists_tokens_of_reblanked hsource (h ts hsource)
    exact .inr ⟨ts, ts', rfl, hts', hall⟩
  | error e =>
    cases hsource' : tokens source' with
    | error e' => exact .inl ⟨e, e', rfl, rfl⟩
    | ok ts' =>
      obtain ⟨ts, hts, -⟩ := exists_tokens_of_reblanked hsource' (h' ts' hsource')
      rw [hsource] at hts
      cases hts

/-- The tokens of a sum with `blank` behind its operator. -/
def sumTokens (operator : SyntaxKind) (blank : String) : Tokens :=
  ⟨[⟨.integerLiteral, "1", [], [⟨.whitespace, " "⟩]⟩, ⟨operator, "+", [], [⟨.whitespace, blank⟩]⟩,
    ⟨.integerLiteral, "2", [], []⟩], ⟨.endOfFile, "", [], []⟩⟩

/-- In front of a vertical tab an operator is a prefix, in front of a space it is binary. -/
theorem tokens_reblanked_vertical_tab :
    tokens "1 +\x0b2" = .ok (sumTokens .prefixOperator "\x0b") ∧
    tokens "1 + 2" = .ok (sumTokens .binaryOperator " ") ∧
    (∀ ts, tokens "1 +\x0b2" = .ok ts → ts.Reblanked "1 + 2") ∧
    (∀ ts, tokens "1 + 2" = .ok ts → ts.Reblanked "1 +\x0b2") ∧
    ∃ ts ts', tokens "1 +\x0b2" = .ok ts ∧ tokens "1 + 2" = .ok ts' ∧
      List.Forall₂ Token.Recut ts.all ts'.all := by
  have hvertical : tokens "1 +\x0b2" = .ok (sumTokens .prefixOperator "\x0b") := by decide +kernel
  have hspace : tokens "1 + 2" = .ok (sumTokens .binaryOperator " ") := by decide +kernel
  have hall : ∀ {k k' : SyntaxKind} {s t : String}, IsBlanks s.toList → IsBlanks t.toList →
      List.Forall₂ Token.Reblanked (sumTokens k s).all (sumTokens k' t).all := fun hs ht =>
    .cons ⟨rfl, .nil, .cons (.same _) .nil⟩ (.cons ⟨rfl, .nil, .cons (.blanks hs ht) .nil⟩
      (.cons ⟨rfl, .nil, .nil⟩ (.cons ⟨rfl, .nil, .nil⟩ .nil)))
  have h : ∀ ts, tokens "1 +\x0b2" = .ok ts → ts.Reblanked "1 + 2" := by
    intro ts hts
    rw [hvertical] at hts
    cases hts
    exact ⟨(sumTokens .binaryOperator " ").all, hall (by decide) (by decide), by decide⟩
  have h' : ∀ ts, tokens "1 + 2" = .ok ts → ts.Reblanked "1 +\x0b2" := by
    intro ts hts
    rw [hspace] at hts
    cases hts
    exact ⟨(sumTokens .prefixOperator "\x0b").all, hall (by decide) (by decide), by decide⟩
  refine ⟨hvertical, hspace, h, h', ?_⟩
  rcases tokens_reblanked h h' with ⟨e, e', he, -⟩ | hboth
  · rw [hvertical] at he
    cases he
  · exact hboth

end Lexer

end SwiftTidy
