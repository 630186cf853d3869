import SwiftTidy.Proofs.Parse.Cutting
import SwiftTidy.Proofs.Parse.Releading

/-!
# Texts without some of their semicolons

`Token.Sheds M o ts us` says that `us` is `ts` without the tokens at the marks, whose trivia goes to the
token in front of them unless there is nothing but blanks.  The text of what is left is cut into tokens
that no grammar tells from the others (`Lexer.exists_tokens`), where each semicolon may be left out: what
follows it starts anew, what stands in front of it may end a statement and stays the lexeme that it is,
and no declaration starts where none did (`Token.maySpare`).
-/

namespace SwiftTidy

open Grammar

namespace Token

/-! ### What is left out, and where -/

/-- Whether the lexeme of a token, which starts at byte `o`, starts at one of the positions. -/
def startsAt (ps : List Nat) (o : Nat) (t : Token) : Bool := ps.contains (o + t.leading.len)

/-- The tokens, the first of which starts at byte `o`, without those at the positions. -/
def leaveOut (ps : List Nat) : (o : Nat) → List Token → List Token
  | _, [] => []
  | o, t :: ts =>
    if t.startsAt ps o then leaveOut ps (o + t.fullLen) ts else t :: leaveOut ps (o + t.fullLen) ts

/-- The marks of the tokens at the positions. -/
def marks (ps : List Nat) : (o : Nat) → List Token → Marks
  | _, [], _ => none
  | o, t :: ts, i =>
    if i = o then if t.startsAt ps o then some (headKind ts) else none
    else marks ps (o + t.fullLen) ts i

/-- The trivia between the lexemes of a token and of the one behind the semicolon `s`, as far as it is
not in front of that one. -/
def gap (t s : Token) : Trivia := t.trailing ++ s.leading ++ s.trailing

/-- The trivia behind a token when the semicolon behind it is left out. -/
def trailingWithout (t s : Token) : Trivia := if (gap t s).isWhitespaceOnly then [] else gap t s

/-- Whether a token is the same in front of the trivia: an operator is bound to the right by vertical
tabs and form feeds, and a slash opens a comment together with another one. -/
def staysBefore (t : Token) (trivia : Trivia) : Bool :=
  !Lexer.isRightBound trivia.text.toList &&
    !(t.text.toList.getLast? == some '/' && Lexer.startsComment ('/' :: trivia.text.toList))

/-- Whether a token, which starts at byte `o`, may stand in front of the others without the semicolon
behind it, if that is at one of the positions. -/
def mayEnd (ps : List Nat) (o : Nat) (t : Token) : List Token → Bool
  | [] => true
  | s :: ts =>
    !s.startsAt ps (o + t.fullLen) || t.endsBefore (headKind ts) && t.staysBefore (gap t s)

/-- Whether the semicolons at the positions may be left out of the tokens, the first of which starts at
byte `o`. -/
def maySpare (ps : List Nat) : (o : Nat) → List Token → Bool
  | _, [] => true
  | o, t :: ts =>
    (if t.startsAt ps o then startAnew ts && !reachIn ts
    else
      (startsDecl (ts.length + 1) (t :: ts) ==
        startsDecl ((leaveOut ps (o + t.fullLen) ts).length + 1) (t :: leaveOut ps (o + t.fullLen) ts)) &&
      mayEnd ps o t ts) &&
    maySpare ps (o + t.fullLen) ts

/-- Tokens without those at the marks, whose trivia goes to the token in front of them. -/
inductive Sheds (M : Marks) : Nat → List Token → List Token → Prop
  | nil {o : Nat} : Sheds M o [] []
  | keep {o : Nat} {t : Token} {ts us : List Token} (hmark : M o = none)
      (hrest : Sheds M (o + t.fullLen) ts us) : Sheds M o (t :: ts) (t :: us)
  | drop {o : Nat} {t s : Token} {ts us : List Token} (hmark : M o = none)
      (hdrop : (M (o + t.fullLen)).isSome = true)
      (hrest : Sheds M (o + t.fullLen + s.fullLen) ts us) :
      Sheds M o (t :: s :: ts) ({ t with trailing := trailingWithout t s } :: us)

variable {ps : List Nat} {M : Marks} {o i : Nat} {t s : Token} {ts us : List Token}

/-! ### Marks -/

theorem startsAt_iff : t.startsAt ps o = true ↔ o + t.leading.len ∈ ps := by
  rw [startsAt, List.contains_eq_mem, decide_eq_true_eq]

/-- In front of the tokens there is no mark. -/
theorem marks_of_lt (h : i < o) (ts : List Token) : marks ps o ts i = none := by
  induction ts generalizing o with
  | nil => rfl
  | cons t ts ih =>
    rw [marks, if_neg (Nat.ne_of_lt h)]
    exact ih (Nat.lt_of_lt_of_le h (Nat.le_add_right _ _))

theorem marks_self (t : Token) (ts : List Token) :
    marks ps o (t :: ts) o = if t.startsAt ps o then some (headKind ts) else none := by
  rw [marks, if_pos rfl]

theorem marks_cons_of_lt (h : o < i) (t : Token) (ts : List Token) :
    marks ps o (t :: ts) i = marks ps (o + t.fullLen) ts i := by
  rw [marks, if_neg (Nat.ne_of_gt h)]

/-- The first token is left out if and only if there is a mark in front of it. -/
theorem Sheds.head_eq_none (h : Sheds M o (t :: ts) us) : M o = none := by
  cases h with
  | keep hmark => exact hmark
  | drop hmark => exact hmark

/-- Behind a token the marks are those of the tokens behind it. -/
theorem marks_behind (hM : ∀ i, o ≤ i → M i = marks ps o (t :: ts) i) (hlen : 0 < t.fullLen) :
    ∀ i, o + t.fullLen ≤ i → M i = marks ps (o + t.fullLen) ts i := by
  intro i hi
  rw [hM i (by omega), marks_cons_of_lt (by omega)]

/-- There are no marks in a token that is kept. -/
theorem clear_of_marks (hM : ∀ i, o ≤ i → M i = marks ps o (t :: ts) i) (hstart : M o = none) :
    t.startsAt ps o = false ∧ ∀ i, i = 0 ∨ i < t.fullLen → M (o + i) = none := by
  constructor
  · rw [hM o (Nat.le_refl o), marks_self, ite_eq_right_iff] at hstart
    rw [← Bool.not_eq_true]
    exact fun hmark => by cases hstart hmark
  · rintro i (rfl | hi)
    · exact hstart
    · rcases Nat.eq_zero_or_pos i with rfl | hpos
      · exact hstart
      · rw [hM _ (Nat.le_add_right o i), marks_cons_of_lt (by omega), marks_of_lt (by omega)]

theorem maySpare_cons (hkept : t.startsAt ps o = false) (h : maySpare ps o (t :: ts) = true) :
    startsDecl (ts.length + 1) (t :: ts) =
        startsDecl ((leaveOut ps (o + t.fullLen) ts).length + 1) (t :: leaveOut ps (o + t.fullLen) ts) ∧
      mayEnd ps o t ts = true ∧ maySpare ps (o + t.fullLen) ts = true := by
  rw [maySpare, hkept, if_neg Bool.false_ne_true, Bool.and_eq_true, Bool.and_eq_true, beq_iff_eq,
    and_assoc] at h
  exact h

/-- The semicolon `s` behind the token `t`, which starts at byte `o`, may be left out and nothing up to it
is. -/
structure IsSpared (ps : List Nat) (M : Marks) (o : Nat) (t s : Token) (ts : List Token) : Prop where
  clear : ∀ i, i = 0 ∨ i < t.fullLen → M (o + i) = none
  mark : M (o + t.fullLen) = some (headKind ts)
  kind : s.kind = .semicolon
  kept : t.startsAt ps o = false
  dropped : s.startsAt ps (o + t.fullLen) = true
  anew : startAnew ts = true
  reach : reachIn ts = false
  ends : t.endsBefore (headKind ts) = true
  stays : t.staysBefore (gap t s) = true
  decl : startsDecl ((s :: ts).length + 1) (t :: s :: ts) =
    startsDecl ((leaveOut ps (o + t.fullLen + s.fullLen) ts).length + 1)
      (t :: leaveOut ps (o + t.fullLen + s.fullLen) ts)

/-- A mark behind the first token is that of a semicolon that may be left out. -/
theorem isSpared_of_maySpare (hM : ∀ i, o ≤ i → M i = marks ps o (t :: s :: ts) i) (hlen : 0 < t.fullLen)
    (hkinds : ∀ p ∈ placed o (t :: s :: ts), p.2.startsAt ps p.1 = true → p.2.kind = .semicolon)
    (hspare : maySpare ps o (t :: s :: ts) = true) (hstart : M o = none)
    (hdrop : (M (o + t.fullLen)).isSome = true) :
    IsSpared ps M o t s ts ∧ maySpare ps (o + t.fullLen + s.fullLen) ts = true := by
  obtain ⟨hkept, hclear⟩ := clear_of_marks hM hstart
  have hmark := marks_behind hM hlen _ (Nat.le_refl _)
  rw [marks_self] at hmark
  have hdropped : s.startsAt ps (o + t.fullLen) = true := by
    by_contra hnot
    rw [hmark, if_neg hnot] at hdrop
    cases hdrop
  rw [if_pos hdropped] at hmark
  obtain ⟨hdecl, hends, hspare⟩ := maySpare_cons hkept hspare
  rw [leaveOut, if_pos hdropped] at hdecl
  rw [mayEnd, hdropped, Bool.not_true, Bool.false_or, Bool.and_eq_true] at hends
  rw [maySpare, hdropped, if_pos rfl, Bool.and_eq_true, Bool.and_eq_true, Bool.not_eq_true'] at hspare
  have hkind : s.kind = .semicolon := hkinds (o + t.fullLen, s) (by simp [placed]) hdropped
  exact ⟨⟨hclear, hmark, hkind, hkept, hdropped, hspare.1.1, hspare.1.2, hends.1, hends.2, hdecl⟩, hspare.2⟩

/-- A declaration starts at the tokens that are left where it did at those that were there. -/
theorem startsDecl_eq {u : Token} {vs : List Token} (hu : u.stripped = t.stripped)
    (hus : us.map stripped = vs.map stripped)
    (h : startsDecl (ts.length + 1) (t :: ts) = startsDecl (vs.length + 1) (t :: vs)) :
    startsDecl (ts.length + 1) (t :: ts) = startsDecl (us.length + 1) (u :: us) := by
  have hlength := congrArg List.length hus
  rw [List.length_map, List.length_map] at hlength
  rw [h, hlength, ← startsDecl_map_stripped _ (u :: us), ← startsDecl_map_stripped _ (t :: vs),
    List.map_cons, List.map_cons, hu, hus]

namespace IsSpared

variable {u : Token} {b : Bool}

theorem leaveOut_eq (h : IsSpared ps M o t s ts) :
    leaveOut ps o (t :: s :: ts) = t :: leaveOut ps (o + t.fullLen + s.fullLen) ts := by
  rw [leaveOut, if_neg (by rw [h.kept]; exact Bool.false_ne_true), leaveOut, if_pos h.dropped]

/-- No grammar tells the tokens from those without the semicolon. -/
theorem enters (h : IsSpared ps M o t s ts) (hu : u.stripped = t.stripped)
    (hleading : b = true → u.leading.isEmpty = t.leading.isEmpty ∧
      u.leading.containsNewline = t.leading.containsNewline)
    (hus : us.map stripped = (leaveOut ps (o + t.fullLen + s.fullLen) ts).map stripped)
    (hrest : Enters M true (o + t.fullLen + s.fullLen) ts us) : Enters M b o (t :: s :: ts) (u :: us) := by
  obtain ⟨hkind, htext, -, -⟩ := Token.mk.inj hu
  refine .keep h.clear ⟨hkind, htext, fun hbehind => (hleading hbehind).1, fun hbehind => (hleading hbehind).2⟩
    (fun hnone _ _ => ?_) (fun next hsome => ?_) (startsDecl_eq hu hus h.decl)
    (.drop h.mark h.kind h.anew h.reach hrest)
  · rw [h.mark] at hnone
    cases hnone
  · rw [h.mark] at hsome
    rw [← Option.some.inj hsome]
    exact h.ends

end IsSpared

end Token

namespace Lexer

open Token Trivia

variable {x rest rest' : List Char} {s t : Trivia}

/-! ### Where lexemes end -/

/-- A piece of trivia starts with the end of a line, with a blank, or with the two characters that open a
comment. -/
theorem triviaPiece?_front {trailing : Bool} {c : Char} {w : List Char} {k : TriviaKind}
    (h : triviaPiece? trailing (c :: (w ++ rest)) = .ok (some (k, w.length + 1))) :
    isLineEnd c = true ∨ isHorizontal c = true ∨
      c = '/' ∧ ∃ d v, w = d :: v ∧ (d == '/' || d == '*') = true := by
  have h := triviaPiece?_false h
  -- a comment has two characters at least
  have htwo : ∀ {n : Nat}, n + 2 = w.length + 1 → ∀ {d : Char}, (w ++ rest).head? = some d →
      ∃ v, w = d :: v := by
    intro n hn d hd
    cases w with
    | nil => cases hn
    | cons e v => exact ⟨v, by rw [Option.some.inj hd]⟩
  by_cases hend : isLineEnd c = true
  · exact .inl hend
  have hne : c ≠ '\n' ∧ c ≠ '\r' := by
    rw [isLineEnd, Bool.or_eq_true, not_or, beq_iff_eq, beq_iff_eq] at hend
    exact hend
  rw [triviaPiece?_cons, if_neg hne.1, if_neg hne.2] at h
  right
  split_ifs at h with hline hblock hblank
  · obtain ⟨v, hv⟩ := htwo (Prod.mk.inj (Option.some.inj (Except.ok.inj h))).2 hline.2
    exact .inr ⟨hline.1, _, _, hv, rfl⟩
  · split at h
    · obtain ⟨v, hv⟩ := htwo (Prod.mk.inj (Option.some.inj (Except.ok.inj h))).2 hblock.2
      exact .inr ⟨hblock.1, _, _, hv, rfl⟩
    · cases h
  · exact .inl hblank
  · cases h

/-- In front of trivia every lexeme ends, and what stands behind the trivia does not matter. -/
theorem CutsOff.isBreak {trailing : Bool} (h : CutsOff trailing rest s) (hne : s ≠ [])
    (rest' : List Char) :
    isBreak ((Trivia.text s).toList ++ rest') = true ∧
      isRightBound ((Trivia.text s).toList ++ rest') = isRightBound (Trivia.text s).toList ∧
      ((Trivia.text s).toList ++ rest').head? = (Trivia.text s).toList.head? := by
  cases h with
  | done => exact absurd rfl hne
  | @piece p t hpiece ht =>
    obtain ⟨c, w, hp⟩ := List.exists_cons_of_length_pos (triviaPiece?_pos hpiece).1
    rw [Trivia.toList_text_cons, hp]
    rw [hp] at hpiece
    have hfront := triviaPiece?_front hpiece
    have hcomment : ∀ y, startsComment (c :: (w ++ y)) = startsComment (c :: w) := by
      intro y
      rw [startsComment_cons, startsComment_cons]
      rcases hfront with hend | hblank | ⟨rfl, d, v, rfl, -⟩
      · have hslash : c ≠ '/' := by
          rintro rfl
          exact absurd hend (by decide)
        rw [beq_eq_false_iff_ne.mpr hslash, Bool.false_and, Bool.false_and]
      · have hslash : c ≠ '/' := by
          rintro rfl
          exact absurd hblank (by decide)
        rw [beq_eq_false_iff_ne.mpr hslash, Bool.false_and, Bool.false_and]
      · rfl
    refine ⟨?_, ?_, rfl⟩
    · rw [List.append_assoc, List.cons_append, Lexer.isBreak, hcomment]
      rcases hfront with hend | hblank | ⟨rfl, d, v, rfl, hd⟩
      · rw [hend]
        simp
      · rw [hblank]
        simp
      · rw [startsComment_cons, List.head?_cons, Option.any_some, hd]
        simp
    · rw [List.append_assoc, List.cons_append, List.cons_append, isRightBound, isRightBound, hcomment,
        hcomment]

/-- Where a line ends every lexeme ends, and no operator is bound to what follows. -/
theorem isBreak_of_isLineEnd {c : Char} (cs : List Char) (h : isLineEnd c = true) :
    isBreak (c :: cs) = true ∧ isRightBound (c :: cs) = false := by
  rw [isLineEnd, Bool.or_eq_true, beq_iff_eq, beq_iff_eq] at h
  rcases h with rfl | rfl
  · exact ⟨rfl, rfl⟩
  · exact ⟨rfl, rfl⟩

/-- Behind the trivia on its line a token has the end of the line, or nothing of trivia. -/
theorem CutsOff.head_isLineEnd (h : CutsOff false rest s) (hne : s ≠ [])
    (hnone : triviaPiece? true ((Trivia.text s).toList ++ rest) = .ok none) :
    ∃ c cs, (Trivia.text s).toList = c :: cs ∧ isLineEnd c = true := by
  cases h with
  | done => exact absurd rfl hne
  | @piece p t hpiece ht =>
    obtain ⟨c, w, hp⟩ := List.exists_cons_of_length_pos (triviaPiece?_pos hpiece).1
    rw [Trivia.toList_text_cons, hp] at hnone ⊢
    refine ⟨c, w ++ (Trivia.text t).toList, rfl, ?_⟩
    by_contra hend
    rw [Bool.not_eq_true] at hend
    rw [hp, List.cons_append, ← triviaPiece?_trailing _ hend] at hpiece
    rw [List.append_assoc, List.cons_append, hpiece] at hnone
    cases hnone

/-! ### Around a semicolon -/

section Gap

variable {a l b n : Trivia} {cs : List Char}

/-- In front of a semicolon and the trivia around it every lexeme ends, and no operator is bound to it. -/
theorem isBreak_semicolon (ha : CutsOff true ((Trivia.text l).toList ++ ';' :: cs) a)
    (hl : CutsOff false (';' :: cs) l) (hstays : isRightBound (Trivia.text (a ++ l ++ b)).toList = false) :
    isBreak ((Trivia.text a).toList ++ ((Trivia.text l).toList ++ ';' :: cs)) = true ∧
      isRightBound ((Trivia.text a).toList ++ ((Trivia.text l).toList ++ ';' :: cs)) = false := by
  by_cases hanil : a = []
  · subst hanil
    rw [Trivia.toList_text_nil, List.nil_append]
    by_cases hlnil : l = []
    · subst hlnil
      exact ⟨rfl, rfl⟩
    · obtain ⟨c, w, hw, hend⟩ := hl.head_isLineEnd hlnil ha.triviaPiece?_rest
      rw [hw]
      exact isBreak_of_isLineEnd _ hend
  · obtain ⟨hbreak, hbound, -⟩ := ha.isBreak hanil ((Trivia.text l).toList ++ ';' :: cs)
    obtain ⟨-, hbound', -⟩ := ha.isBreak hanil (Trivia.text (l ++ b)).toList
    rw [List.append_assoc, Trivia.toList_text_append, hbound'] at hstays
    exact ⟨hbreak, hbound.trans hstays⟩

/-- Runs of trivia around a semicolon come together, in front of a text that starts alike. -/
theorem exists_joined (ha : CutsOff true ((Trivia.text l).toList ++ ';' :: cs) a)
    (hl : CutsOff false (';' :: cs) l) (hb : CutsOff true ((Trivia.text n).toList ++ rest) b)
    (hn : CutsOff false rest n) (halike : StartsAlike rest rest') :
    ∃ t, CutsOff false rest' t ∧
      (Trivia.text t).toList = (Trivia.text (a ++ l ++ b)).toList ++ (Trivia.text n).toList ∧
      (n.containsNewline = true → t.containsNewline = true) := by
  obtain ⟨t₁, ht₁, htext₁, hnewline₁⟩ := hb.join (hn.congr halike) fun _ =>
    (halike.append_left (Trivia.text n).toList).head?_eq.symm
  obtain ⟨t₂, ht₂, htext₂, hnewline₂⟩ := hl.join ht₁ fun hall => absurd hall Bool.false_ne_true
  obtain ⟨t₃, ht₃, htext₃, hnewline₃⟩ := ha.join ht₂ fun hall => by
    -- the line ends in front of the semicolon
    cases hl with
    | done =>
      rw [Trivia.toList_text_nil, List.nil_append] at hall
      exact absurd hall Bool.false_ne_true
    | @piece p l hpiece _ =>
      obtain ⟨d, v, hd⟩ := List.exists_cons_of_length_pos (triviaPiece?_pos hpiece).1
      rw [htext₂, Trivia.toList_text_cons, hd]
      rfl
  refine ⟨t₃, ht₃, ?_, fun hnewline => ?_⟩
  · rw [htext₃, htext₂, htext₁, Trivia.toList_text_append, Trivia.toList_text_append]
    simp only [List.append_assoc]
  · rw [hnewline₃, hnewline₂, hnewline₁, hnewline]
    simp

/-- What stands for trivia `gap` with a semicolon in it and the trivia `n` behind it: `u` is behind the
lexeme in front, where every lexeme ends, and `v` is in front of what follows. -/
structure Rejoined (gap n : Trivia) (rest : List Char) (u v : Trivia) : Prop where
  text : (Trivia.text u).toList ++ (Trivia.text v).toList =
    (Trivia.text (if gap.isWhitespaceOnly then [] else gap)).toList ++ (Trivia.text n).toList
  behind : CutsOff true ((Trivia.text v).toList ++ rest) u
  front : CutsOff false rest v
  newline : n.containsNewline = true → v.containsNewline = true
  breaks : isBreak ((Trivia.text u).toList ++ ((Trivia.text v).toList ++ rest)) = true
  unbound : isRightBound ((Trivia.text u).toList ++ ((Trivia.text v).toList ++ rest)) = false
  comment : startsComment ('/' :: (Trivia.text gap).toList) = false →
    startsComment ('/' :: ((Trivia.text u).toList ++ ((Trivia.text v).toList ++ rest))) = false

/-- Nothing is left of blanks: what is behind them starts a line, or nothing is. -/
theorem rejoined_of_blank {gap : Trivia} (hwhite : gap.isWhitespaceOnly = true)
    (hb : CutsOff true ((Trivia.text n).toList ++ rest) b) (hn : CutsOff false rest n)
    (halike : StartsAlike rest rest') (hanew : rest = [] ∨ n ≠ []) : Rejoined gap n rest' [] n := by
  have hedge : isBreak ((Trivia.text n).toList ++ rest') = true ∧
      isRightBound ((Trivia.text n).toList ++ rest') = false ∧
      startsComment ('/' :: ((Trivia.text n).toList ++ rest')) = false := by
    by_cases hnil : n = []
    · obtain rfl := hanew.resolve_right (not_not_intro hnil)
      subst hnil
      rw [List.head?_eq_none_iff.mp halike.head?_eq.symm]
      exact ⟨rfl, rfl, rfl⟩
    · obtain ⟨c, w, hw, hend⟩ := hn.head_isLineEnd hnil hb.triviaPiece?_rest
      rw [hw, List.cons_append]
      obtain ⟨hbreak, hbound⟩ := isBreak_of_isLineEnd (w ++ rest') hend
      refine ⟨hbreak, hbound, ?_⟩
      rw [startsComment_cons, List.head?_cons, Option.any_some]
      rw [isLineEnd, Bool.or_eq_true, beq_iff_eq, beq_iff_eq] at hend
      rcases hend with rfl | rfl <;> rfl
  obtain ⟨hbreak, hbound, hcomment⟩ := hedge
  exact ⟨by rw [if_pos hwhite], .done (triviaPiece?_none_congr (halike.append_left _) hb.triviaPiece?_rest),
    hn.congr halike, id, hbreak, hbound, fun _ => hcomment⟩

/-- What is not empty starts with one of the three runs. -/
theorem exists_front (ha : CutsOff true ((Trivia.text l).toList ++ ';' :: cs) a)
    (hl : CutsOff false (';' :: cs) l) (hb : CutsOff true ((Trivia.text n).toList ++ rest) b)
    (hne : a ++ l ++ b ≠ []) :
    ∃ s s' : Trivia, a ++ l ++ b = s ++ s' ∧ s ≠ [] ∧ ∃ trailing r, CutsOff trailing r s := by
  by_cases hanil : a = []
  · by_cases hlnil : l = []
    · subst hanil hlnil
      exact ⟨b, [], (List.append_nil _).symm, hne, _, _, hb⟩
    · exact ⟨l, b, by rw [hanil, List.nil_append], hlnil, _, _, hl⟩
  · exact ⟨a, l ++ b, List.append_assoc _ _ _, hanil, _, _, ha⟩

/-- **Around a semicolon that is left out**: what is left of the trivia is cut off again, behind the token
in front and in front of the next one.  In front of it every lexeme ends. -/
theorem exists_rejoined (ha : CutsOff true ((Trivia.text l).toList ++ ';' :: cs) a)
    (hl : CutsOff false (';' :: cs) l) (hb : CutsOff true ((Trivia.text n).toList ++ rest) b)
    (hn : CutsOff false rest n) (halike : StartsAlike rest rest') (hanew : rest = [] ∨ n ≠ [])
    (hstays : isRightBound (Trivia.text (a ++ l ++ b)).toList = false) :
    ∃ u v, Rejoined (a ++ l ++ b) n rest' u v := by
  by_cases hwhite : (a ++ l ++ b).isWhitespaceOnly = true
  · exact ⟨[], n, rejoined_of_blank hwhite hb hn halike hanew⟩
  obtain ⟨t, ht, htext, hnewline⟩ := exists_joined ha hl hb hn halike
  obtain ⟨u, v, rfl, hu, hv, hnewline'⟩ := ht.exists_split
  rw [Trivia.toList_text_append] at htext
  -- the first piece of what is left was the first one before
  obtain ⟨s, s', hrun, hne, trailing, r, hs⟩ := exists_front ha hl hb fun hnil => hwhite (by rw [hnil]; rfl)
  have hall : (Trivia.text u).toList ++ ((Trivia.text v).toList ++ rest') =
      (Trivia.text s).toList ++ ((Trivia.text s').toList ++ ((Trivia.text n).toList ++ rest')) := by
    rw [← List.append_assoc, htext, hrun, Trivia.toList_text_append, List.append_assoc, List.append_assoc]
  obtain ⟨hbreak, hbound, hhead⟩ := hs.isBreak hne
    ((Trivia.text s').toList ++ ((Trivia.text n).toList ++ rest'))
  obtain ⟨-, hbound', hhead'⟩ := hs.isBreak hne (Trivia.text s').toList
  rw [hrun, Trivia.toList_text_append] at hstays
  refine ⟨u, v, ?_, hu, hv, fun h => hnewline' (hnewline h), ?_, ?_, fun hcomment => ?_⟩
  · rw [if_neg hwhite, htext]
  · rw [hall, hbreak]
  · rw [hall]
    exact hbound.trans (hbound'.symm.trans hstays)
  · rw [hrun, Trivia.toList_text_append, startsComment_cons, hhead'] at hcomment
    rwa [hall, startsComment_cons, hhead]

end Gap

/-! ### The tokens of what is left -/

/-- A text does not start with a comment where no trivia is cut off. -/
theorem startsComment_of_none {cs : List Char} (h : triviaPiece? false cs = .ok none) :
    startsComment cs = false := by
  cases cs with
  | nil => rfl
  | cons c cs =>
    rw [triviaPiece?_eq_none_iff] at h
    split_ifs at h with hend
    exact h.2

variable {ps : List Nat} {M : Marks} {o : Nat} {previous : Option Token} {leading : Trivia}
  {cs cs' : List Char} {ts : Tokens} {vs : List Token}

/-- What is known of a text `cs'` that is left of `cs`, without the semicolons of the tokens `ts` that
are at the marks: with the trivia in front it is spelled by `vs`, it starts as it did, and it is cut into
tokens that no grammar tells from those that are left. -/
structure IsLeft (ps : List Nat) (M : Marks) (o : Nat) (previous : Option Token) (leading : Trivia)
    (cs : List Char) (ts : Tokens) (vs : List Token) (cs' : List Char) : Prop where
  spell : Token.spell vs = (Trivia.text leading).toList ++ cs'
  startsAlike : StartsAlike cs cs'
  cuts : ∀ previous' leading',
    (ts.pending ≠ [] → isLeftBound previous' leading' = isLeftBound previous leading) →
    ∃ us, Cuts previous' leading' cs' us ∧
      us.pending.map stripped = (leaveOut ps o ts.pending).map stripped ∧
      ∀ b, (b = true → ts.pending ≠ [] → leading'.isEmpty = leading.isEmpty ∧
        leading'.containsNewline = leading.containsNewline) →
        Enters M b o ts.pending us.pending

/-- The trivia in front of a text is that of its first token, unless the file ends there. -/
theorem Cuts.pending_cases (h : Cuts previous leading cs ts) :
    (ts.pending = [] ∧ cs = []) ∨ ∃ t us, ts.pending = t :: us ∧ t.leading = leading := by
  cases h with
  | done => exact .inl ⟨rfl, rfl⟩
  | token => exact .inr ⟨_, _, rfl, rfl⟩

/-- In front of what starts anew there is the end of a line, unless it is the end of the file. -/
theorem Cuts.newline_of_startAnew (h : Cuts previous leading cs ts) (hanew : startAnew ts.pending = true) :
    (cs = [] ∨ leading ≠ []) ∧ (ts.pending ≠ [] → leading.containsNewline = true) := by
  rcases h.pending_cases with ⟨hnil, hcs⟩ | ⟨t, us, ht, rfl⟩
  · exact ⟨.inl hcs, fun hne => absurd hnil hne⟩
  · rw [ht, startAnew, Bool.and_eq_true] at hanew
    refine ⟨.inr fun hnil => ?_, fun _ => hanew.2⟩
    rw [hnil] at hanew
    cases hanew.2

namespace IsLeft

/-- At the end of the file nothing is left out. -/
theorem done (hmark : M o = none) : IsLeft ps M o previous leading [] ⟨[], ⟨.endOfFile, "", leading, []⟩⟩
    [⟨.endOfFile, "", leading, []⟩] [] where
  spell := by
    rw [Token.spell_cons, Token.spell_nil, Token.toList_fullText]
    simp
  startsAlike := .nil
  cuts _ _ _ := ⟨_, .done, rfl, fun _ _ => .nil hmark⟩

variable {kind : SyntaxKind} {c : Char} {trailing leading₂ : Trivia} {rest₂ rest₂' : List Char}

/-- A token is kept, and so is the trivia behind it. -/
theorem keep {t : Token} (ht : t = ⟨kind, String.ofList (c :: x), leading, trailing⟩)
    (htoken : token (x.length + 2) (isLeftBound previous leading)
      (c :: (x ++ ((Trivia.text trailing).toList ++ ((Trivia.text leading₂).toList ++ rest₂)))) =
        .ok (kind, x.length + 1))
    (htrailing : CutsOff true ((Trivia.text leading₂).toList ++ rest₂) trailing)
    (hleading : CutsOff false rest₂ leading₂)
    (hclear : ∀ i, i = 0 ∨ i < t.fullLen → M (o + i) = none) (hnext : M (o + t.fullLen) = none)
    (hkept : t.startsAt ps o = false)
    (hdecl : startsDecl (ts.pending.length + 1) (t :: ts.pending) =
      startsDecl ((leaveOut ps (o + t.fullLen) ts.pending).length + 1)
        (t :: leaveOut ps (o + t.fullLen) ts.pending))
    (h : IsLeft ps M (o + t.fullLen) (some t) leading₂ rest₂ ts vs rest₂') :
    IsLeft ps M o previous leading
      (c :: (x ++ ((Trivia.text trailing).toList ++ ((Trivia.text leading₂).toList ++ rest₂))))
      ⟨t :: ts.pending, ts.endOfFile⟩ (t :: vs)
      (c :: (x ++ ((Trivia.text trailing).toList ++ ((Trivia.text leading₂).toList ++ rest₂')))) := by
  -- what follows the token starts as before, so the lexer cuts off the same token
  have halike := (h.startsAlike.append_left (Trivia.text leading₂).toList).append_left
    (Trivia.text trailing).toList
  constructor
  · rw [Token.spell_cons, h.spell, Token.toList_fullText, ht, String.toList_ofList]
    simp only [List.append_assoc, List.cons_append]
  · exact halike.append_left (c :: x)
  · intro previous' leading' hbound
    have hbound := hbound (List.cons_ne_nil _ _)
    obtain ⟨us, hcuts, hstripped, henters⟩ :=
      h.cuts (some ⟨kind, String.ofList (c :: x), leading', trailing⟩) leading₂ fun _ => by
        rw [ht]
        rfl
    refine ⟨_, .token ?_ (htrailing.congr (h.startsAlike.append_left _))
      (hleading.congr h.startsAlike) hcuts, ?_, fun b hb => ?_⟩
    · rw [hbound]
      exact token_of_startsAlike halike (Nat.lt_succ_self _) htoken
    · rw [List.map_cons, hstripped, leaveOut, if_neg (by rw [hkept]; exact Bool.false_ne_true),
        List.map_cons, ht]
      rfl
    · refine .keep hclear ⟨?_, ?_, fun hbehind => ?_, fun hbehind => ?_⟩ (fun _ _ _ => ?_) ?_
        (startsDecl_eq ?_ hstripped hdecl) (henters true fun _ _ => ⟨rfl, rfl⟩)
      · rw [ht]
      · rw [ht]
      · rw [ht]
        exact (hb hbehind (List.cons_ne_nil _ _)).1
      · rw [ht]
        exact (hb hbehind (List.cons_ne_nil _ _)).2
      · rw [ht]
      · intro next hsome
        rw [hnext] at hsome
        cases hsome
      · rw [ht]
        rfl

/-- A token in front of a semicolon that is left out, if the lexeme stays what it is in front of what is
left of the trivia. -/
theorem token_of_rejoined {gap u v n : Trivia} {rest₃' : List Char} {leftBound : Bool}
    (hstays : staysBefore ⟨kind, String.ofList (c :: x), leading, trailing⟩ gap = true)
    (hjoined : Rejoined gap n rest₃' u v) (hbreak : isBreak rest = true) (hbound : isRightBound rest = false)
    (htoken : token (x.length + 2) leftBound (c :: (x ++ rest)) = .ok (kind, x.length + 1)) :
    (startsComment (c :: (x ++ rest)) = false →
      StartsAlike (c :: (x ++ rest))
        (c :: (x ++ ((Trivia.text u).toList ++ ((Trivia.text v).toList ++ rest₃'))))) ∧
    token (x.length + 2) leftBound
      (c :: (x ++ ((Trivia.text u).toList ++ ((Trivia.text v).toList ++ rest₃')))) =
        .ok (kind, x.length + 1) := by
  rw [staysBefore, String.toList_ofList, Bool.and_eq_true, Bool.not_eq_true', Bool.not_eq_true'] at hstays
  have hopens : (c :: x).getLast? = some '/' → startsComment
      ('/' :: ((Trivia.text u).toList ++ ((Trivia.text v).toList ++ rest₃'))) = false := by
    intro hlast
    rw [hlast, beq_self_eq_true, Bool.true_and] at hstays
    exact hjoined.comment hstays.2
  constructor
  · intro hnone
    refine startsAlike_of_isBreak hbreak hjoined.breaks fun hc hx => ?_
    subst hc hx
    rw [hopens rfl]
    exact hnone
  · refine token_congr (.breaks hbreak hjoined.breaks) (fun _ => hbound.trans hjoined.unbound.symm)
      (fun _ hlast => hopens ?_) (Nat.lt_succ_self _) htoken
    rw [List.getLast?_cons, hlast]
    rfl

/-- The semicolon behind a token is left out. -/
theorem drop {t s : Token} {n : Trivia} {rest₃ rest₃' : List Char}
    (ht : t = ⟨kind, String.ofList (c :: x), leading, trailing⟩)
    (htoken : token (x.length + 2) (isLeftBound previous leading)
      (c :: (x ++ ((Trivia.text trailing).toList ++ ((Trivia.text s.leading).toList ++
        ';' :: ((Trivia.text s.trailing).toList ++ ((Trivia.text n).toList ++ rest₃)))))) =
        .ok (kind, x.length + 1))
    (ha : CutsOff true ((Trivia.text s.leading).toList ++
      ';' :: ((Trivia.text s.trailing).toList ++ ((Trivia.text n).toList ++ rest₃))) trailing)
    (hl : CutsOff false (';' :: ((Trivia.text s.trailing).toList ++ ((Trivia.text n).toList ++ rest₃)))
      s.leading)
    (hb : CutsOff true ((Trivia.text n).toList ++ rest₃) s.trailing) (hn : CutsOff false rest₃ n)
    (hnone : startsComment (c :: (x ++ ((Trivia.text trailing).toList ++ ((Trivia.text s.leading).toList ++
        ';' :: ((Trivia.text s.trailing).toList ++ ((Trivia.text n).toList ++ rest₃)))))) = false)
    (hspared : IsSpared ps M o t s ts.pending) (hrest : Cuts (some s) n rest₃ ts)
    (h : IsLeft ps M (o + t.fullLen + s.fullLen) (some s) n rest₃ ts vs rest₃') :
    ∃ cs', IsLeft ps M o previous leading
      (c :: (x ++ ((Trivia.text trailing).toList ++ ((Trivia.text s.leading).toList ++
        ';' :: ((Trivia.text s.trailing).toList ++ ((Trivia.text n).toList ++ rest₃))))))
      ⟨t :: s :: ts.pending, ts.endOfFile⟩ ({ t with trailing := trailingWithout t s } :: vs) cs' := by
  have hgap : gap t s = trailing ++ s.leading ++ s.trailing := by rw [gap, ht]
  have hstays := hspared.stays
  rw [hgap] at hstays
  have hbound := hstays
  rw [staysBefore, Bool.and_eq_true, Bool.not_eq_true'] at hbound
  obtain ⟨hanew, hnewline⟩ := hrest.newline_of_startAnew hspared.anew
  obtain ⟨u, v, hjoined⟩ := exists_rejoined ha hl hb hn h.startsAlike hanew hbound.1
  obtain ⟨hbreak₀, hbound₀⟩ := isBreak_semicolon ha hl hbound.1
  rw [ht] at hstays
  obtain ⟨halike, -⟩ := token_of_rejoined hstays hjoined hbreak₀ hbound₀ htoken
  refine ⟨_, ?_, halike hnone, ?_⟩
  · rw [Token.spell_cons, h.spell, Token.toList_fullText, trailingWithout, hgap, ht,
      String.toList_ofList]
    have hspell := congrArg (· ++ rest₃') hjoined.text
    simp only [List.append_assoc] at hspell
    simp only [List.append_assoc, List.cons_append, hspell]
  · intro previous' leading' hsame
    rw [← hsame (List.cons_ne_nil _ _)] at htoken
    obtain ⟨-, htoken'⟩ := token_of_rejoined hstays hjoined hbreak₀ hbound₀ htoken
    -- what follows starts a line before and behind, if anything follows
    have hsameLine : ts.pending ≠ [] →
        v.isEmpty = n.isEmpty ∧ v.containsNewline = n.containsNewline := fun hne => by
      have hv := hjoined.newline (hnewline hne)
      rw [Trivia.isEmpty_of_containsNewline hv, Trivia.isEmpty_of_containsNewline (hnewline hne), hv,
        hnewline hne]
      exact ⟨rfl, rfl⟩
    obtain ⟨us, hcuts, hstripped, henters⟩ :=
      h.cuts (some ⟨kind, String.ofList (c :: x), leading', u⟩) v fun hne => by
        rw [isLeftBound, isLeftBound, (hsameLine hne).1,
          Trivia.isEmpty_of_containsNewline (hnewline hne)]
        rfl
    have hu : Token.stripped ⟨kind, String.ofList (c :: x), leading', u⟩ = t.stripped := by
      rw [ht]
      rfl
    refine ⟨_, .token htoken' hjoined.behind hjoined.front hcuts, ?_, fun b hb => ?_⟩
    · rw [List.map_cons, hstripped, hu, hspared.leaveOut_eq]
      rfl
    · refine hspared.enters hu (fun hbehind => ?_) hstripped (henters true fun _ => hsameLine)
      rw [ht]
      exact hb hbehind (List.cons_ne_nil _ _)

end IsLeft

/-- No other character is a semicolon. -/
theorem char_of_semicolon {c : Char} (h : (c, .semicolon) ∈ markKinds) : c = ';' :=
  (by decide : ∀ p ∈ markKinds, p.2 = .semicolon → p.1 = ';') _ h rfl

/-- A semicolon is spelled as such. -/
theorem Cuts.text_of_semicolon (h : Cuts previous leading cs ts) {t : Token} (ht : t ∈ ts.pending)
    (hkind : t.kind = .semicolon) : t.text = ";" := by
  obtain ⟨c, hmark, htext⟩ := h.text_of_not_isGiven t ht (by rw [hkind]; decide)
  rw [hkind] at hmark
  rw [htext, char_of_semicolon hmark]

/-- A semicolon that is cut off, and what is cut off behind it. -/
theorem Cuts.of_semicolon {s : Token} {w : List Token} (h : Cuts previous leading cs ts)
    (hpending : ts.pending = s :: w) (hkind : s.kind = .semicolon) :
    s.leading = leading ∧ 0 < s.fullLen ∧ ∃ n rest us, ts = ⟨s :: us.pending, us.endOfFile⟩ ∧
      cs = ';' :: ((Trivia.text s.trailing).toList ++ ((Trivia.text n).toList ++ rest)) ∧
      CutsOff true ((Trivia.text n).toList ++ rest) s.trailing ∧ CutsOff false rest n ∧
      Cuts (some s) n rest us := by
  have htext := h.text_of_semicolon (t := s) (by rw [hpending]; exact List.mem_cons_self) hkind
  cases h with
  | done => cases hpending
  | @token _ _ trailing n kind c x rest us htoken htrailing hleading hrest =>
    obtain ⟨rfl, rfl⟩ := List.cons.inj hpending
    obtain ⟨rfl, rfl⟩ : c = ';' ∧ x = [] := by
      have hspelled := congrArg String.toList htext
      rw [String.toList_ofList] at hspelled
      exact List.cons.inj hspelled
    have hlen : 0 < (String.ofList [';']).utf8ByteSize := by decide
    exact ⟨rfl, Nat.add_pos_left (Nat.add_pos_right _ hlen) _, n, rest, us, rfl, rfl, htrailing,
      hleading, hrest⟩

/-- **The loop**: what is left of a text without the semicolons at the marks. -/
theorem Cuts.exists_isLeft (h : Cuts previous leading cs ts) (hnone : startsComment cs = false)
    (hM : ∀ i, o ≤ i → M i = marks ps o ts.pending i)
    (hkinds : ∀ p ∈ placed o ts.pending, p.2.startsAt ps p.1 = true → p.2.kind = .semicolon)
    (hspare : maySpare ps o ts.pending = true) (hsheds : Sheds M o ts.all vs) :
    ∃ cs', IsLeft ps M o previous leading cs ts vs cs' := by
  induction hn : ts.pending.length using Nat.strong_induction_on
    generalizing previous leading cs ts o vs with
  | h n ih =>
  cases h with
  | done =>
    cases hsheds with
    | keep hmark hrest =>
      cases hrest
      exact ⟨[], .done hmark⟩
  | @token _ _ trailing leading₂ kind c x rest₂ us htoken htrailing hleading hrest =>
    generalize ht : (⟨kind, String.ofList (c :: x), leading, trailing⟩ : Token) = t at *
    have hlen : 0 < t.fullLen := by
      have hc := c.utf8Size_pos
      rw [← ht, Token.fullLen, Token.len, String.utf8ByteSize_ofList, String.utf8Len_cons]
      omega
    have hMrest := marks_behind hM hlen
    replace hM : ∀ i, o ≤ i → M i = marks ps o (t :: us.pending) i := hM
    replace hspare : maySpare ps o (t :: us.pending) = true := hspare
    replace hkinds : ∀ p ∈ placed o (t :: us.pending), p.2.startsAt ps p.1 = true →
      p.2.kind = .semicolon := hkinds
    replace hsheds : Sheds M o (t :: us.all) vs := hsheds
    have hnone₂ := startsComment_of_none hleading.triviaPiece?_rest
    generalize hall : us.all = all at hsheds
    cases hsheds with
    | @keep _ _ _ vs hstart hsheds =>
      obtain ⟨hkept, hclear⟩ := clear_of_marks hM hstart
      have hnext : M (o + t.fullLen) = none := by
        cases all with
        | nil => simp [Tokens.all] at hall
        | cons s ts => exact hsheds.head_eq_none
      rw [← hall] at hsheds
      obtain ⟨hdecl, -, hspare⟩ := maySpare_cons hkept hspare
      rw [placed, List.forall_mem_cons] at hkinds
      obtain ⟨rest', hleft⟩ := ih _ (by rw [← hn]; exact Nat.lt_succ_self _) hrest hnone₂ hMrest
        hkinds.2 hspare hsheds rfl
      exact ⟨_, hleft.keep ht.symm htoken htrailing hleading hclear hnext hkept hdecl⟩
    | @drop _ _ s ts vs hstart hdrop hsheds =>
      cases hpending : us.pending with
      | nil =>
        -- there is no mark at the end of the file
        rw [hMrest _ (Nat.le_refl _), hpending] at hdrop
        cases hdrop
      | cons s' w =>
        obtain ⟨rfl, rfl⟩ : s' = s ∧ w ++ [us.endOfFile] = ts := by
          rw [Tokens.all, hpending, List.cons_append] at hall
          exact List.cons.inj hall
        rw [hpending] at hM hspare hkinds hMrest
        obtain ⟨hspared, hspare⟩ := isSpared_of_maySpare hM hlen hkinds hspare hstart hdrop
        obtain ⟨rfl, hlen₂, n, rest₃, us, rfl, rfl, hb, hleading₂, hrest⟩ :=
          hrest.of_semicolon hpending hspared.kind
        obtain rfl : us.pending = w := (List.cons.inj hpending).2
        rw [placed, List.forall_mem_cons, placed, List.forall_mem_cons] at hkinds
        obtain ⟨rest', hleft⟩ := ih _ (by rw [← hn, List.length_cons, List.length_cons]; omega) hrest
          (startsComment_of_none hleading₂.triviaPiece?_rest) (marks_behind hMrest hlen₂) hkinds.2.2
          hspare hsheds rfl
        exact hleft.drop ht.symm htoken htrailing hleading hb hleading₂ hnone hspared hrest

/-- **Semicolons left out**: where they may be spared, the text without the semicolons at the positions is
cut into tokens that no grammar tells from those that are left. -/
theorem exists_tokens {source source' : String} (h : tokens source = .ok ts)
    (hkinds : ∀ p ∈ placed 0 ts.pending, p.2.startsAt ps p.1 = true → p.2.kind = .semicolon)
    (hspare : maySpare ps 0 ts.pending = true) (hsheds : Sheds (marks ps 0 ts.pending) 0 ts.all vs)
    (hsource : source'.toList = Token.spell vs) :
    ∃ us, tokens source' = .ok us ∧
      Input.Enters (marks ps 0 ts.pending) false ⟨0, ts.pending, ts.endOfFile⟩
        ⟨0, us.pending, us.endOfFile⟩ := by
  obtain ⟨t, rest, htrivia, hfrom, hcutsOff, hcuts⟩ := exists_cuts_of_tokens h
  have hnone := startsComment_of_none hcutsOff.triviaPiece?_rest
  obtain ⟨cs', hleft⟩ := hcuts.exists_isLeft hnone (fun _ _ => rfl) hkinds hspare hsheds
  obtain ⟨us, hcuts', -, henters⟩ := hleft.cuts none _ fun _ => rfl
  have hapart : BreaksApart ((interpreterLine source.toList).1 ++ t) := by
    have hall := breaksApart_of_tokens h
    rw [Tokens.all] at hall
    cases hcuts with
    | done => exact hall _ (List.mem_append_right _ List.mem_cons_self)
    | token => exact hall _ List.mem_cons_self
  have hts' := tokens_of_front htrivia rfl hfrom (.refl true _) hapart hleft.startsAlike
    (fun fuel' pos' hlt => hcuts'.tokensFrom_eq pos' hlt) (hsource.trans hleft.spell)
  have hend : ts.endOfFile.text = "" ∧ us.endOfFile.text = "" :=
    ⟨hcuts.text_endOfFile, hcuts'.text_endOfFile⟩
  exact ⟨us, hts', henters false (fun hfalse => by cases hfalse), (tokens_isWord h).2,
    (tokens_isWord hts').2, hend.2.trans hend.1.symm⟩

end Lexer

end SwiftTidy
