import Mathlib.Tactic.SplitIfs
import SwiftTidy.Parse.SourceFile
import SwiftTidy.Proofs.Text.Offset

/-!
# Tokens without some of the semicolons

`Token.Omits M o ts us` says that `us` is `ts` without the semicolons marked in `M`: the other tokens
are alike, which is to say that they differ in trivia that no grammar looks at.  A semicolon may be
left out where the tokens behind it do not read on what stands in front of it; the conditions are
those of the constructors, and there is one for each place at which a grammar looks ahead without
minding line breaks.  `Token.Enters M false o ts us` says the same of tokens of which nothing was read
yet: what stands in front of the first of them is looked at by no grammar.

A mark is the byte at which a semicolon starts, leading trivia included, with the kind of the token
behind it.
-/

namespace SwiftTidy

/-- The bytes at which the semicolons to leave out start, each with the kind of the next token. -/
abbrev Marks := Nat → Option SyntaxKind

open Grammar

theorem Trivia.isEmpty_of_containsNewline {t : Trivia} (h : t.containsNewline = true) : t.isEmpty = false := by
  cases t with
  | nil => cases h
  | cons p t => rfl

/-! ### Where a semicolon is needed -/

/-- Whether a token of this kind is read as part of the statement in front of it, on whatever line it
stands. -/
def SyntaxKind.goesOn : SyntaxKind → Bool
  | .rightParen | .rightBracket | .comma | .colon | .semicolon | .period | .arrow | .equal
  | .postfixQuestionMark | .infixQuestionMark | .exclamationMark | .binaryOperator
  | .postfixOperator | .asKw | .asyncKw | .catchKw | .elseKw | .inKw | .isKw | .rethrowsKw
  | .throwsKw | .whereKw => true
  | _ => false

namespace Token

/-- Tokens that no grammar tells apart: none looks at the trivia in front of the token it starts
with, so that counts only `behind` something that was read. -/
structure Alike (behind : Bool) (t u : Token) : Prop where
  kind : u.kind = t.kind
  text : u.text = t.text
  isEmpty_leading : behind = true → u.leading.isEmpty = t.leading.isEmpty
  containsNewline : behind = true → u.leading.containsNewline = t.leading.containsNewline

/-- Whether the token is read as part of the statement in front of it; `<` opens a generic clause. -/
def goesOn (t : Token) : Bool := t.kind.goesOn || t.kind.isOperator && t.text == "<"

/-- Whether the tokens start a line with something new. -/
def startAnew : List Token → Bool
  | [] => true
  | t :: _ => !t.goesOn && t.leading.containsNewline

/-- Whether a statement may end with the token in front of a token of kind `next`.  The words `some`
and `any` stand in front of a type, and a modifier has its detail in parentheses behind it. -/
def endsBefore (t : Token) (next : SyntaxKind) : Bool :=
  match t.kind with
  | .atSign | .leftParen | .period | .classKw => false
  | .identifier =>
    !((t.text == "some" || t.text == "any") &&
        (next == .identifier || next == .leftParen || next == .capitalSelfKw)) &&
      !(modifierWords.contains t.text && next == .leftParen)
  | _ => true

/-- Whether `in` is reached over tokens that the signature of a closure may have. -/
def reachIn : List Token → Bool
  | [] => false
  | t :: ts =>
    match t.kind with
    | .inKw => true
    | .leftParen | .leftBracket | .rightParen | .rightBracket | .equal => reachIn ts
    | k => isSignatureKind k && reachIn ts

/-- The second list is the first without the marked semicolons, whatever stands in front of its
first token unless that stands `behind` something that was read. -/
inductive Enters (M : Marks) : Bool → Nat → List Token → List Token → Prop where
  | nil {behind : Bool} {o : Nat} (hmark : M o = none) : Enters M behind o [] []
  /-- A token is kept.  It may own other trivia behind it unless it is an operator that could touch the
  next token, and a declaration starts at it in both or in neither. -/
  | keep {behind : Bool} {o : Nat} {t u : Token} {ts us : List Token}
      (hmark : ∀ i, i = 0 ∨ i < t.fullLen → M (o + i) = none)
      (halike : t.Alike behind u)
      (htrailing : M (o + t.fullLen) = none → t.kind.isOperator = true →
        Input.endsOperand (headKind ts) = false → u.trailing.isEmpty = t.trailing.isEmpty)
      (hends : ∀ next, M (o + t.fullLen) = some next → t.endsBefore next = true)
      (hdecl : startsDecl (ts.length + 1) (t :: ts) = startsDecl (us.length + 1) (u :: us))
      (hrest : Enters M true (o + t.fullLen) ts us) : Enters M behind o (t :: ts) (u :: us)
  /-- A semicolon is left out. -/
  | drop {behind : Bool} {o : Nat} {t : Token} {ts us : List Token}
      (hmark : M o = some (headKind ts))
      (hkind : t.kind = .semicolon)
      (hanew : startAnew ts = true)
      (hreach : reachIn ts = false)
      (hrest : Enters M true (o + t.fullLen) ts us) : Enters M behind o (t :: ts) us

/-- The second list is the first without the marked semicolons. -/
abbrev Omits (M : Marks) : Nat → List Token → List Token → Prop := Enters M true

end Token

/-- The second input is the first without the marked semicolons, whatever stands in front of its
first token unless that stands `behind` something that was read. -/
structure Input.Enters (M : Marks) (behind : Bool) (s u : Input) : Prop where
  pending : Token.Enters M behind s.offset s.pending u.pending
  kind_endOfFile : s.endOfFile.kind = .endOfFile
  kind_endOfFile' : u.endOfFile.kind = .endOfFile
  text_endOfFile : u.endOfFile.text = s.endOfFile.text

/-- The second input is the first without the marked semicolons. -/
abbrev Input.Omits (M : Marks) : Input → Input → Prop := Input.Enters M true

variable {M : Marks} {b : Bool} {o : Nat} {ts us : List Token} {next : SyntaxKind}

/-! ### Looking ahead over tokens -/

namespace Token

theorem headKind_of_startAnew (h : startAnew ts = true) : (headKind ts).goesOn = false := by
  cases ts with
  | nil => rfl
  | cons t ts =>
    simp only [startAnew, goesOn, Bool.and_eq_true, Bool.not_eq_true', Bool.or_eq_false_iff] at h
    exact h.1.1

/-- No signature is found where no `in` can be reached. -/
theorem signatureLength?_eq_none (h : reachIn ts = false) (depth : Nat) :
    signatureLength? depth ts = none := by
  induction ts generalizing depth with
  | nil => rfl
  | cons t ts ih =>
    rw [reachIn] at h
    rw [signatureLength?]
    split at h
    · cases h
    all_goals simp_all

namespace Enters

theorem headKind_eq (h : Enters M b o ts us) (hmark : M o = none) : headKind us = headKind ts := by
  cases h with
  | nil => rfl
  | keep _ halike => exact halike.kind
  | drop hsome =>
    rw [hmark] at hsome
    cases hsome

theorem weaken (h : Omits M o ts us) : Enters M b o ts us := by
  cases h with
  | nil hmark => exact .nil hmark
  | keep hmark halike htrailing hends hdecl hrest =>
    refine .keep hmark ⟨halike.kind, halike.text, fun _ => ?_, fun _ => ?_⟩ htrailing hends hdecl hrest
    · exact halike.isEmpty_leading rfl
    · exact halike.containsNewline rfl
  | drop hmark hkind hanew hreach hrest => exact .drop hmark hkind hanew hreach hrest

/-- The semicolon that is left out is followed by a token that is kept. -/
theorem mark_of_startAnew (h : Enters M b o ts us) (hanew : startAnew ts = true) : M o = none := by
  cases h with
  | nil hmark => exact hmark
  | keep hmark => simpa using hmark 0 (.inl rfl)
  | drop hmark hkind =>
    have hnext := headKind_of_startAnew hanew
    rw [headKind, hkind] at hnext
    cases hnext

/-- A closure has the same signature: none reaches over a semicolon. -/
theorem signatureLength?_eq (h : Enters M b o ts us) (depth : Nat) :
    signatureLength? depth us = signatureLength? depth ts := by
  induction h generalizing depth with
  | nil => rfl
  | keep _ halike _ _ _ _ ih =>
    rw [signatureLength?, signatureLength?, halike.kind]
    simp only [ih]
  | drop _ hkind _ hreach _ ih =>
    rw [ih, signatureLength?_eq_none hreach, signatureLength?, hkind]
    rfl

end Enters

end Token

/-! ### Inputs -/

namespace Input

/-- The input behind the next token. -/
def behind (s : Input) : Input :=
  match s.pending with
  | [] => s
  | t :: rest => ⟨s.offset + t.fullLen, rest, s.endOfFile⟩

theorem behind_eq {s : Input} {t : Token} {rest : List Token} (h : s.pending = t :: rest) :
    s.behind = ⟨s.offset + t.fullLen, rest, s.endOfFile⟩ := by
  rw [behind, h]

theorem kindAt_succ (s : Input) (n : Nat) : s.kindAt (n + 1) = s.behind.kindAt n := by
  unfold kindAt nth behind
  split
  · next h => simp [h]
  · next h => simp [h]

theorem kind_eq_headKind {s : Input} (h : s.endOfFile.kind = .endOfFile) :
    s.kind = headKind s.pending := by
  unfold kind kindAt nth
  cases s.pending with
  | nil => exact h
  | cons t ts => rfl

theorem pending_ne_nil {s : Input} (h : s.endOfFile.kind = .endOfFile) (hkind : s.kind ≠ .endOfFile) :
    s.pending ≠ [] := by
  intro hnil
  rw [kind_eq_headKind h, hnil] at hkind
  exact hkind rfl

namespace Enters

variable {s u : Input} {k : SyntaxKind}

/-- At the end, at a token that is kept, or at a semicolon that is left out. -/
theorem cases (h : s.Enters M b u) :
    (M s.offset = none ∧ s.pending = [] ∧ u.pending = []) ∨
    (∃ t v ts us, M s.offset = none ∧ s.pending = t :: ts ∧ u.pending = v :: us ∧ t.Alike b v ∧
      (∀ next, M (s.offset + t.fullLen) = some next → t.endsBefore next = true) ∧
      startsDecl (ts.length + 1) (t :: ts) = startsDecl (us.length + 1) (v :: us) ∧
      Token.Omits M (s.offset + t.fullLen) ts us) ∨
    (∃ t ts, M s.offset = some (headKind ts) ∧ s.pending = t :: ts ∧ t.kind = .semicolon ∧
      Token.startAnew ts = true ∧ Token.Omits M (s.offset + t.fullLen) ts u.pending) := by
  obtain ⟨o, ts, e⟩ := s
  obtain ⟨o', us, e'⟩ := u
  obtain ⟨hpending, -, -, -⟩ := h
  dsimp only at hpending ⊢
  cases hpending with
  | nil hmark => exact .inl ⟨hmark, rfl, rfl⟩
  | keep hmark halike _ hends hdecl hrest =>
    exact .inr (.inl ⟨_, _, _, _, by simpa using hmark 0 (.inl rfl), rfl, rfl, halike, hends, hdecl,
      hrest⟩)
  | drop hmark hkind hanew _ hrest => exact .inr (.inr ⟨_, _, hmark, rfl, hkind, hanew, hrest⟩)

theorem kind_eq_headKind (h : s.Enters M b u) : s.kind = headKind s.pending :=
  Input.kind_eq_headKind h.kind_endOfFile

/-- Behind a token that is kept the inputs differ by semicolons again. -/
theorem behind (h : s.Enters M b u) (hmark : M s.offset = none) : s.behind.Omits M u.behind := by
  rcases h.cases with ⟨-, hs, hu⟩ | ⟨t, v, ts, us, -, hs, hu, -, -, -, hrest⟩ | ⟨t, ts, hsome, -⟩
  · unfold Input.behind
    rw [hs, hu]
    refine ⟨?_, h.kind_endOfFile, h.kind_endOfFile', h.text_endOfFile⟩
    rw [hs, hu]
    exact .nil hmark
  · rw [behind_eq hs, behind_eq hu]
    exact ⟨hrest, h.kind_endOfFile, h.kind_endOfFile', h.text_endOfFile⟩
  · rw [hmark] at hsome
    cases hsome

/-! #### At a token that is kept -/

theorem kind_eq (h : s.Enters M b u) (hmark : M s.offset = none) : u.kind = s.kind := by
  rw [Input.kind_eq_headKind h.kind_endOfFile, Input.kind_eq_headKind h.kind_endOfFile']
  exact h.pending.headKind_eq hmark

theorem text_eq (h : s.Enters M b u) (hmark : M s.offset = none) : u.text = s.text := by
  unfold Input.text nth
  rcases h.cases with ⟨-, hs, hu⟩ | ⟨t, v, ts, us, -, hs, hu, halike, -⟩ | ⟨t, ts, hsome, -⟩
  · rw [hs, hu]
    exact h.text_endOfFile
  · rw [hs, hu]
    exact halike.text
  · rw [hmark] at hsome
    cases hsome

theorem isAfterNewline_eq (h : s.Omits M u) (hmark : M s.offset = none)
    (hkind : s.kind ≠ .endOfFile) : u.isAfterNewline = s.isAfterNewline := by
  unfold isAfterNewline nth
  rcases h.cases with ⟨-, hs, -⟩ | ⟨t, v, ts, us, -, hs, hu, halike, -⟩ | ⟨t, ts, hsome, -⟩
  · exact absurd hs (pending_ne_nil h.kind_endOfFile hkind)
  · rw [hs, hu]
    exact halike.containsNewline rfl
  · rw [hmark] at hsome
    cases hsome

/-- A token that is kept may end a statement in front of a semicolon that is left out. -/
theorem endsBefore (h : s.Enters M b u) (hmark : M s.offset = none) (hkind : s.kind ≠ .endOfFile)
    (hnext : M s.behind.offset = some next) : (s.nth 0).endsBefore next = true := by
  rcases h.cases with ⟨-, hs, -⟩ | ⟨t, v, ts, us, -, hs, -, -, hends, -⟩ | ⟨t, ts, hsome, -⟩
  · exact absurd hs (pending_ne_nil h.kind_endOfFile hkind)
  · rw [behind_eq hs] at hnext
    rw [nth, hs]
    exact hends next hnext
  · rw [hmark] at hsome
    cases hsome

/-- A declaration starts at a token that is kept in both inputs or in neither. -/
theorem isAtDecl_eq (h : s.Enters M b u) (hmark : M s.offset = none) : isAtDecl u = isAtDecl s := by
  unfold isAtDecl
  rcases h.cases with ⟨-, hs, hu⟩ | ⟨t, v, ts, us, -, hs, hu, -, -, hdecl, -⟩ | ⟨t, ts, hsome, -⟩
  · rw [hs, hu]
  · rw [hs, hu, List.length_cons, List.length_cons]
    exact hdecl.symm
  · rw [hmark] at hsome
    cases hsome

/-! #### At a semicolon that is left out -/

theorem kind_of_mark (h : s.Enters M b u) (hmark : M s.offset = some next) : s.kind = .semicolon := by
  rw [h.kind_eq_headKind]
  rcases h.cases with ⟨hnone, -⟩ | ⟨t, v, ts, us, hnone, -⟩ | ⟨t, ts, -, hs, hkind, -⟩
  · rw [hmark] at hnone
    cases hnone
  · rw [hmark] at hnone
    cases hnone
  · rw [hs]
    exact hkind

/-- Behind the semicolon the inputs are at the same token. -/
theorem behind_of_mark (h : s.Enters M b u) (hmark : M s.offset = some next) :
    s.behind.Omits M u ∧ M s.behind.offset = none ∧ s.behind.kind = next ∧
      Token.startAnew s.behind.pending = true := by
  rcases h.cases with ⟨hnone, -⟩ | ⟨t, v, ts, us, hnone, -⟩ | ⟨t, ts, hsome, hs, -, hanew, hrest⟩
  · rw [hmark] at hnone
    cases hnone
  · rw [hmark] at hnone
    cases hnone
  · have hrest' : s.behind.Omits M u := by
      rw [behind_eq hs]
      exact ⟨hrest, h.kind_endOfFile, h.kind_endOfFile', h.text_endOfFile⟩
    refine ⟨hrest', ?_, ?_, ?_⟩
    · rw [behind_eq hs]
      exact hrest.mark_of_startAnew hanew
    · rw [hrest'.kind_eq_headKind, behind_eq hs]
      rw [hmark] at hsome
      exact (Option.some.inj hsome).symm
    · rw [behind_eq hs]
      exact hanew

theorem kind_of_mark' (h : s.Enters M b u) (hmark : M s.offset = some next) : u.kind = next := by
  obtain ⟨hrest, hnone, hkind, -⟩ := h.behind_of_mark hmark
  rw [hrest.kind_eq hnone, hkind]

/-- What follows the semicolon does not go on with the statement. -/
theorem goesOn_of_mark (h : s.Enters M b u) (hmark : M s.offset = some next) :
    next.goesOn = false := by
  obtain ⟨hrest, -, hkind, hanew⟩ := h.behind_of_mark hmark
  rw [← hkind, hrest.kind_eq_headKind]
  exact Token.headKind_of_startAnew hanew

/-- What follows the semicolon starts a line, or is the end of the file. -/
theorem isAfterNewline_of_mark (h : s.Enters M b u) (hmark : M s.offset = some next) :
    u.kind = .endOfFile ∨ u.isAfterNewline = true := by
  obtain ⟨hrest, hnone, hkind, hanew⟩ := h.behind_of_mark hmark
  by_cases hend : s.behind.kind = .endOfFile
  · left
    rw [hrest.kind_eq hnone, hend]
  · right
    rw [hrest.isAfterNewline_eq hnone hend]
    have hne := pending_ne_nil hrest.kind_endOfFile hend
    unfold isAfterNewline nth
    cases hpending : s.behind.pending with
    | nil => exact absurd hpending hne
    | cons t ts =>
      rw [hpending, Token.startAnew, Bool.and_eq_true] at hanew
      exact hanew.2

/-! #### Tests that come out the same -/

/-- A test for a token that would go on with the statement. -/
theorem isAt_eq (h : s.Enters M b u) (hk : k.goesOn = true)
    (hsemicolon : k ≠ .semicolon) : u.isAt k = s.isAt k := by
  cases hmark : M s.offset with
  | none => rw [isAt, isAt, h.kind_eq hmark]
  | some next =>
    have hgoes := h.goesOn_of_mark hmark
    have hnext : next ≠ k := by
      rintro rfl
      rw [hgoes] at hk
      cases hk
    rw [isAt, isAt, h.kind_of_mark hmark, h.kind_of_mark' hmark, beq_eq_false_iff_ne.mpr hnext,
      beq_eq_false_iff_ne.mpr hsemicolon.symm]

/-- A test for one of several tokens that would go on with the statement. -/
theorem isAtAny_eq {ks : List SyntaxKind} (h : s.Enters M b u)
    (hks : ∀ k ∈ ks, k.goesOn = true ∧ k ≠ .semicolon) :
    u.isAtAny ks = s.isAtAny ks := by
  cases hmark : M s.offset with
  | none => rw [isAtAny, isAtAny, h.kind_eq hmark]
  | some next =>
    have hgoes := h.goesOn_of_mark hmark
    rw [isAtAny, isAtAny, h.kind_of_mark hmark, h.kind_of_mark' hmark]
    have hnext : next ∉ ks := fun hmem => by
      rw [(hks next hmem).1] at hgoes
      cases hgoes
    have hsemicolon : SyntaxKind.semicolon ∉ ks := fun hmem => (hks _ hmem).2 rfl
    simp [hnext, hsemicolon]

/-- A test for an operator that opens a generic clause. -/
theorem isAtOperator_eq (h : s.Enters M b u) : u.isAtOperator "<" = s.isAtOperator "<" := by
  cases hmark : M s.offset with
  | none => rw [isAtOperator, isAtOperator, h.kind_eq hmark, h.text_eq hmark]
  | some next =>
    have hoperator : u.isAtOperator "<" = false := by
      obtain ⟨hrest, hnone, -, hanew⟩ := h.behind_of_mark hmark
      rw [isAtOperator, hrest.kind_eq hnone, hrest.text_eq hnone]
      unfold Input.kind kindAt Input.text nth
      cases hpending : s.behind.pending with
      | nil => simp [hrest.kind_endOfFile, SyntaxKind.isOperator]
      | cons t ts =>
        rw [hpending, Token.startAnew, Bool.and_eq_true, Bool.not_eq_true', Token.goesOn,
          Bool.or_eq_false_iff] at hanew
        exact hanew.1.2
    rw [hoperator, isAtOperator, h.kind_of_mark hmark]
    rfl

/-- A test that holds only at one kind, on the same line, where another statement may start. -/
theorem isAt_sameLine_eq (h : s.Omits M u) (hk : k ≠ .endOfFile)
    (hsemicolon : k ≠ .semicolon) :
    (u.isAt k && !u.isAfterNewline) = (s.isAt k && !s.isAfterNewline) := by
  cases hmark : M s.offset with
  | none =>
    by_cases hend : s.kind = .endOfFile
    · rw [isAt, isAt, h.kind_eq hmark, hend, beq_eq_false_iff_ne.mpr hk.symm]
      rfl
    · rw [isAt, isAt, h.kind_eq hmark, h.isAfterNewline_eq hmark hend]
  | some next =>
    have hleft : s.isAt k = false := by
      rw [isAt, h.kind_of_mark hmark, beq_eq_false_iff_ne.mpr hsemicolon.symm]
    rw [hleft]
    rcases h.isAfterNewline_of_mark hmark with hend | hnewline
    · rw [isAt, hend, beq_eq_false_iff_ne.mpr hk.symm]
      rfl
    · rw [hnewline, Bool.not_true, Bool.and_false, Bool.false_and]

/-- The same test on the token behind the next one. -/
theorem kindAt_one_beq (h : s.Enters M b u) (hmark : M s.offset = none) (hk : k.goesOn = true)
    (hsemicolon : k ≠ .semicolon) : (u.kindAt 1 == k) = (s.kindAt 1 == k) := by
  rw [kindAt_succ, kindAt_succ]
  exact (h.behind hmark).isAt_eq hk hsemicolon

end Enters

/-! ### Cutting `>` off an operator -/

theorem offset_splitRightAngle (s : Input) : s.splitRightAngle.offset = s.offset := by
  unfold splitRightAngle
  split
  · rfl
  · split
    · split
      · rfl
      · rfl
    · rfl

theorem splitRightAngle_of_kind {s : Input} (hkind : s.kind.isOperator = false) :
    s.splitRightAngle = s := by
  unfold splitRightAngle
  split
  · rfl
  · next t rest hs =>
    have ht : t.kind.isOperator = false := by
      unfold kind kindAt nth at hkind
      rwa [hs] at hkind
    rw [ht]
    split
    · rfl
    · rfl

end Input

namespace Token

theorem classifyOperator_cases (text : String) (leftBound rightBound : Bool) :
    Lexer.classifyOperator text leftBound rightBound ∈
      [.arrow, .equal, .postfixQuestionMark, .infixQuestionMark, .exclamationMark, .binaryOperator,
        .postfixOperator, .prefixOperator] := by
  unfold Lexer.classifyOperator
  split_ifs <;> simp

/-- No declaration starts with an operator. -/
theorem startsDecl_classifyOperator {t : Token} {ts : List Token} {n : Nat} {text : String}
    {leftBound rightBound : Bool}
    (hkind : t.kind = Lexer.classifyOperator text leftBound rightBound) :
    startsDecl (n + 1) (t :: ts) = false := by
  have hcases := classifyOperator_cases text leftBound rightBound
  rw [← hkind] at hcases
  rw [startsDecl, startsWithModifier, headKind]
  simp only [List.mem_cons, List.not_mem_nil, or_false] at hcases
  rcases hcases with h | h | h | h | h | h | h | h <;> rw [h] <;> rfl

theorem endsBefore_classifyOperator {t : Token} {text : String} {leftBound rightBound : Bool}
    (hkind : t.kind = Lexer.classifyOperator text leftBound rightBound) (next : SyntaxKind) :
    t.endsBefore next = true := by
  have hcases := classifyOperator_cases text leftBound rightBound
  rw [← hkind] at hcases
  rw [endsBefore]
  simp only [List.mem_cons, List.not_mem_nil, or_false] at hcases
  rcases hcases with h | h | h | h | h | h | h | h <;> rw [h]

/-- Whether an operator with the trivia behind it touches the next of the tokens, or of none. -/
def touchesNext (t : Token) (ts : List Token) (endOfFile : Token) : Bool :=
  t.trailing.isEmpty && (ts.headD endOfFile).leading.isEmpty &&
    !Input.endsOperand (ts.headD endOfFile).kind

namespace Enters

variable {t u e e' : Token}

/-- An operator in front of a semicolon touches nothing, and nothing on another line. -/
theorem touchesNext_eq (h : Omits M (o + t.fullLen) ts us)
    (htrailing : M (o + t.fullLen) = none → Input.endsOperand (headKind ts) = false →
      u.trailing.isEmpty = t.trailing.isEmpty)
    (he : e.kind = .endOfFile) (he' : e'.kind = .endOfFile) :
    touchesNext u us e' = touchesNext t ts e := by
  unfold touchesNext
  cases h with
  | nil =>
    rw [List.headD_nil, List.headD_nil, he, he']
    simp [Input.endsOperand]
  | @keep _ _ v w vs ws hmark halike =>
    have hnone := hmark 0 (.inl rfl)
    rw [Nat.add_zero] at hnone
    rw [List.headD_cons, List.headD_cons, halike.kind, halike.isEmpty_leading rfl]
    cases hends : Input.endsOperand v.kind with
    | true => rw [Bool.not_true, Bool.and_false, Bool.and_false]
    | false => rw [htrailing hnone hends]
  | drop _ hkind hanew _ hrest =>
    rw [List.headD_cons, hkind]
    have hnone := hrest.mark_of_startAnew hanew
    cases hrest with
    | nil =>
      rw [List.headD_nil, he']
      simp [Input.endsOperand]
    | keep _ halike =>
      rw [startAnew, Bool.and_eq_true, ← halike.containsNewline rfl] at hanew
      rw [List.headD_cons, Trivia.isEmpty_of_containsNewline hanew.2]
      simp [Input.endsOperand]
    | drop hsome =>
      rw [hnone] at hsome
      cases hsome

/-- An operator that is kept is cut in two alike. -/
theorem split {c : Char} {cs : List Char} (h : Enters M b o (t :: ts) (u :: us)) (hmark : M o = none)
    (hoperator : t.kind.isOperator = true) (htext : t.text.toList = '>' :: c :: cs)
    (he : e.kind = .endOfFile) (he' : e'.kind = .endOfFile) :
    Enters M b o
      (⟨.binaryOperator, ">", t.leading, []⟩ ::
        ⟨Lexer.classifyOperator (String.ofList (c :: cs)) true (touchesNext t ts e),
          String.ofList (c :: cs), [], t.trailing⟩ :: ts)
      (⟨.binaryOperator, ">", u.leading, []⟩ ::
        ⟨Lexer.classifyOperator (String.ofList (c :: cs)) true (touchesNext u us e'),
          String.ofList (c :: cs), [], u.trailing⟩ :: us) := by
  generalize htail : String.ofList (c :: cs) = tail
  have hlen : t.len = 1 + tail.utf8ByteSize := by
    rw [Token.len, ← String.ofList_toList (s := t.text), htext, ← htail, String.utf8ByteSize_ofList,
      String.utf8ByteSize_ofList, String.utf8Len_cons]
    exact Nat.add_comm _ 1
  have hpos : 0 < tail.utf8ByteSize := by
    rw [← htail, String.utf8ByteSize_ofList, String.utf8Len_cons]
    have := c.utf8Size_pos
    omega
  cases h with
  | keep hclear halike htrailing hends hdecl hrest =>
    -- what is behind the whole token is behind its second part, so both touch the next token or neither does
    have htouches := hrest.touchesNext_eq (fun hnone => htrailing hnone hoperator) he he'
    rw [htouches]
    have hangle : (">" : String).utf8ByteSize = 1 := rfl
    have hfull : t.fullLen = t.leading.len + 1 + (tail.utf8ByteSize + t.trailing.len) := by
      rw [fullLen, hlen]
      omega
    have hfirst : (⟨.binaryOperator, ">", t.leading, []⟩ : Token).fullLen = t.leading.len + 1 := by
      simp [fullLen, len, hangle]
    have hsecond : ∀ k, (⟨k, tail, [], t.trailing⟩ : Token).fullLen =
        tail.utf8ByteSize + t.trailing.len := by
      simp [fullLen, len]
    refine .keep ?_ ⟨rfl, rfl, halike.isEmpty_leading, halike.containsNewline⟩ (fun _ _ _ => rfl) ?_ ?_
      (.keep ?_ ⟨rfl, rfl, fun _ => rfl, fun _ => rfl⟩ ?_
        (fun next _ => endsBefore_classifyOperator rfl next) ?_ ?_)
    · intro i hi
      exact hclear i (by omega)
    · intro next hnext
      rw [hfirst, hclear _ (.inr (by omega))] at hnext
      cases hnext
    · rfl
    · intro i hi
      rw [hfirst, Nat.add_assoc]
      rw [hsecond] at hi
      exact hclear _ (.inr (by omega))
    · rw [hfirst, hsecond, Nat.add_assoc, ← hfull]
      exact fun hnone _ => htrailing hnone hoperator
    · rw [startsDecl_classifyOperator rfl, startsDecl_classifyOperator rfl]
    · rwa [hfirst, hsecond, Nat.add_assoc, ← hfull]
  | drop hsome =>
    rw [hmark] at hsome
    cases hsome

end Enters

end Token

/-- Cutting `>` off a token that is kept leaves the inputs different by the semicolons. -/
theorem Input.Enters.splitRightAngle {s u : Input} (h : s.Enters M b u) (hmark : M s.offset = none) :
    s.splitRightAngle.Enters M b u.splitRightAngle := by
  rcases h.cases with ⟨-, hs, hu⟩ | ⟨t, v, ts, us, -, hs, hu, halike, -⟩ | ⟨t, ts, hsome, -⟩
  · unfold Input.splitRightAngle
    rwa [hs, hu]
  · have hpending := h.pending
    rw [hs, hu] at hpending
    unfold Input.splitRightAngle
    rw [hs, hu]
    dsimp only
    rw [halike.text, halike.kind]
    split
    · next c cs htext =>
      split
      · next hoperator =>
        exact ⟨hpending.split hmark hoperator htext h.kind_endOfFile h.kind_endOfFile', h.kind_endOfFile,
          h.kind_endOfFile', h.text_endOfFile⟩
      · exact h
    · exact h
  · rw [hmark] at hsome
    cases hsome

end SwiftTidy
