import SwiftTidy.Proofs.Parse.Following

/-!
# Operators in front of colons

An operator is of another kind where it is not bound to what stands behind it any longer: a binary
operator becomes a postfix one, a prefix operator a binary one.  `Token.Loosens M o ts us` says that this
is all that has become of the tokens `ts`, the first of which starts at byte `o`, and that it happens
only in front of colons that start at bytes of `M`.

Whatever does not tell operators apart comes out the same: the kind of the next token
(`Input.Loosens.kind_eq_of`), whether a declaration starts (`Input.Loosens.isAtDecl_eq`), where a
parenthesis is closed (`Grammar.balancedLength?_eq`), and where `>` is cut off
(`Input.Loosens.splitRightAngle`).  The signature of a closure does tell them apart.  It stays one if no
operator in it loosens (`Token.Loosens.signatureLength?_eq_some`), but one may come up where there was
none.  Then there are only tokens that a signature may hold in front of a prefix operator that loosens
(`Token.Loosens.penned`).
-/

namespace SwiftTidy

open Grammar

/-- How an operator loosens that is not bound to its right any longer. -/
inductive SyntaxKind.Loosens : SyntaxKind → SyntaxKind → Prop where
  | left : Loosens .binaryOperator .postfixOperator
  | free : Loosens .prefixOperator .binaryOperator

/-- A test on kinds that tells no operators apart comes out the same. -/
theorem SyntaxKind.Loosens.eq_of {α : Type} {j k : SyntaxKind} (h : j.Loosens k) (p : SyntaxKind → α)
    (hleft : p .binaryOperator = p .postfixOperator) (hfree : p .prefixOperator = p .binaryOperator) :
    p k = p j := by
  cases h with
  | left => exact hleft.symm
  | free => exact hfree.symm

/-- The same tokens, but operators in front of colons that start at bytes of `M` may have loosened. -/
inductive Token.Loosens (M : Nat → Prop) : Nat → List Token → List Token → Prop where
  | nil {o : Nat} : Loosens M o [] []
  | keep {o : Nat} (t : Token) {ts us : List Token} (h : Loosens M (o + t.fullLen) ts us) :
      Loosens M o (t :: ts) (t :: us)
  | loosen {o : Nat} {t : Token} {k : SyntaxKind} {ts us : List Token} (hkind : t.kind.Loosens k)
      (hcolon : headKind ts = .colon) (hmark : M (o + t.fullLen)) (h : Loosens M (o + t.fullLen) ts us) :
      Loosens M o (t :: ts) ({ t with kind := k } :: us)

/-- The same input, but operators in front of colons that start at bytes of `M` may have loosened. -/
structure Input.Loosens (M : Nat → Prop) (s u : Input) : Prop where
  pending : Token.Loosens M s.offset s.pending u.pending
  offset : u.offset = s.offset
  endOfFile : u.endOfFile = s.endOfFile

namespace Input

/-- At an operator that may loosen, in front of a colon. -/
def MayLoosen (M : Nat → Prop) (s : Input) : Prop :=
  (s.kind = .binaryOperator ∨ s.kind = .prefixOperator) ∧ s.kindAt 1 = .colon ∧ M s.behind.offset

/-- At a colon or at an operator that may loosen in front of one. -/
def IsAstray (M : Nat → Prop) (s : Input) : Prop := s.MayLoosen M ∨ s.kind = .colon

variable {M : Nat → Prop} {s : Input} {j k : SyntaxKind}

/-- A token that is no operator does not loosen. -/
theorem not_mayLoosen_of_kind (hk : k.isOperator = false) (hkind : s.kind = k) : ¬ s.MayLoosen M := by
  rintro ⟨h | h, -⟩ <;> rw [h] at hkind <;> subst hkind <;> cases hk

theorem not_mayLoosen_of_isAt (hk : k.isOperator = false) (hat : s.isAt k = true) : ¬ s.MayLoosen M :=
  not_mayLoosen_of_kind hk (eq_of_beq hat)

theorem not_isAstray_of_isAt (hk : k.isOperator = false) (hcolon : k ≠ .colon) (hat : s.isAt k = true) :
    ¬ s.IsAstray M := by
  rintro (h | h)
  · exact not_mayLoosen_of_isAt hk hat h
  · exact hcolon ((eq_of_beq hat).symm.trans h)

theorem mayLoosen_of_loosens {o : Nat} {t e : Token} {ts : List Token} (hkind : t.kind.Loosens k)
    (hcolon : headKind ts = .colon) (hmark : M (o + t.fullLen)) : (⟨o, t :: ts, e⟩ : Input).MayLoosen M := by
  refine ⟨?_, ?_, hmark⟩
  · show t.kind = _ ∨ t.kind = _
    generalize t.kind = j at hkind ⊢
    cases hkind
    · exact .inl rfl
    · exact .inr rfl
  · cases ts with
    | nil => cases hcolon
    | cons c ts => exact hcolon

theorem MayLoosen.kind (h : s.MayLoosen M) : s.kind.isOperator = true := by
  rcases h.1 with h | h <;> rw [h] <;> rfl

theorem MayLoosen.isAt (h : s.MayLoosen M) (hk : k.isOperator = false) : s.isAt k = false :=
  Bool.eq_false_iff.mpr fun hat => not_mayLoosen_of_isAt hk hat h

theorem IsAstray.isAt (h : s.IsAstray M) (hk : k.isOperator = false) (hcolon : k ≠ .colon) :
    s.isAt k = false :=
  Bool.eq_false_iff.mpr fun hat => not_isAstray_of_isAt hk hcolon hat h

end Input

namespace Token

variable {M : Nat → Prop} {o : Nat} {ts us : List Token}

theorem Loosens.refl (M : Nat → Prop) (o : Nat) (ts : List Token) : Loosens M o ts ts := by
  induction ts generalizing o with
  | nil => exact .nil
  | cons t ts ih => exact .keep t (ih _)

/-- Any two tokens at the same place differ by how one of them loosened. -/
theorem Loosens.getD {e : Token} (h : Loosens M o ts us) (n : Nat) :
    us.getD n e = ts.getD n e ∨
      ∃ k, (ts.getD n e).kind.Loosens k ∧ us.getD n e = { ts.getD n e with kind := k } := by
  induction h generalizing n with
  | nil => exact .inl rfl
  | keep t _ ih =>
    cases n with
    | zero => exact .inl rfl
    | succ n => exact ih n
  | @loosen _ t k _ _ hkind _ _ _ ih =>
    cases n with
    | zero => exact .inr ⟨k, hkind, rfl⟩
    | succ n => exact ih n

end Token

namespace Input.Loosens

variable {M : Nat → Prop} {s t u v : Input} {k : SyntaxKind}

theorem refl (M : Nat → Prop) (s : Input) : s.Loosens M s := ⟨.refl M _ _, rfl, rfl⟩

theorem nth (h : s.Loosens M u) (n : Nat) :
    u.nth n = s.nth n ∨ ∃ k, (s.nth n).kind.Loosens k ∧ u.nth n = { s.nth n with kind := k } := by
  unfold Input.nth
  rw [h.endOfFile]
  exact h.pending.getD n

theorem kindAt_eq_of {α : Type} (h : s.Loosens M u) (p : SyntaxKind → α)
    (hleft : p .binaryOperator = p .postfixOperator) (hfree : p .prefixOperator = p .binaryOperator)
    (n : Nat) : p (u.kindAt n) = p (s.kindAt n) := by
  unfold Input.kindAt
  rcases h.nth n with heq | ⟨k, hloosens, heq⟩
  · rw [heq]
  · rw [heq]
    exact hloosens.eq_of p hleft hfree

theorem kind_eq_of {α : Type} (h : s.Loosens M u) (p : SyntaxKind → α)
    (hleft : p .binaryOperator = p .postfixOperator) (hfree : p .prefixOperator = p .binaryOperator) :
    p u.kind = p s.kind :=
  h.kindAt_eq_of p hleft hfree 0

theorem kindAt_beq (h : s.Loosens M u) (n : Nat) (hk : k.isOperator = false) :
    (u.kindAt n == k) = (s.kindAt n == k) := by
  refine h.kindAt_eq_of (· == k) ?_ ?_ n
  all_goals
    rw [beq_eq_false_iff_ne.mpr, beq_eq_false_iff_ne.mpr]
    all_goals
      rintro rfl
      cases hk

theorem isAt_eq (h : s.Loosens M u) (hk : k.isOperator = false) : u.isAt k = s.isAt k := h.kindAt_beq 0 hk

theorem isAtAny_eq (h : s.Loosens M u) {ks : List SyntaxKind} (hks : ∀ k ∈ ks, k.isOperator = false) :
    u.isAtAny ks = s.isAtAny ks := by
  have hnot : ∀ k, k.isOperator = true → ks.contains k = false := by
    intro k hk
    rw [List.contains_eq_mem, decide_eq_false_iff_not]
    intro hmem
    rw [hks k hmem] at hk
    cases hk
  exact h.kind_eq_of ks.contains (by rw [hnot _ rfl, hnot _ rfl]) (by rw [hnot _ rfl, hnot _ rfl])

theorem text_eq (h : s.Loosens M u) : u.text = s.text := by
  unfold Input.text
  rcases h.nth 0 with heq | ⟨k, -, heq⟩ <;> rw [heq]

theorem isAtOperator_eq (h : s.Loosens M u) (text : String) : u.isAtOperator text = s.isAtOperator text := by
  rw [isAtOperator, isAtOperator, h.text_eq, h.kind_eq_of SyntaxKind.isOperator rfl rfl]

theorem isAfterNewline_eq (h : s.Loosens M u) : u.isAfterNewline = s.isAfterNewline := by
  unfold Input.isAfterNewline
  rcases h.nth 0 with heq | ⟨k, -, heq⟩ <;> rw [heq]

/-- At the end, at a token that stays, or at an operator that loosens. -/
theorem cases (h : s.Loosens M u) :
    (s.pending = [] ∧ u.pending = []) ∨
    (∃ t ts us, s.pending = t :: ts ∧ u.pending = t :: us ∧ Token.Loosens M (s.offset + t.fullLen) ts us) ∨
    (∃ t k ts us, s.pending = t :: ts ∧ u.pending = { t with kind := k } :: us ∧ t.kind.Loosens k ∧
      headKind ts = .colon ∧ M (s.offset + t.fullLen) ∧ Token.Loosens M (s.offset + t.fullLen) ts us) := by
  obtain ⟨o, ts, e⟩ := s
  obtain ⟨o', us, e'⟩ := u
  obtain ⟨hpending, -, -⟩ := h
  dsimp only at hpending ⊢
  cases hpending with
  | nil => exact .inl ⟨rfl, rfl⟩
  | keep t h => exact .inr (.inl ⟨t, _, _, rfl, rfl, h⟩)
  | loosen hkind hcolon hmark h => exact .inr (.inr ⟨_, _, _, _, rfl, rfl, hkind, hcolon, hmark, h⟩)

/-- Where the next token has not loosened, it is the same one. -/
theorem nth_zero_eq (h : s.Loosens M u) (hcalm : ¬ s.MayLoosen M) : u.nth 0 = s.nth 0 := by
  unfold Input.nth
  rw [h.endOfFile]
  rcases h.cases with ⟨hs, hu⟩ | ⟨t, ts, us, hs, hu, -⟩ | ⟨t, k, ts, us, hs, -, hkind, hcolon, hmark, -⟩
  · rw [hs, hu]
  · rw [hs, hu]
    rfl
  · have hloose := mayLoosen_of_loosens (e := s.endOfFile) hkind hcolon hmark
    rw [← hs] at hloose
    exact absurd hloose hcalm

theorem kind_eq (h : s.Loosens M u) (hcalm : ¬ s.MayLoosen M) : u.kind = s.kind :=
  congrArg Token.kind (h.nth_zero_eq hcalm)

theorem behind (h : s.Loosens M u) : s.behind.Loosens M u.behind := by
  rcases h.cases with ⟨hs, hu⟩ | ⟨t, ts, us, hs, hu, hrest⟩ | ⟨t, k, ts, us, hs, hu, -, -, -, hrest⟩
  · unfold Input.behind
    rw [hs, hu]
    exact h
  · rw [behind_eq hs, behind_eq hu]
    exact ⟨hrest, by rw [h.offset], h.endOfFile⟩
  · rw [behind_eq hs, behind_eq hu]
    exact ⟨hrest, by rw [h.offset]; rfl, h.endOfFile⟩

end Input.Loosens

/-! ### Whether a declaration starts -/

namespace Token

/-- The token, with the sides that an operator is bound on left out. -/
def unbound (t : Token) : Token := if t.kind.isOperator then { t with kind := .binaryOperator } else t

theorem keepsWords_unbound : KeepsWords unbound := by
  intro t
  unfold unbound
  split
  · next hoperator => exact ⟨rfl, .inr ⟨rfl, hoperator⟩⟩
  · exact ⟨rfl, .inl rfl⟩

theorem Loosens.map_unbound {M : Nat → Prop} {o : Nat} {ts us : List Token} (h : Loosens M o ts us) :
    us.map unbound = ts.map unbound := by
  induction h with
  | nil => rfl
  | keep t _ ih => rw [List.map_cons, List.map_cons, ih]
  | @loosen _ t k _ _ hkind _ _ _ ih =>
    have hloosened : unbound { t with kind := k } = unbound t := by
      obtain ⟨j, text, leading, trailing⟩ := t
      cases hkind <;> rfl
    rw [List.map_cons, List.map_cons, ih, hloosened]

end Token

namespace Input.Loosens

variable {M : Nat → Prop} {s u : Input}

theorem startsWithModifier_eq (h : s.Loosens M u) :
    startsWithModifier u.pending = startsWithModifier s.pending := by
  rw [← startsWithModifier_map Token.keepsWords_unbound, h.pending.map_unbound,
    startsWithModifier_map Token.keepsWords_unbound]

theorem startsWithDetail_eq (h : s.Loosens M u) :
    startsWithDetail u.pending = startsWithDetail s.pending := by
  rw [← startsWithDetail_map Token.keepsWords_unbound, h.pending.map_unbound,
    startsWithDetail_map Token.keepsWords_unbound]

theorem isAtDecl_eq (h : s.Loosens M u) : isAtDecl u = isAtDecl s := by
  have hlength := congrArg List.length h.pending.map_unbound
  rw [List.length_map, List.length_map] at hlength
  rw [isAtDecl, isAtDecl, hlength, ← startsDecl_map Token.keepsWords_unbound, h.pending.map_unbound,
    startsDecl_map Token.keepsWords_unbound]

end Input.Loosens

/-! ### Cutting `>` off an operator -/

/-- What `>` is cut off is one byte shorter. -/
theorem Token.len_eq_of_angle {t : Token} {x : List Char} (htext : t.text.toList = '>' :: x) :
    t.len = 1 + (String.ofList x).utf8ByteSize := by
  rw [len, ← String.ofList_toList (s := t.text), htext, String.utf8ByteSize_ofList,
    String.utf8ByteSize_ofList, String.utf8Len_cons]
  exact Nat.add_comm _ 1

/-- In front of a colon an operator is bound to nothing, whatever it is cut off. -/
theorem Token.Loosens.split {M : Nat → Prop} {o : Nat} {t u e : Token} {ts us : List Token} {c : Char}
    {cs : List Char} (h : Loosens M o (t :: ts) (u :: us)) (htext : t.text.toList = '>' :: c :: cs) :
    Loosens M o
      (⟨.binaryOperator, ">", t.leading, []⟩ ::
        ⟨Lexer.classifyOperator (String.ofList (c :: cs)) true (touchesNext t ts e),
          String.ofList (c :: cs), [], t.trailing⟩ :: ts)
      (⟨.binaryOperator, ">", u.leading, []⟩ ::
        ⟨Lexer.classifyOperator (String.ofList (c :: cs)) true (touchesNext u us e),
          String.ofList (c :: cs), [], u.trailing⟩ :: us) := by
  have htail := len_eq_of_angle htext
  have hangle : (">" : String).utf8ByteSize = 1 := rfl
  have hboth : ∀ {vs}, Loosens M (o + t.fullLen) ts vs → ∀ k, Loosens M o
      (⟨.binaryOperator, ">", t.leading, []⟩ :: ⟨k, String.ofList (c :: cs), [], t.trailing⟩ :: ts)
      (⟨.binaryOperator, ">", t.leading, []⟩ :: ⟨k, String.ofList (c :: cs), [], t.trailing⟩ :: vs) := by
    intro vs hvs k
    have hlen : (⟨.binaryOperator, ">", t.leading, []⟩ : Token).fullLen +
        (⟨k, String.ofList (c :: cs), [], t.trailing⟩ : Token).fullLen = t.fullLen := by
      rw [fullLen, fullLen, fullLen, htail, len, len, hangle]
      dsimp only [Trivia.len]
      omega
    refine .keep _ (.keep _ ?_)
    rwa [Nat.add_assoc, hlen]
  cases h with
  | keep _ h =>
    have hnext : touchesNext t us e = touchesNext t ts e := by
      unfold touchesNext
      cases h with
      | nil => rfl
      | keep => rfl
      | loosen hkind =>
        rw [List.headD_cons, List.headD_cons]
        exact congrArg (fun b => _ && !b) (hkind.eq_of Input.endsOperand rfl rfl)
    rw [hnext]
    exact hboth h _
  | loosen hkind hcolon hmark h =>
    -- both are cut off in front of a colon, which touches no operator
    have hapart : ∀ {vs : List Token} (k : SyntaxKind), headKind vs = .colon →
        touchesNext { t with kind := k } vs e = false := by
      intro vs k hvs
      cases vs with
      | nil => cases hvs
      | cons v vs =>
        have hv : v.kind = .colon := hvs
        rw [touchesNext, List.headD_cons, hv]
        exact Bool.and_false _
    have hcolon' : headKind us = .colon := by
      cases h with
      | nil => cases hcolon
      | keep => exact hcolon
      | loosen hkind =>
        rw [headKind] at hcolon
        rw [hcolon] at hkind
        cases hkind
    rw [hapart _ hcolon', show touchesNext t ts e = false from hapart t.kind hcolon]
    exact hboth h _

theorem Input.Loosens.splitRightAngle {M : Nat → Prop} {s u : Input} (h : s.Loosens M u) :
    s.splitRightAngle.Loosens M u.splitRightAngle := by
  have hpending := h.pending
  unfold Input.splitRightAngle
  rcases h.cases with ⟨hs, hu⟩ | ⟨t, ts, us, hs, hu, -⟩ | ⟨t, k, ts, us, hs, hu, hkind, -⟩
  · rw [hs, hu]
    exact h
  · rw [hs, hu] at hpending ⊢
    dsimp only
    split
    · next c cs htext =>
      split
      · rw [h.endOfFile]
        exact ⟨hpending.split htext, h.offset, rfl⟩
      · exact h
    · exact h
  · rw [hs, hu] at hpending ⊢
    dsimp only
    split
    · next c cs htext =>
      -- only operators are cut in two, and what has loosened still is one
      rw [hkind.eq_of SyntaxKind.isOperator rfl rfl]
      split
      · rw [h.endOfFile]
        exact ⟨hpending.split htext, h.offset, rfl⟩
      · exact h
    · exact h

/-! ### Parentheses and signatures -/

namespace Grammar

variable {M : Nat → Prop} {s u : Input}

theorem balancedLength?_map {f : Token → Token} (hf : KeepsWords f) (depth : Nat) (ts : List Token) :
    balancedLength? depth (ts.map f) = balancedLength? depth ts := by
  induction ts generalizing depth with
  | nil => rfl
  | cons t ts ih =>
    rw [List.map_cons, balancedLength?, balancedLength?, hf.kind_eq_of (· == .leftParen) rfl rfl,
      hf.kind_eq_of (· == .rightParen) rfl rfl]
    simp only [ih]

theorem balancedLength?_eq (h : s.Loosens M u) :
    balancedLength? 0 u.pending = balancedLength? 0 s.pending := by
  rw [← balancedLength?_map Token.keepsWords_unbound, h.pending.map_unbound,
    balancedLength?_map Token.keepsWords_unbound]

/-- A parenthesised run ends with a parenthesis. -/
theorem exists_of_balancedLength? {ts : List Token} {depth n : Nat} (e : Token)
    (h : balancedLength? depth ts = some n) : ∃ m, n = m + 1 ∧ (ts.getD m e).kind = .rightParen := by
  induction ts generalizing depth n with
  | nil => cases h
  | cons t ts ih =>
    have hrest : ∀ {depth'}, (balancedLength? depth' ts).map (· + 1) = some n →
        ∃ m, n = m + 1 ∧ ((t :: ts).getD m e).kind = .rightParen := by
      intro depth' hmap
      obtain ⟨n', hn', rfl⟩ := Option.map_eq_some_iff.mp hmap
      obtain ⟨m, rfl, hkind⟩ := ih hn'
      exact ⟨m + 1, rfl, hkind⟩
    rw [balancedLength?] at h
    split at h
    · exact hrest h
    split at h
    · next hkind =>
      split at h
      · cases h
        exact ⟨0, rfl, eq_of_beq hkind⟩
      · exact hrest h
    · exact hrest h

end Grammar

/-- The kinds that stand in front of the `in` of a signature, and the operators that may stand there when
they loosen. -/
def SyntaxKind.isQuiet (k : SyntaxKind) : Bool :=
  isSignatureKind k ||
    [.leftParen, .rightParen, .leftBracket, .rightBracket, .equal, .prefixOperator].contains k

/-- One token of a signature: it is the last one, there is none, or the signature goes on. -/
theorem Grammar.signatureLength?_cons (depth : Nat) (k : SyntaxKind) :
    (k = .inKw ∧ ∀ t ts, t.kind = k → signatureLength? depth (t :: ts) = some 1) ∨
    (∀ t ts, t.kind = k → signatureLength? depth (t :: ts) = none) ∨
    k.isQuiet = true ∧ ∃ depth', ∀ t ts, t.kind = k →
      signatureLength? depth (t :: ts) = (signatureLength? depth' ts).map (· + 1) := by
  by_cases hin : k = .inKw
  · subst hin
    by_cases hdepth : depth = 0
    · exact .inl ⟨rfl, fun t ts ht => by rw [signatureLength?, ht]; simp [hdepth]⟩
    · exact .inr (.inl fun t ts ht => by rw [signatureLength?, ht]; simp [hdepth])
  by_cases hopen : k = .leftParen ∨ k = .leftBracket
  · refine .inr (.inr ⟨by rcases hopen with rfl | rfl <;> rfl, depth + 1, fun t ts ht => ?_⟩)
    rcases hopen with rfl | rfl <;> rw [signatureLength?, ht]
  by_cases hclose : k = .rightParen ∨ k = .rightBracket
  · by_cases hdepth : depth = 0
    · refine .inr (.inl fun t ts ht => ?_)
      rcases hclose with rfl | rfl <;> rw [signatureLength?, ht] <;> simp [hdepth]
    · refine .inr (.inr ⟨by rcases hclose with rfl | rfl <;> rfl, depth - 1, fun t ts ht => ?_⟩)
      rcases hclose with rfl | rfl <;> rw [signatureLength?, ht] <;> simp [hdepth]
  by_cases hequal : k = .equal
  · subst hequal
    by_cases hdepth : depth = 0
    · exact .inr (.inl fun t ts ht => by rw [signatureLength?, ht]; simp [hdepth])
    · exact .inr (.inr ⟨rfl, depth, fun t ts ht => by rw [signatureLength?, ht]; simp [hdepth]⟩)
  have hother : ∀ t ts, t.kind = k → signatureLength? depth (t :: ts) =
      if isSignatureKind k then (signatureLength? depth ts).map (· + 1) else none := by
    intro t ts ht
    rw [signatureLength?, ht]
    split <;> simp_all
  by_cases hkind : isSignatureKind k = true
  · refine .inr (.inr ⟨by rw [SyntaxKind.isQuiet, hkind, Bool.true_or], depth, fun t ts ht => ?_⟩)
    rw [hother t ts ht, if_pos hkind]
  · exact .inr (.inl fun t ts ht => by rw [hother t ts ht, if_neg hkind])

/-- A signature ends with `in`. -/
theorem Grammar.exists_of_signatureLength? {ts : List Token} {depth n : Nat} (e : Token)
    (h : signatureLength? depth ts = some n) : ∃ m, n = m + 1 ∧ (ts.getD m e).kind = .inKw := by
  induction ts generalizing depth n with
  | nil => cases h
  | cons t ts ih =>
    rcases signatureLength?_cons depth t.kind with ⟨hkind, hlast⟩ | hnone | ⟨-, depth', hgoes⟩
    · rw [hlast t ts rfl] at h
      cases h
      exact ⟨0, rfl, hkind⟩
    · rw [hnone t ts rfl] at h
      cases h
    · rw [hgoes t ts rfl, Option.map_eq_some_iff] at h
      obtain ⟨n', hn', rfl⟩ := h
      obtain ⟨m, rfl, hkind⟩ := ih hn'
      exact ⟨m + 1, rfl, hkind⟩

namespace Token

variable {M : Nat → Prop} {o : Nat} {ts us : List Token}

/-- Up to a prefix operator that loosens there are only tokens that a signature may hold. -/
inductive Penned (M : Nat → Prop) : Nat → List Token → Prop where
  | here {o : Nat} {t : Token} {ts : List Token} (hkind : t.kind = .prefixOperator)
      (hcolon : headKind ts = .colon) (hmark : M (o + t.fullLen)) : Penned M o (t :: ts)
  | there {o : Nat} {t : Token} {ts : List Token} (hkind : t.kind.isQuiet = true)
      (h : Penned M (o + t.fullLen) ts) : Penned M o (t :: ts)

/-- A signature in which no operator loosens is one still. -/
theorem Loosens.signatureLength?_eq_some {n depth : Nat} {e : Token} (h : Loosens M o ts us)
    (hn : signatureLength? depth ts = some n)
    (hcalm : ∀ i < n, ¬ (Input.behind^[i] ⟨o, ts, e⟩).MayLoosen M) : signatureLength? depth us = some n := by
  induction h generalizing depth n with
  | nil => exact hn
  | @keep o t ts us h ih =>
    rcases signatureLength?_cons depth t.kind with ⟨-, hlast⟩ | hnone | ⟨-, depth', hgoes⟩
    · rw [hlast t us rfl, ← hlast t ts rfl, hn]
    · rw [hnone t ts rfl] at hn
      cases hn
    · rw [hgoes t ts rfl, Option.map_eq_some_iff] at hn
      obtain ⟨n', hn', rfl⟩ := hn
      rw [hgoes t us rfl, ih hn' fun i hi => hcalm (i + 1) (Nat.succ_lt_succ hi)]
      rfl
  | @loosen o t k ts us hkind hcolon hmark h ih =>
    obtain ⟨m, rfl, -⟩ := exists_of_signatureLength? t hn
    exact absurd (Input.mayLoosen_of_loosens hkind hcolon hmark) (hcalm 0 m.succ_pos)

/-- Where a signature comes up there was a prefix operator. -/
theorem Loosens.penned {n depth : Nat} (h : Loosens M o ts us) (hnone : signatureLength? depth ts = none)
    (hn : signatureLength? depth us = some n) : Penned M o ts := by
  induction h generalizing depth n with
  | nil =>
    rw [hnone] at hn
    cases hn
  | @keep o t ts us h ih =>
    rcases signatureLength?_cons depth t.kind with ⟨-, hlast⟩ | hnot | ⟨hquiet, depth', hgoes⟩
    · rw [hlast t ts rfl] at hnone
      cases hnone
    · rw [hnot t us rfl] at hn
      cases hn
    · rw [hgoes t ts rfl, Option.map_eq_none_iff] at hnone
      rw [hgoes t us rfl, Option.map_eq_some_iff] at hn
      obtain ⟨n', hn', -⟩ := hn
      exact .there hquiet (ih hnone hn')
  | @loosen o t k ts us hkind hcolon hmark h ih =>
    generalize hj : t.kind = j at hkind
    cases hkind with
    | left =>
      -- no signature goes on at a postfix operator, so it was a prefix operator
      rw [signatureLength?] at hn
      cases hn
    | free => exact .here hj hcolon hmark

end Token

end SwiftTidy
