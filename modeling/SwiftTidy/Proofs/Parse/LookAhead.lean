import SwiftTidy.Proofs.Parse.TokenVector

/-!
# Look-ahead by index

Some choices look at any number of tokens ahead: whether a declaration starts here, behind
attributes and modifiers, where an attribute's parentheses are closed, and how long the signature of
a closure is.  Over a vector these are loops over an index that may run past the last token, with a
counter of open parentheses.  `Sees` says what such a loop finds from an index on; with it the
loops end by themselves, the counters do not fall below zero, and the results are those of
`startsDecl`, `skipParens`, `balancedLength?` and `signatureLength?` on the tokens that are left.
-/

namespace SwiftTidy

namespace TokenVector

open Grammar

/-! ### What stands at an index and behind it -/

/-- From the index on there are these tokens, and then nothing but the end of the file. -/
structure Sees (source : String) (v : TokenVector) (index : Nat) (ts : List Token) : Prop where
  ne_endOfFile : ∀ t ∈ ts, t.kind ≠ .endOfFile
  lookup : ∀ n t, ts[n]? = some t → v.lookup source (index + n) = .ok t
  behind : ∀ n, ts.length ≤ n → v.kindAt (index + n) = .ok .endOfFile

variable {source : String} {v : TokenVector} {index : Nat} {ts : List Token} {t : Token}

theorem kindAt_of_lookup {n : Nat} (h : v.lookup source n = .ok t) : v.kindAt n = .ok t.kind := by
  obtain ⟨l, hl, htoken⟩ := Except.bind_eq_ok.mp h
  unfold kindAt
  rw [hl]
  exact congrArg Except.ok (Lexed.token_eq_ok.mp htoken).2.1

/-- A vector that shows an input lets every look-ahead see the tokens that are left. -/
theorem Shows.sees {s : Input} (h : v.Shows source s) : v.Sees source v.pos s.pending where
  ne_endOfFile := h.ne_endOfFile
  lookup n t hn := by
    rw [h.lookup n, Input.nth, List.getD_eq_getElem?_getD, hn]
    rfl
  behind n hn := by
    rw [h.kindAt n, Input.kindAt, Input.nth, List.getD_eq_default _ _ hn, h.kind_endOfFile]

namespace Sees

theorem drop (h : v.Sees source index ts) (m : Nat) :
    v.Sees source (index + m) (ts.drop m) where
  ne_endOfFile t ht := h.ne_endOfFile t (List.mem_of_mem_drop ht)
  lookup n t hn := by
    rw [List.getElem?_drop] at hn
    rw [Nat.add_assoc]
    exact h.lookup _ t hn
  behind n hn := by
    rw [List.length_drop] at hn
    rw [Nat.add_assoc]
    exact h.behind _ (by omega)

theorem kindAt (h : v.Sees source index ts) : v.kindAt index = .ok (headKind ts) := by
  cases ts with
  | nil => exact h.behind 0 (Nat.le_refl _)
  | cons t ts => exact kindAt_of_lookup (h.lookup 0 t rfl)

theorem kindAt_add (h : v.Sees source index ts) (n : Nat) :
    v.kindAt (index + n) = .ok (headKind (ts.drop n)) :=
  (h.drop n).kindAt

theorem tail (h : v.Sees source index (t :: ts)) : v.Sees source (index + 1) ts := h.drop 1

end Sees

/-! ### Parentheses -/

/-- The number of entries from an index on up to the parenthesis that closes the outermost of those
open. -/
def balancedFrom (v : TokenVector) : (fuel depth index : Nat) → Except (Halt Empty) (Option Nat)
  | 0, _, _ => .error .stuck
  | fuel + 1, depth, index => do
    match ← (v.kindAt index).mapError .fault with
    | .endOfFile => return none
    | .leftParen => return (← balancedFrom v fuel (depth + 1) (index + 1)).map (· + 1)
    | .rightParen =>
      let depth ← (Offset.sub depth 1).mapError .fault
      if depth = 0 then return some 1
      else return (← balancedFrom v fuel depth (index + 1)).map (· + 1)
    | _ => return (← balancedFrom v fuel depth (index + 1)).map (· + 1)

/-- The index behind the parenthesis that closes the outermost of those open. -/
def skipParensFrom (v : TokenVector) : (fuel depth index : Nat) → Except (Halt Empty) Nat
  | 0, _, _ => .error .stuck
  | fuel + 1, depth, index => do
    match ← (v.kindAt index).mapError .fault with
    | .endOfFile => return index
    | .leftParen => skipParensFrom v fuel (depth + 1) (index + 1)
    | .rightParen =>
      let depth ← (Offset.sub depth 1).mapError .fault
      if depth = 0 then return index + 1 else skipParensFrom v fuel depth (index + 1)
    | _ => skipParensFrom v fuel depth (index + 1)

/-- A parenthesis is open wherever one is closed, so the counter does not fall below zero. -/
theorem balancedFrom_eq {fuel depth : Nat} (h : v.Sees source index ts) (hfuel : ts.length < fuel)
    (hopen : depth = 0 → headKind ts = .leftParen) :
    v.balancedFrom fuel depth index = .ok (balancedLength? depth ts) := by
  induction fuel generalizing depth index ts with
  | zero => omega
  | succ fuel ih =>
    unfold balancedFrom
    rw [h.kindAt]
    cases ts with
    | nil => rfl
    | cons t ts =>
      rw [List.length_cons] at hfuel
      -- behind the first token a parenthesis is open
      have hlater : ∀ d, 0 < d →
          v.balancedFrom fuel d (index + 1) = .ok (balancedLength? d ts) :=
        fun d hd => ih h.tail (by omega) fun hzero => absurd hzero (Nat.ne_of_gt hd)
      have hpos : t.kind ≠ .leftParen → 0 < depth := fun hkind =>
        Nat.pos_of_ne_zero fun hzero => hkind (hopen hzero)
      rw [balancedLength?]
      dsimp only [headKind, Except.mapError, bind, Except.bind]
      split
      · next hkind => exact absurd hkind (h.ne_endOfFile t List.mem_cons_self)
      · next hkind =>
        rw [hkind, hlater _ (Nat.succ_pos depth)]
        rfl
      · next hkind =>
        have hdepth := hpos (by rw [hkind]; decide)
        rw [hkind, Offset.sub_eq_ok hdepth]
        by_cases hlast : depth ≤ 1
        · have hzero : depth - 1 = 0 := by omega
          rw [if_neg (by decide), if_pos (by rfl), if_pos hlast]
          dsimp only
          rw [if_pos hzero]
          rfl
        · have hzero : ¬ depth - 1 = 0 := by omega
          rw [if_neg (by decide), if_pos (by rfl), if_neg hlast]
          dsimp only
          rw [if_neg hzero, hlater _ (by omega)]
          rfl
      · next hend hleft hright =>
        rw [if_neg (by simpa using hleft), if_neg (by simpa using hright), hlater _ (hpos hleft)]
        rfl

theorem skipParensFrom_eq {fuel depth : Nat} (h : v.Sees source index ts)
    (hfuel : ts.length < fuel) (hopen : depth = 0 → headKind ts = .leftParen) :
    ∃ index', v.skipParensFrom fuel depth index = .ok index' ∧
      v.Sees source index' (skipParens depth ts) := by
  induction fuel generalizing depth index ts with
  | zero => omega
  | succ fuel ih =>
    unfold skipParensFrom
    rw [h.kindAt]
    cases ts with
    | nil => exact ⟨index, rfl, h⟩
    | cons t ts =>
      rw [List.length_cons] at hfuel
      have hlater : ∀ d, 0 < d → ∃ index', v.skipParensFrom fuel d (index + 1) = .ok index' ∧
          v.Sees source index' (skipParens d ts) :=
        fun d hd => ih h.tail (by omega) fun hzero => absurd hzero (Nat.ne_of_gt hd)
      have hpos : t.kind ≠ .leftParen → 0 < depth := fun hkind =>
        Nat.pos_of_ne_zero fun hzero => hkind (hopen hzero)
      rw [skipParens]
      dsimp only [headKind, Except.mapError, bind, Except.bind]
      split
      · next hkind => exact absurd hkind (h.ne_endOfFile t List.mem_cons_self)
      · next hkind =>
        rw [hkind]
        exact hlater _ (Nat.succ_pos depth)
      · next hkind =>
        have hdepth := hpos (by rw [hkind]; decide)
        rw [hkind, Offset.sub_eq_ok hdepth, if_neg (by decide), if_pos (by rfl)]
        dsimp only
        by_cases hlast : depth ≤ 1
        · have hzero : depth - 1 = 0 := by omega
          rw [if_pos hlast, if_pos hzero]
          exact ⟨index + 1, rfl, h.tail⟩
        · have hzero : ¬ depth - 1 = 0 := by omega
          rw [if_neg hlast, if_neg hzero]
          exact hlater _ (by omega)
      · next hend hleft hright =>
        rw [if_neg (by simpa using hleft), if_neg (by simpa using hright)]
        exact hlater _ (hpos hleft)

/-! ### The signature of a closure -/

/-- The number of entries from an index on that make up the signature of a closure, its `in`
included. -/
def signatureFrom (v : TokenVector) : (fuel depth index : Nat) → Except (Halt Empty) (Option Nat)
  | 0, _, _ => .error .stuck
  | fuel + 1, depth, index => do
    match ← (v.kindAt index).mapError .fault with
    | .inKw => if depth = 0 then return some 1 else return none
    | .leftParen | .leftBracket =>
      return (← signatureFrom v fuel (depth + 1) (index + 1)).map (· + 1)
    | .rightParen | .rightBracket =>
      match Offset.checkedSub depth 1 with
      | none => return none
      | some depth => return (← signatureFrom v fuel depth (index + 1)).map (· + 1)
    | .equal =>
      if depth = 0 then return none
      else return (← signatureFrom v fuel depth (index + 1)).map (· + 1)
    | k =>
      if isSignatureKind k then return (← signatureFrom v fuel depth (index + 1)).map (· + 1)
      else return none

theorem signatureFrom_eq {fuel depth : Nat} (h : v.Sees source index ts)
    (hfuel : ts.length < fuel) :
    v.signatureFrom fuel depth index = .ok (signatureLength? depth ts) := by
  induction fuel generalizing depth index ts with
  | zero => omega
  | succ fuel ih =>
    unfold signatureFrom
    rw [h.kindAt]
    cases ts with
    | nil => rfl
    | cons t ts =>
      rw [List.length_cons] at hfuel
      have hlater : ∀ d, v.signatureFrom fuel d (index + 1) = .ok (signatureLength? d ts) :=
        fun d => ih h.tail (by omega)
      have hsub : Offset.checkedSub depth 1 = if depth = 0 then none else some (depth - 1) := by
        by_cases hzero : depth = 0
        · rw [hzero]
          rfl
        · rw [Offset.checkedSub, Offset.sub_eq_ok (by omega), if_neg hzero]
          rfl
      -- one case for each kind that moves the depth, and one for all other kinds
      dsimp only [headKind, Except.mapError, bind, Except.bind]
      simp only [hlater, hsub]
      split
      · next hkind =>
        rw [signatureLength?, hkind]
        by_cases hzero : depth = 0
        · subst hzero
          rfl
        · simp only [if_neg hzero]
          rfl
      · next hkind =>
        rw [signatureLength?, hkind]
        rfl
      · next hkind =>
        rw [signatureLength?, hkind]
        rfl
      · next hkind =>
        rw [signatureLength?, hkind]
        by_cases hzero : depth = 0
        · subst hzero
          rfl
        · simp only [if_neg hzero]
          rfl
      · next hkind =>
        rw [signatureLength?, hkind]
        by_cases hzero : depth = 0
        · subst hzero
          rfl
        · simp only [if_neg hzero]
          rfl
      · next hkind =>
        rw [signatureLength?, hkind]
        by_cases hzero : depth = 0
        · subst hzero
          rfl
        · simp only [if_neg hzero]
          rfl
      · next hin hleft hbracket hright hclosing hequal =>
        rw [signatureLength?]
        by_cases hkind : isSignatureKind t.kind = true
        · rw [if_pos hkind]
          refine congrArg Except.ok ?_
          split
          all_goals first | contradiction | rw [if_pos hkind]
        · rw [if_neg hkind]
          refine congrArg Except.ok ?_
          split
          all_goals first | contradiction | rw [if_neg hkind]

/-! ### Declarations -/

/-- Whether a modifier stands at an index. -/
def isModifierAt (source : String) (v : TokenVector) (index : Nat) : Except Fault Bool := do
  match ← v.kindAt index with
  | .identifier => return modifierWords.contains (← v.lookup source index).text
  | .classKw =>
    let next ← v.kindAt (index + 1)
    return next == .funcKw || next == .varKw || next == .letKw
  | _ => return false

/-- Whether a declaration starts at an index, behind attributes and modifiers. -/
def startsDeclFrom (source : String) (v : TokenVector) :
    (fuel index : Nat) → Except (Halt Empty) Bool
  | 0, _ => .error .stuck
  | fuel + 1, index => do
    let kind ← (v.kindAt index).mapError .fault
    if kind == .atSign then
      if (← (v.kindAt (index + 2)).mapError .fault) == .leftParen then
        startsDeclFrom source v fuel (← v.skipParensFrom (v.tokens.length + 1) 0 (index + 2))
      else startsDeclFrom source v fuel (index + 2)
    else if ← (v.isModifierAt source index).mapError .fault then
      if (← (v.kindAt (index + 1)).mapError .fault) == .leftParen &&
          (← (v.kindAt (index + 3)).mapError .fault) == .rightParen then
        startsDeclFrom source v fuel (index + 4)
      else startsDeclFrom source v fuel (index + 1)
    else return isDeclKeyword kind

theorem isModifierAt_eq (h : v.Sees source index ts) :
    v.isModifierAt source index = .ok (startsWithModifier ts) := by
  unfold isModifierAt
  rw [h.kindAt]
  cases ts with
  | nil => rfl
  | cons t ts =>
    have hlookup : v.lookup source index = .ok t := h.lookup 0 t rfl
    rw [hlookup, h.tail.kindAt]
    dsimp only [headKind, bind, Except.bind]
    split
    · next hkind =>
      rw [startsWithModifier, hkind]
      rfl
    · next hkind =>
      rw [startsWithModifier, hkind]
      rfl
    · next hword hclass =>
      rw [startsWithModifier]
      split
      all_goals first | contradiction | rfl

theorem skipParens_length_le (depth : Nat) (ts : List Token) :
    (skipParens depth ts).length ≤ ts.length := by
  induction ts generalizing depth with
  | nil => exact Nat.le_refl 0
  | cons t ts ih =>
    have hlater : ∀ d, (skipParens d ts).length ≤ ts.length + 1 := fun d =>
      Nat.le_succ_of_le (ih d)
    rw [skipParens]
    split_ifs
    · exact hlater _
    · exact Nat.le_succ _
    · exact hlater _
    · exact hlater _

/-- Attributes and modifiers end before the tokens do. -/
theorem startsDeclFrom_eq {fuel fuel' : Nat} (h : v.Sees source index ts)
    (hlength : ts.length ≤ v.tokens.length) (hfuel : ts.length < fuel) (hfuel' : ts.length ≤ fuel') :
    v.startsDeclFrom source fuel index = .ok (startsDecl fuel' ts) := by
  induction fuel generalizing fuel' index ts with
  | zero => omega
  | succ fuel ih =>
    have hlater : ∀ {i us f}, v.Sees source i us → us.length < ts.length → us.length ≤ f →
        v.startsDeclFrom source fuel i = .ok (startsDecl f us) :=
      fun hsees hless hf => ih hsees (by omega) (by omega) hf
    unfold startsDeclFrom
    rw [h.kindAt, h.kindAt_add 2, isModifierAt_eq h, h.kindAt_add 1, h.kindAt_add 3]
    dsimp only [Except.mapError, bind, Except.bind]
    cases ts with
    | nil =>
      cases fuel' <;> rfl
    | cons t ts =>
      rw [List.length_cons] at hfuel' hlength
      obtain ⟨fuel', rfl⟩ := Nat.exists_eq_succ_of_ne_zero (Nat.ne_zero_of_lt hfuel')
      have hfewer : ∀ n, ((t :: ts).drop (n + 1)).length ≤ ts.length := by
        intro n
        rw [List.drop_succ_cons, List.length_drop]
        exact Nat.sub_le _ _
      have hdrop : ∀ n, v.startsDeclFrom source fuel (index + (n + 1))
          = .ok (startsDecl fuel' ((t :: ts).drop (n + 1))) := fun n =>
        hlater (h.drop (n + 1)) (Nat.lt_succ_of_le (hfewer n)) (Nat.le_trans (hfewer n) (by omega))
      rw [startsDecl]
      dsimp only
      -- what is skipped is an attribute with its arguments, or a modifier with its detail
      by_cases hat : (headKind (t :: ts) == .atSign) = true
      · rw [if_pos hat, if_pos hat]
        by_cases hparen : (headKind ((t :: ts).drop 2) == .leftParen) = true
        · have hrest : ((t :: ts).drop 2).length ≤ ts.length := hfewer 1
          have hfuel : ((t :: ts).drop 2).length < v.tokens.length + 1 := by omega
          obtain ⟨index', hskip, hsees⟩ := skipParensFrom_eq (h.drop 2) hfuel
            fun (_ : 0 = 0) => eq_of_beq hparen
          have hskipped := skipParens_length_le 0 ((t :: ts).drop 2)
          rw [if_pos hparen, if_pos hparen, hskip]
          exact hlater hsees (by rw [List.length_cons]; omega) (by omega)
        · rw [if_neg hparen, if_neg hparen]
          exact hdrop 1
      rw [if_neg hat, if_neg hat]
      by_cases hmodifier : startsWithModifier (t :: ts) = true
      · have hdetail : startsWithDetail ((t :: ts).drop 1)
            = (headKind ((t :: ts).drop 1) == .leftParen &&
              headKind ((t :: ts).drop 3) == .rightParen) := rfl
        rw [if_pos hmodifier, if_pos hmodifier, hdetail]
        by_cases hparens : (headKind ((t :: ts).drop 1) == .leftParen &&
            headKind ((t :: ts).drop 3) == .rightParen) = true
        · rw [hparens, if_pos rfl]
          exact hdrop 3
        · rw [Bool.eq_false_iff.mpr hparens, if_neg Bool.false_ne_true]
          exact hdrop 0
      · rw [if_neg hmodifier, if_neg hmodifier]
        rfl

/-! ### All of it -/

/-- However far a look-ahead reaches over a vector, every index it looks at has an entry, every
entry cuts a token out of the source, no counter falls below zero and every loop ends; and what is
found is what the tokens that are left say. -/
structure LooksSafely (source : String) (v : TokenVector) (s : Input) : Prop where
  lookup : ∀ n, v.lookup source (v.pos + n) = .ok (s.nth n)
  kindAt : ∀ n, v.kindAt (v.pos + n) = .ok (s.kindAt n)
  startsDecl : v.startsDeclFrom source (v.tokens.length + 1) v.pos = .ok (isAtDecl s)
  signature :
    v.signatureFrom (v.tokens.length + 1) 0 v.pos = .ok (signatureLength? 0 s.pending)
  /-- Parentheses are only counted from one that opens. -/
  balanced : s.isAt .leftParen = true →
    v.balancedFrom (v.tokens.length + 1) 0 v.pos = .ok (balancedLength? 0 s.pending)

theorem Shows.looksSafely {s : Input} (h : v.Shows source s) : v.LooksSafely source s where
  lookup := h.lookup
  kindAt := h.kindAt
  startsDecl := by
    have hlength := h.length_eq
    exact startsDeclFrom_eq h.sees (by omega) (by omega) (Nat.le_refl _)
  signature := by
    have hlength := h.length_eq
    exact signatureFrom_eq h.sees (by omega)
  balanced hat := by
    have hlength := h.length_eq
    refine balancedFrom_eq h.sees (by omega) fun _ => ?_
    have hkind : v.kindAt v.pos = .ok .leftParen := by
      rw [← eq_of_beq hat]
      exact h.kindAt 0
    rw [h.sees.kindAt] at hkind
    exact Except.ok.inj hkind

end TokenVector

end SwiftTidy
