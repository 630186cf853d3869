import SwiftTidy.Proofs.Parse.Following
import SwiftTidy.Proofs.Parse.Progress
import SwiftTidy.Proofs.Tree.Rearranging

/-!
# Tokens with parts in another order

`Token.Moves P R b o ts us` says that `us` is `ts` with the parts of the blocks of the plan `P` in another
order, as far as the end of the region `R`: the tokens of a part are alike there, which is to say that they
differ in trivia that no grammar looks at, and behind the region stands something that closes it in both.

A grammar looks beyond the end of what it reads, so it is asked of the last token of a part that it does
not: no attribute, no parenthesis and no period stands there, and behind a pattern no operator.
-/

namespace SwiftTidy

open Grammar

/-! ### Seams -/

/-- What parts meet at. -/
inductive Seam where
  /-- The end of the file. -/
  | file
  /-- The end of a case of a switch. -/
  | cases
  /-- The end of a pattern in a label. -/
  | items
  deriving DecidableEq

namespace Seam

/-- The kinds of the tokens that stand behind a part. -/
def closers : Seam → List SyntaxKind
  | file => [.endOfFile]
  | cases => [.caseKw, .defaultKw, .rightBrace]
  | items => [.comma, .colon]

/-- The kinds of the tokens that stand behind any part. -/
def kinds : List SyntaxKind := [.endOfFile, .caseKw, .defaultKw, .rightBrace, .comma, .colon]

/-- The kind of the token behind which the parts stand. -/
def opener : Seam → Option SyntaxKind
  | file => none
  | cases => some .leftBrace
  | items => some .caseKw

/-- Whether a part may end with a token of the kind. -/
def admits (seam : Seam) (k : SyntaxKind) : Bool :=
  k != .period && k != .leftParen && k != .atSign && !(seam == items && k.isOperator)

/-- What stands between two parts, of `n` bytes: nothing between cases, and a comma between patterns. -/
def Joins (seam : Seam) (ts : List Token) (n : Nat) (us : List Token) : Prop :=
  match seam with
  | items => ∃ c : Token, ts = c :: us ∧ n = c.fullLen ∧ c.kind = .comma ∧ c.text = ","
  | _ => ts = us ∧ n = 0

/-- A test on kinds does not tell apart what stands behind a part. -/
def Blurs {α : Type} (seam : Seam) (f : SyntaxKind → α) : Prop :=
  ∀ k ∈ seam.closers, ∀ k' ∈ seam.closers, f k' = f k

instance {α : Type} [DecidableEq α] (seam : Seam) (f : SyntaxKind → α) : Decidable (seam.Blurs f) :=
  inferInstanceAs (Decidable (∀ k ∈ seam.closers, ∀ k' ∈ seam.closers, f k' = f k))

/-- The token behind which parts stand tells what they meet at. -/
theorem eq_of_opener {seam seam' : Seam} {k : SyntaxKind} (h : seam.opener = some k)
    (h' : seam'.opener = some k) : seam = seam' := by
  rw [← h'] at h
  revert h
  cases seam <;> cases seam' <;> decide

theorem mem_kinds {seam : Seam} {k : SyntaxKind} (h : k ∈ seam.closers) : k ∈ kinds := by
  revert k
  cases seam <;> decide

end Seam

/-- Tokens up to a seam, the byte at which that is, and what stands behind it in two orders. -/
structure Region where
  seam : Seam
  stop : Nat
  rest : List Token
  rest' : List Token

/-- A part: where it starts and its length, and the tokens from its start and from its end on, in two
orders. -/
structure Part where
  start : Nat
  len : Nat
  ts : List Token
  rest : List Token
  us : List Token
  rest' : List Token

namespace Part

/-- The tokens of the part. -/
def region (seam : Seam) (x : Part) : Region := ⟨seam, x.start + x.len, x.rest, x.rest'⟩

/-- The parts stand one behind another in the first order, from the tokens `ts` at byte `o` to the tokens
`ts'` at byte `o'`. -/
inductive Follow (seam : Seam) : (o : Nat) → (ts : List Token) → List Part → (o' : Nat) →
    (ts' : List Token) → Prop where
  | last (x : Part) : Follow seam x.start x.ts [x] (x.start + x.len) x.rest
  | cons {x : Part} {xs : List Part} {n o o' : Nat} {ts ts' : List Token} (hjoins : seam.Joins x.rest n ts)
      (ho : o = x.start + x.len + n) (hrest : Follow seam o ts xs o' ts') :
      Follow seam x.start x.ts (x :: xs) o' ts'

/-- The parts stand one behind another in the second order. -/
inductive Follow' (seam : Seam) : (us : List Token) → List Part → (us' : List Token) → Prop where
  | last (x : Part) : Follow' seam x.us [x] x.rest'
  | cons {x : Part} {xs : List Part} {n : Nat} {us us' : List Token} (hjoins : seam.Joins x.rest' n us)
      (hrest : Follow' seam us xs us') : Follow' seam x.us (x :: xs) us'

end Part

namespace Token

/-- Whether an operator with the trivia behind it touches the next of the tokens. -/
def touches (t : Token) : List Token → Bool
  | [] => false
  | n :: _ => t.trailing.isEmpty && n.leading.isEmpty && !Input.endsOperand n.kind

/-- The tokens `t :: ts` and `u :: us` look alike where they are read from the first on.  No grammar looks
at the line break in front of the first token, unless that stands `behind` something that was read and
does not start a case. -/
structure Sees (behind : Bool) (t u : Token) (ts us : List Token) : Prop where
  kind : u.kind = t.kind
  text : u.text = t.text
  newline : behind = true → t.kind ≠ .caseKw → t.kind ≠ .defaultKw →
    u.leading.containsNewline = t.leading.containsNewline
  decl : startsDecl (us.length + 1) (u :: us) = startsDecl (ts.length + 1) (t :: ts)
  touches : t.kind.isOperator = true → u.touches us = t.touches ts

/-- The second tokens are the first with parts in another order, up to the end of the region. -/
inductive Moves (P : Plan) : Region → Bool → Nat → List Token → List Token → Prop where
  /-- The region ends here. -/
  | stop {R : Region} {behind : Bool} : Moves P R behind R.stop R.rest R.rest'
  /-- A token stays. -/
  | keep {R : Region} {behind : Bool} {o : Nat} {t u : Token} {ts us : List Token}
      (hinside : o < R.stop) (hsees : Sees behind t u ts us)
      (hsignature : t.kind = .leftBrace → signatureLength? 0 us = signatureLength? 0 ts)
      (hclear : ∀ i, 0 < i → i ≤ t.fullLen → P (o + i) = none)
      (hadmits : o + t.fullLen = R.stop → R.seam.admits t.kind = true)
      (hrest : Moves P R true (o + t.fullLen) ts us) : Moves P R behind o (t :: ts) (u :: us)
  /-- A token stays, and the parts behind it stand in the order of their block. -/
  | block {R : Region} {behind : Bool} {o o' : Nat} {t u : Token} {ts us ts' us' : List Token}
      {seam : Seam} {b : Block} {xs : List Part}
      (hinside : o < R.stop) (hsees : Sees behind t u ts us) (hopener : seam.opener = some t.kind)
      (hplan : P (o + t.fullLen) = some b) (hlens : xs.map Part.len = b.lens)
      (hfollow : Part.Follow seam (o + t.fullLen) ts xs o' ts')
      (hfollow' : Part.Follow' seam us (b.arrange xs) us')
      (hheads : ∀ x ∈ xs, 0 < x.len ∧ headKind x.ts ≠ .colon ∧ headKind x.ts ≠ .rightParen)
      (hclosers : ∀ x ∈ xs, headKind x.rest ∈ seam.closers ∧ headKind x.rest' ∈ seam.closers)
      (hparts : ∀ x ∈ xs, Moves P (x.region seam) (seam == .cases) x.start x.ts x.us)
      (hrest : Moves P R true o' ts' us') : Moves P R behind o (t :: ts) (u :: us)

end Token

/-- The second input is the first with parts in another order, up to the end of the region. -/
structure Input.Moves (P : Plan) (R : Region) (behind : Bool) (s u : Input) : Prop where
  pending : Token.Moves P R behind s.offset s.pending u.pending
  closer : headKind R.rest ∈ R.seam.closers
  closer' : headKind R.rest' ∈ R.seam.closers
  ready : s.Ready
  kind_endOfFile' : u.endOfFile.kind = .endOfFile

variable {P : Plan} {R : Region} {b : Bool} {o : Nat} {ts us : List Token}

namespace Token

variable {t u : Token}

theorem Sees.weaken (h : Sees true t u ts us) : Sees b t u ts us :=
  ⟨h.kind, h.text, fun _ => h.newline rfl, h.decl, h.touches⟩

namespace Moves

theorem le_stop (h : Moves P R b o ts us) : o ≤ R.stop := by
  cases h with
  | stop => exact Nat.le_refl _
  | keep hinside => exact Nat.le_of_lt hinside
  | block hinside => exact Nat.le_of_lt hinside

theorem weaken (h : Moves P R true o ts us) : Moves P R b o ts us := by
  cases h with
  | stop => exact .stop
  | keep hinside hsees hsignature hclear hadmits hrest =>
    exact .keep hinside hsees.weaken hsignature hclear hadmits hrest
  | block hinside hsees hopener hplan hlens hfollow hfollow' hheads hclosers hparts hrest =>
    exact .block hinside hsees.weaken hopener hplan hlens hfollow hfollow' hheads hclosers hparts hrest

/-- At the end of the region stands what is behind it. -/
theorem eq_rest (h : Moves P R b o ts us) (ho : o = R.stop) : ts = R.rest ∧ us = R.rest' := by
  cases h with
  | stop => exact ⟨rfl, rfl⟩
  | keep hinside => exact absurd ho (Nat.ne_of_lt hinside)
  | block hinside => exact absurd ho (Nat.ne_of_lt hinside)

/-- Before the end of the region both start with a token. -/
theorem exists_head (h : Moves P R b o ts us) (ho : o < R.stop) :
    ∃ t u ts' us', ts = t :: ts' ∧ us = u :: us' ∧ Sees b t u ts' us' := by
  cases h with
  | stop => exact absurd ho (Nat.lt_irrefl _)
  | keep _ hsees => exact ⟨_, _, _, _, rfl, rfl, hsees⟩
  | block _ hsees => exact ⟨_, _, _, _, rfl, rfl, hsees⟩

end Moves

end Token

/-- A part has a token, ends where it should, and has its tokens in both orders. -/
structure Part.Stands (P : Plan) (seam : Seam) (x : Part) : Prop where
  len_pos : 0 < x.len
  closer : headKind x.rest ∈ seam.closers
  closer' : headKind x.rest' ∈ seam.closers
  pending : Token.Moves P (x.region seam) (seam == .cases) x.start x.ts x.us

/-! ### Inputs -/

namespace Part

/-- Parts that follow each other start with the first of them. -/
theorem Follow.exists_cons {seam : Seam} {xs : List Part} {o' : Nat} {ts' : List Token}
    (h : Follow seam o ts xs o' ts') : ∃ x ys, xs = x :: ys ∧ o = x.start ∧ ts = x.ts := by
  cases h with
  | last x => exact ⟨x, [], rfl, rfl, rfl⟩
  | @cons x ys => exact ⟨x, ys, rfl, rfl, rfl⟩

theorem Follow'.exists_cons {seam : Seam} {xs : List Part} {us' : List Token}
    (h : Follow' seam us xs us') : ∃ x ys, xs = x :: ys ∧ us = x.us := by
  cases h with
  | last x => exact ⟨x, [], rfl, rfl⟩
  | @cons x ys => exact ⟨x, ys, rfl, rfl⟩

end Part

namespace Input

theorem Ready.behind {s : Input} (h : s.Ready) : s.behind.Ready := by
  unfold Input.behind
  split
  · exact h
  · next t rest hs => exact (h.past_of_pending hs _).ready

namespace Moves

variable {s u : Input} {k : SyntaxKind} {α : Type}

theorem le_stop (h : s.Moves P R b u) : s.offset ≤ R.stop := h.pending.le_stop

theorem kind_endOfFile (h : s.Moves P R b u) : s.endOfFile.kind = .endOfFile := h.ready.kind_endOfFile

theorem kind_endOfFile_behind' (h : s.Moves P R b u) : u.behind.endOfFile.kind = .endOfFile := by
  unfold Input.behind
  split <;> exact h.kind_endOfFile'

/-! #### At the end of the region -/

theorem pending_eq (h : s.Moves P R b u) (hstop : s.offset = R.stop) :
    s.pending = R.rest ∧ u.pending = R.rest' :=
  h.pending.eq_rest hstop

theorem kind_mem_closers (h : s.Moves P R b u) (hstop : s.offset = R.stop) :
    s.kind ∈ R.seam.closers ∧ u.kind ∈ R.seam.closers := by
  obtain ⟨hs, hu⟩ := h.pending_eq hstop
  rw [Input.kind_eq_headKind h.kind_endOfFile, Input.kind_eq_headKind h.kind_endOfFile', hs, hu]
  exact ⟨h.closer, h.closer'⟩

/-! #### Before the end of the region -/

theorem exists_head (h : s.Moves P R b u) (hin : s.offset < R.stop) :
    ∃ t v ts us, s.pending = t :: ts ∧ u.pending = v :: us ∧ Token.Sees b t v ts us :=
  h.pending.exists_head hin

theorem kind_eq (h : s.Moves P R b u) (hin : s.offset < R.stop) : u.kind = s.kind := by
  obtain ⟨t, v, ts, us, hs, hu, hsees⟩ := h.exists_head hin
  unfold Input.kind kindAt nth
  rw [hs, hu]
  exact hsees.kind

theorem isAt_eq (h : s.Moves P R b u) (hin : s.offset < R.stop) (k : SyntaxKind) :
    u.isAt k = s.isAt k := by
  rw [isAt, isAt, h.kind_eq hin]

theorem text_eq (h : s.Moves P R b u) (hin : s.offset < R.stop) : u.text = s.text := by
  obtain ⟨t, v, ts, us, hs, hu, hsees⟩ := h.exists_head hin
  unfold Input.text nth
  rw [hs, hu]
  exact hsees.text

theorem isAfterNewline_eq (h : s.Moves P R true u) (hin : s.offset < R.stop) (hcase : s.kind ≠ .caseKw)
    (hdefault : s.kind ≠ .defaultKw) : u.isAfterNewline = s.isAfterNewline := by
  obtain ⟨t, v, ts, us, hs, hu, hsees⟩ := h.exists_head hin
  have hkind : s.kind = t.kind := by
    unfold Input.kind kindAt nth
    rw [hs]
    rfl
  rw [hkind] at hcase hdefault
  unfold isAfterNewline nth
  rw [hs, hu]
  exact hsees.newline rfl hcase hdefault

theorem isAtDecl_eq (h : s.Moves P R b u) (hin : s.offset < R.stop) : isAtDecl u = isAtDecl s := by
  obtain ⟨t, v, ts, us, hs, hu, hsees⟩ := h.exists_head hin
  unfold isAtDecl
  rw [hs, hu, List.length_cons, List.length_cons]
  exact hsees.decl

/-- At a token that stays, or at one behind which the parts stand in another order. -/
theorem cases_head (h : s.Moves P R b u) (hin : s.offset < R.stop) :
    (P s.behind.offset = none ∧ (s.behind.offset = R.stop → R.seam.admits s.kind = true) ∧
      (s.kind = .leftBrace →
        signatureLength? 0 u.behind.pending = signatureLength? 0 s.behind.pending) ∧
      s.behind.Moves P R true u.behind) ∨
    ((s.kind = .leftBrace ∨ s.kind = .caseKw) ∧ (∃ blk, P s.behind.offset = some blk) ∧
      ∀ k, k = .colon ∨ k = .rightParen → s.kindAt 1 ≠ k ∧ u.kindAt 1 ≠ k) := by
  obtain ⟨o, ts, e⟩ := s
  obtain ⟨o', us, e'⟩ := u
  obtain ⟨hpending, hcloser, hcloser', hready, hend⟩ := h
  have hreadyBehind := hready.behind
  dsimp only at hpending hin
  -- an input that is not at the end of its part is at a token that stays or at one that opens a block
  cases hpending with
  | stop => exact absurd hin (Nat.lt_irrefl _)
  | @keep _ _ _ t u ts us _ hsees hsignature hclear hadmits hrest =>
    rw [behind_eq rfl] at hreadyBehind
    rw [behind_eq rfl, behind_eq rfl]
    have hpos : 0 < t.len := hready.len_pos t List.mem_cons_self
    refine .inl ⟨hclear _ ?_ (Nat.le_refl _), hadmits, hsignature,
      ⟨hrest, hcloser, hcloser', hreadyBehind, hend⟩⟩
    rw [Token.fullLen]
    omega
  | @block _ _ _ _ t u ts us _ _ seam b xs _ _ hopener hplan hlens hfollow hfollow' hheads hclosers hparts =>
    have hsome := behind_eq (s := ⟨o, t :: ts, e⟩) rfl
    refine .inr ⟨?_, ⟨b, by rw [hsome]; exact hplan⟩, fun k hk => ?_⟩
    · show t.kind = .leftBrace ∨ t.kind = .caseKw
      cases seam with
      | file => cases hopener
      | cases => exact .inl (Option.some.inj hopener).symm
      | items => exact .inr (Option.some.inj hopener).symm
    · -- the first part starts with the same kind in both orders, and with neither of the two
      have hhead : ∀ x ∈ xs, headKind x.ts ≠ k ∧ headKind x.us ≠ k := by
        intro x hx
        obtain ⟨hpos, hcolon, hparen⟩ := hheads x hx
        obtain ⟨a, a', as, as', hts, hus, hsees⟩ :=
          (hparts x hx).exists_head (Nat.lt_add_of_pos_right hpos)
        have hsame : headKind x.us = headKind x.ts := by
          rw [hts, hus]
          exact hsees.kind
        rw [hsame]
        rcases hk with rfl | rfl
        · exact ⟨hcolon, hcolon⟩
        · exact ⟨hparen, hparen⟩
      obtain ⟨x, xs', rfl, -, rfl⟩ := hfollow.exists_cons
      obtain ⟨y, ys, hys, rfl⟩ := hfollow'.exists_cons
      have hy : y ∈ x :: xs' := Block.mem_of_mem_arrange (b := b) (by rw [hys]; exact List.mem_cons_self)
      rw [kindAt_succ, kindAt_succ, behind_eq (s := ⟨o, t :: x.ts, e⟩) rfl,
        behind_eq (s := ⟨o', u :: y.us, e'⟩) rfl]
      have hs := kind_eq_headKind (s := ⟨o + t.fullLen, x.ts, e⟩) hready.kind_endOfFile
      have hu := kind_eq_headKind (s := ⟨o' + u.fullLen, y.us, e'⟩) hend
      exact ⟨fun heq => (hhead x List.mem_cons_self).1 (hs.symm.trans heq),
        fun heq => (hhead y hy).2 (hu.symm.trans heq)⟩

/-- What stands behind a token that opens a block. -/
theorem exists_parts {blk : Block} {seam : Seam} (h : s.Moves P R b u) (hin : s.offset < R.stop)
    (hplan : P s.behind.offset = some blk) (hkind : seam.opener = some s.kind) :
    ∃ xs o' ts' us', xs.map Part.len = blk.lens ∧
      Part.Follow seam s.behind.offset s.behind.pending xs o' ts' ∧
      Part.Follow' seam u.behind.pending (blk.arrange xs) us' ∧
      (∀ x ∈ xs, x.Stands P seam) ∧ Token.Moves P R true o' ts' us' := by
  obtain ⟨o, ts, e⟩ := s
  obtain ⟨o', us, e'⟩ := u
  obtain ⟨hpending, -, -, hready, -⟩ := h
  dsimp only at hpending hin
  cases hpending with
  | stop => exact absurd hin (Nat.lt_irrefl _)
  | @keep _ _ _ t _ ts _ _ _ _ hclear =>
    rw [behind_eq rfl] at hplan
    have hpos : 0 < t.len := hready.len_pos t List.mem_cons_self
    rw [hclear _ (by rw [Token.fullLen]; omega) (Nat.le_refl _)] at hplan
    cases hplan
  | @block _ _ _ o'' t _ ts us ts' us' seam' b' xs _ _ hopener hplan' hlens hfollow hfollow' hheads hclosers
      hparts hrest =>
    have hsome := behind_eq (s := ⟨o, t :: ts, e⟩) rfl
    rw [hsome] at hplan ⊢
    obtain rfl : b' = blk := Option.some.inj (hplan'.symm.trans hplan)
    obtain rfl : seam' = seam := Seam.eq_of_opener hopener hkind
    exact ⟨xs, o'', ts', us', hlens, hfollow, hfollow', fun x hx =>
      ⟨(hheads x hx).1, (hclosers x hx).1, (hclosers x hx).2, hparts x hx⟩, hrest⟩

/-- Behind a token that opens no block the inputs differ by the order of parts again. -/
theorem behind (h : s.Moves P R b u) (hin : s.offset < R.stop) (hplan : P s.behind.offset = none) :
    s.behind.Moves P R true u.behind := by
  rcases h.cases_head hin with ⟨-, -, -, hbehind⟩ | ⟨-, ⟨blk, hsome⟩, -⟩
  · exact hbehind
  · rw [hplan] at hsome
    cases hsome

theorem plan_eq_none (h : s.Moves P R b u) (hin : s.offset < R.stop) (hbrace : s.kind ≠ .leftBrace)
    (hcase : s.kind ≠ .caseKw) : P s.behind.offset = none := by
  rcases h.cases_head hin with ⟨hnone, -⟩ | ⟨hkind, -⟩
  · exact hnone
  · exact absurd hkind (not_or.mpr ⟨hbrace, hcase⟩)

theorem admits (h : s.Moves P R b u) (hin : s.offset < R.stop) (hplan : P s.behind.offset = none)
    (hstop : s.behind.offset = R.stop) : R.seam.admits s.kind = true := by
  rcases h.cases_head hin with ⟨-, hadmits, -⟩ | ⟨-, ⟨blk, hsome⟩, -⟩
  · exact hadmits hstop
  · rw [hplan] at hsome
    cases hsome

/-! #### Tests that come out the same -/

/-- A test on the kind of the next token, which does not tell apart what stands behind the region. -/
theorem test_eq (h : s.Moves P R b u) (f : SyntaxKind → α)
    (hf : s.offset = R.stop → R.seam.Blurs f) : f u.kind = f s.kind := by
  rcases Nat.lt_or_eq_of_le h.le_stop with hin | hstop
  · rw [h.kind_eq hin]
  · obtain ⟨hs, hu⟩ := h.kind_mem_closers hstop
    exact hf hstop _ hs _ hu

theorem not_mem_kinds (h : s.Moves P R b u) (hs : s.kind ∉ Seam.kinds) : s.offset < R.stop :=
  Nat.lt_of_le_of_ne h.le_stop fun hstop => hs (Seam.mem_kinds (h.kind_mem_closers hstop).1)

/-- The test for a kind that no part is followed by, on the same line. -/
theorem isAt_sameLine_eq (h : s.Moves P R true u) (hk : k ∉ Seam.kinds) :
    (u.isAt k && !u.isAfterNewline) = (s.isAt k && !s.isAfterNewline) := by
  have hne : ∀ a ∈ R.seam.closers, (a == k) = false := by
    intro a ha
    refine beq_eq_false_iff_ne.mpr ?_
    rintro rfl
    exact hk (Seam.mem_kinds ha)
  have hsame : u.isAt k = s.isAt k :=
    h.test_eq (· == k) fun _ a ha a' ha' => (hne a' ha').trans (hne a ha).symm
  rw [hsame]
  cases hat : s.isAt k with
  | false => rfl
  | true =>
    have hkind : s.kind = k := eq_of_beq hat
    rw [h.isAfterNewline_eq (h.not_mem_kinds (hkind ▸ hk))] <;> rw [hkind] <;> rintro rfl <;>
      exact hk (by decide)

/-- No part is followed by an operator. -/
theorem isAtOperator_eq (h : s.Moves P R b u) (text : String) :
    u.isAtOperator text = s.isAtOperator text := by
  have hsame : u.kind.isOperator = s.kind.isOperator :=
    h.test_eq SyntaxKind.isOperator fun _ => by
      cases R.seam <;> decide
  unfold isAtOperator
  rw [hsame]
  cases hoperator : s.kind.isOperator with
  | false => rfl
  | true =>
    rw [h.text_eq (h.not_mem_kinds fun hmem => ?_)]
    revert hoperator
    generalize s.kind = a at hmem ⊢
    revert a
    decide

/-- A test on the kind of the token behind the next one. -/
theorem test_one_eq (h : s.Moves P R b u) (f : SyntaxKind → α) (hin : s.offset < R.stop)
    (hplan : P s.behind.offset = none) (hf : R.seam.admits s.kind = true → R.seam.Blurs f) :
    f (u.kindAt 1) = f (s.kindAt 1) := by
  rw [kindAt_succ, kindAt_succ]
  exact (h.behind hin hplan).test_eq f fun hstop => hf (h.admits hin hplan hstop)

/-- No part starts with a colon or a parenthesis that is closed, so behind any token the test for these
comes out the same, unless the region ends there. -/
theorem kindAt_one_beq (h : s.Moves P R b u) (hin : s.offset < R.stop) (hk : k = .colon ∨ k = .rightParen)
    (hf : R.stop ≤ s.behind.offset → R.seam.admits s.kind = true → R.seam.Blurs (· == k)) :
    (u.kindAt 1 == k) = (s.kindAt 1 == k) := by
  rcases h.cases_head hin with ⟨hplan, hadmits, -, hbehind⟩ | ⟨-, -, hne⟩
  · rw [kindAt_succ, kindAt_succ]
    exact hbehind.test_eq (· == k) fun hstop => hf (Nat.le_of_eq hstop.symm) (hadmits hstop)
  · rw [beq_eq_false_iff_ne.mpr (hne k hk).1, beq_eq_false_iff_ne.mpr (hne k hk).2]

end Moves

end Input

/-! ### Cutting `>` off an operator -/

namespace Token

variable {t u e : Token}

theorem touchesNext_eq_touches (he : e.kind = .endOfFile) : touchesNext t ts e = t.touches ts := by
  cases ts with
  | nil => simp [touchesNext, touches, he, Input.endsOperand]
  | cons n ts => rfl

theorem touches_mk (k k' : SyntaxKind) (text text' : String) (leading leading' : Trivia) :
    (⟨k, text, leading, t.trailing⟩ : Token).touches ts =
      (⟨k', text', leading', t.trailing⟩ : Token).touches ts := by
  cases ts <;> rfl

/-- An operator is not followed by what ends a part, where it would make a difference. -/
theorem admits_classifyOperator (seam : Seam) (text : String) (leftBound rightBound : Bool)
    (h : seam ≠ .items) : seam.admits (Lexer.classifyOperator text leftBound rightBound) = true := by
  have hitems : (seam == .items) = false := beq_eq_false_iff_ne.mpr h
  have hcases := classifyOperator_cases text leftBound rightBound
  rw [Seam.admits, hitems, Bool.false_and]
  simp only [List.mem_cons, List.not_mem_nil, or_false] at hcases
  rcases hcases with h | h | h | h | h | h | h | h <;> rw [h] <;> rfl

theorem ne_leftBrace_classifyOperator (text : String) (leftBound rightBound : Bool) :
    Lexer.classifyOperator text leftBound rightBound ≠ .leftBrace := by
  have hcases := classifyOperator_cases text leftBound rightBound
  simp only [List.mem_cons, List.not_mem_nil, or_false] at hcases
  rcases hcases with h | h | h | h | h | h | h | h <;> rw [h] <;> decide

/-- An operator is cut in two alike. -/
theorem Moves.split {c : Char} {cs : List Char} (h : Moves P R b o (t :: ts) (u :: us))
    (hin : o < R.stop) (hkind : t.kind.isOperator = true) (htext : t.text.toList = '>' :: c :: cs) :
    Moves P R b o
      (⟨.binaryOperator, ">", t.leading, []⟩ ::
        ⟨Lexer.classifyOperator (String.ofList (c :: cs)) true (t.touches ts),
          String.ofList (c :: cs), [], t.trailing⟩ :: ts)
      (⟨.binaryOperator, ">", u.leading, []⟩ ::
        ⟨Lexer.classifyOperator (String.ofList (c :: cs)) true (u.touches us),
          String.ofList (c :: cs), [], u.trailing⟩ :: us) := by
  generalize htail : String.ofList (c :: cs) = tail
  have hlen : t.len = 1 + tail.utf8ByteSize := by
    rw [Token.len, ← String.ofList_toList (s := t.text), htext, ← htail, String.utf8ByteSize_ofList,
      String.utf8ByteSize_ofList, String.utf8Len_cons]
    exact Nat.add_comm _ 1
  have hpos : 0 < tail.utf8ByteSize := by
    rw [← htail, String.utf8ByteSize_ofList, String.utf8Len_cons]
    have := c.utf8Size_pos
    omega
  generalize hstop : R.stop = stop at hin
  generalize hts : t :: ts = ts₀ at h
  generalize hus : u :: us = us₀ at h
  cases h with
  | stop => exact absurd hin (hstop ▸ Nat.lt_irrefl _)
  | keep _ hsees _ hclear hadmits hrest =>
    cases hts
    cases hus
    have hle := hrest.le_stop
    have htouches := hsees.touches hkind
    have hangle : (">" : String).utf8ByteSize = 1 := rfl
    have hfull : t.fullLen = t.leading.len + 1 + (tail.utf8ByteSize + t.trailing.len) := by
      rw [fullLen, hlen]
      omega
    have hfirst : (⟨.binaryOperator, ">", t.leading, []⟩ : Token).fullLen = t.leading.len + 1 := by
      simp [fullLen, len, hangle]
    have hsecond : ∀ k, (⟨k, tail, [], t.trailing⟩ : Token).fullLen =
        tail.utf8ByteSize + t.trailing.len := by
      simp [fullLen, len]
    rw [htouches]
    -- the two halves are kept one behind the other, and only the second sees what comes next
    refine .keep (hstop ▸ hin) ⟨rfl, rfl, ?_, rfl, fun _ => rfl⟩ (fun hbrace => by cases hbrace) ?_ ?_
      (.keep ?_ ⟨rfl, rfl, fun _ _ _ => rfl, ?_, fun _ => ?_⟩ ?_ ?_ ?_ ?_)
    · intro hbehind _ _
      refine hsees.newline hbehind ?_ ?_ <;> rintro hcase <;> rw [hcase] at hkind <;> cases hkind
    · intro i hi hle
      rw [hfirst] at hle
      exact hclear i hi (by omega)
    · intro hend
      rw [hfirst] at hend
      omega
    · rw [hfirst]
      omega
    · rw [startsDecl_classifyOperator rfl, startsDecl_classifyOperator rfl]
    · rw [touches_mk (t := u) _ u.kind _ u.text _ u.leading,
        touches_mk (t := t) _ t.kind _ t.text _ t.leading]
      exact htouches
    · exact fun hbrace => absurd hbrace (ne_leftBrace_classifyOperator _ _ _)
    · intro i hi hle
      rw [hfirst, Nat.add_assoc]
      rw [hsecond] at hle
      exact hclear _ (by omega) (by omega)
    · intro hend
      rw [hfirst, hsecond, Nat.add_assoc, ← hfull] at hend
      refine admits_classifyOperator _ _ _ _ fun hitems => ?_
      have hadmitted := hadmits hend
      rw [Seam.admits, hitems, hkind] at hadmitted
      simp at hadmitted
    · rw [hfirst, hsecond, Nat.add_assoc, ← hfull]
      exact hrest
  -- a block starts behind a brace or a colon, never behind an operator
  | @block _ _ _ _ t' _ _ _ _ _ seam _ _ _ _ hopener =>
    cases hts
    cases seam with
    | file => cases hopener
    | cases => rw [← Option.some.inj hopener] at hkind; cases hkind
    | items => rw [← Option.some.inj hopener] at hkind; cases hkind

end Token

/-- Cutting `>` off the next operator leaves the inputs different by the order of parts. -/
theorem Input.Moves.splitRightAngle {s u : Input} (h : s.Moves P R b u) (hin : s.offset < R.stop) :
    s.splitRightAngle.Moves P R b u.splitRightAngle := by
  obtain ⟨t, v, ts, us, hs, hu, hsees⟩ := h.exists_head hin
  have hpending := h.pending
  have hready := h.ready.splitRightAngle.ready
  rw [hs, hu] at hpending
  unfold Input.splitRightAngle at hready ⊢
  rw [hs] at hready ⊢
  rw [hu]
  dsimp only at hready ⊢
  rw [hsees.text, hsees.kind]
  split
  · next c cs htext =>
    split
    · next hkind =>
      simp only [htext, hkind, if_true] at hready
      refine ⟨?_, h.closer, h.closer', hready, h.kind_endOfFile'⟩
      have hsplit := hpending.split hin hkind htext
      rw [← Token.touchesNext_eq_touches h.kind_endOfFile,
        ← Token.touchesNext_eq_touches h.kind_endOfFile'] at hsplit
      exact hsplit
    · exact h
  · exact h

/-! ### Finding the parts -/

namespace Seam

/-- What stands behind a part, from the next part on, and the byte at which that is. -/
def past? (seam : Seam) (o : Nat) (ts : List Token) : Option (Nat × List Token) :=
  if seam = items then
    match ts with
    | [] => none
    | c :: ts => if c.kind = .comma ∧ c.text = "," then some (o + c.fullLen, ts) else none
  else some (o, ts)

theorem joins_of_past? {seam : Seam} {o o' : Nat} {ts ts' : List Token}
    (h : seam.past? o ts = some (o', ts')) : ∃ n, o' = o + n ∧ seam.Joins ts n ts' := by
  unfold past? at h
  split at h
  · next hitems =>
    subst hitems
    split at h
    · cases h
    · next c us =>
      split_ifs at h with hcomma
      obtain ⟨rfl, rfl⟩ := Prod.mk.inj (Option.some.inj h)
      exact ⟨c.fullLen, rfl, c, rfl, rfl, hcomma.1, hcomma.2⟩
  · next hitems =>
    obtain ⟨rfl, rfl⟩ := Prod.mk.inj (Option.some.inj h)
    refine ⟨0, rfl, ?_⟩
    cases seam with
    | items => exact absurd rfl hitems
    | _ => exact ⟨rfl, rfl⟩

/-- What the parts behind a token meet at. -/
def behind? (k : SyntaxKind) : Option Seam :=
  [Seam.cases, Seam.items].find? fun seam => seam.opener = some k

end Seam

namespace Part

/-- Whether the parts stand one behind another in the first order, and where they end. -/
def followEnd? (seam : Seam) : (o : Nat) → (ts : List Token) → List Part → Option (Nat × List Token)
  | _, _, [] => none
  | o, ts, [x] => if x.start = o ∧ x.ts = ts then some (x.start + x.len, x.rest) else none
  | o, ts, x :: xs =>
    if x.start = o ∧ x.ts = ts then
      (seam.past? (x.start + x.len) x.rest).bind fun next => followEnd? seam next.1 next.2 xs
    else none

/-- Whether the parts stand one behind another in the second order, and what is behind them. -/
def followEnd'? (seam : Seam) : (us : List Token) → List Part → Option (List Token)
  | _, [] => none
  | us, [x] => if x.us = us then some x.rest' else none
  | us, x :: xs =>
    if x.us = us then (seam.past? 0 x.rest').bind fun next => followEnd'? seam next.2 xs else none

theorem follow_of_followEnd? {seam : Seam} {o o' : Nat} {ts ts' : List Token} {xs : List Part}
    (h : followEnd? seam o ts xs = some (o', ts')) : Follow seam o ts xs o' ts' := by
  fun_induction followEnd? seam o ts xs with
  | case1 => cases h
  | case2 o ts x hx =>
    obtain ⟨rfl, rfl⟩ := hx
    obtain ⟨rfl, rfl⟩ := Prod.mk.inj (Option.some.inj h)
    exact .last x
  | case3 => cases h
  | case4 o ts x xs _ hx ih =>
    obtain ⟨rfl, rfl⟩ := hx
    obtain ⟨⟨o₁, ts₁⟩, hpast, hrest⟩ := Option.bind_eq_some_iff.mp h
    obtain ⟨n, rfl, hjoins⟩ := Seam.joins_of_past? hpast
    exact .cons hjoins rfl (ih _ hrest)
  | case5 => cases h

theorem follow'_of_followEnd'? {seam : Seam} {us us' : List Token} {xs : List Part}
    (h : followEnd'? seam us xs = some us') : Follow' seam us xs us' := by
  fun_induction followEnd'? seam us xs with
  | case1 => cases h
  | case2 x =>
    obtain rfl := Option.some.inj h
    exact .last x
  | case3 => cases h
  | case4 x xs _ ih =>
    obtain ⟨⟨o₁, us₁⟩, hpast, hrest⟩ := Option.bind_eq_some_iff.mp h
    obtain ⟨n, -, hjoins⟩ := Seam.joins_of_past? hpast
    exact .cons hjoins (ih _ hrest)
  | case5 => cases h

/-- The tokens behind the first `n` bytes. -/
def dropBytes : (n : Nat) → List Token → List Token
  | 0, ts => ts
  | _ + 1, [] => []
  | n + 1, t :: ts => dropBytes (n + 1 - t.fullLen) ts

/-- Parts of these lengths in the first order. -/
def cut (seam : Seam) : (o : Nat) → (ts : List Token) → (lens : List Nat) → List Part
  | _, _, [] => []
  | o, ts, n :: lens =>
    let rest := dropBytes n ts
    let next := (seam.past? (o + n) rest).getD (o + n, rest)
    ⟨o, n, ts, rest, [], []⟩ :: cut seam next.1 next.2 lens

/-- Parts with their tokens in the second order, in which they stand here. -/
def cut' (seam : Seam) : (us : List Token) → List Part → List Part
  | _, [] => []
  | us, x :: xs =>
    let rest' := us.drop (x.ts.length - x.rest.length)
    let next := (seam.past? 0 rest').getD (0, rest')
    { x with us := us, rest' := rest' } :: cut' seam next.2 xs

/-- The parts of a block in both orders. -/
def ofBlock (seam : Seam) (b : Block) (o : Nat) (ts us : List Token) : List Part :=
  let placed := cut' seam us (b.arrange (cut seam o ts b.lens))
  (List.range b.lens.length).filterMap fun i => placed[b.order.idxOf i]?

/-- Whether a part has a token and may start with it, and what is behind the part closes it, in both
orders. -/
def IsClosed (seam : Seam) (x : Part) : Prop :=
  (0 < x.len ∧ headKind x.ts ≠ .colon ∧ headKind x.ts ≠ .rightParen) ∧
    headKind x.rest ∈ seam.closers ∧ headKind x.rest' ∈ seam.closers

instance (seam : Seam) (x : Part) : Decidable (x.IsClosed seam) :=
  inferInstanceAs (Decidable (_ ∧ _))

end Part

namespace Token

instance {behind : Bool} {t u : Token} {ts us : List Token} : Decidable (Sees behind t u ts us) :=
  decidable_of_iff (u.kind = t.kind ∧ u.text = t.text ∧
    (behind = true → t.kind ≠ .caseKw → t.kind ≠ .defaultKw →
      u.leading.containsNewline = t.leading.containsNewline) ∧
    startsDecl (us.length + 1) (u :: us) = startsDecl (ts.length + 1) (t :: ts) ∧
    (t.kind.isOperator = true → u.touches us = t.touches ts))
    ⟨fun ⟨hkind, htext, hnewline, hdecl, htouches⟩ => ⟨hkind, htext, hnewline, hdecl, htouches⟩,
      fun h => ⟨h.kind, h.text, h.newline, h.decl, h.touches⟩⟩

/-- Whether the second tokens are the first with parts in another order, up to the end of the region.  Every
step reads a token, so `fuel` beyond the number of tokens is never used up. -/
def movesFrom (P : Plan) : (fuel : Nat) → Region → Bool → Nat → List Token → List Token → Bool
  | 0, _, _, _, _, _ => false
  | fuel + 1, R, behind, o, ts, us =>
    if o = R.stop then decide (ts = R.rest ∧ us = R.rest')
    else match ts, us with
    | t :: ts, u :: us =>
      decide (o < R.stop ∧ Sees behind t u ts us) &&
        match Seam.behind? t.kind, P (o + t.fullLen) with
        | some seam, some b =>
          let xs := Part.ofBlock seam b (o + t.fullLen) ts us
          match Part.followEnd? seam (o + t.fullLen) ts xs, Part.followEnd'? seam us (b.arrange xs) with
          | some next, some us' =>
            decide (xs.map Part.len = b.lens ∧ ∀ x ∈ xs, x.IsClosed seam) &&
              (xs.all fun x => movesFrom P fuel (x.region seam) (seam == .cases) x.start x.ts x.us) &&
              movesFrom P fuel R true next.1 next.2 us'
          | _, _ => false
        | _, _ =>
          decide ((t.kind = .leftBrace → signatureLength? 0 us = signatureLength? 0 ts) ∧
            (∀ i, i < t.fullLen → P (o + (i + 1)) = none) ∧
            (o + t.fullLen = R.stop → R.seam.admits t.kind = true)) &&
            movesFrom P fuel R true (o + t.fullLen) ts us
    | _, _ => false

theorem moves_of_movesFrom {P : Plan} {fuel : Nat} {R : Region} {behind : Bool} {o : Nat} {ts us : List Token}
    (h : movesFrom P fuel R behind o ts us = true) : Moves P R behind o ts us := by
  induction fuel generalizing R behind o ts us with
  | zero => cases h
  | succ fuel ih =>
    unfold movesFrom at h
    split_ifs at h with hstop
    · obtain ⟨rfl, rfl⟩ := of_decide_eq_true h
      exact hstop ▸ .stop
    split at h
    · next t ts u us =>
      obtain ⟨hhead, h⟩ := Bool.and_eq_true_iff.mp h
      obtain ⟨hinside, hsees⟩ := of_decide_eq_true hhead
      split at h
      · next seam b hseam hplan =>
        dsimp only at h
        split at h
        · next next us' hfollow hfollow' =>
          simp only [Bool.and_eq_true, decide_eq_true_eq, List.all_eq_true] at h
          obtain ⟨⟨⟨hlens, hclosed⟩, hparts⟩, hrest⟩ := h
          exact .block hinside hsees (by simpa using List.find?_some hseam) hplan hlens
            (Part.follow_of_followEnd? hfollow) (Part.follow'_of_followEnd'? hfollow')
            (fun x hx => (hclosed x hx).1) (fun x hx => (hclosed x hx).2) (fun x hx => ih (hparts x hx))
            (ih hrest)
        · cases h
      · obtain ⟨hkeep, hrest⟩ := Bool.and_eq_true_iff.mp h
        obtain ⟨hsignature, hclear, hadmits⟩ := of_decide_eq_true hkeep
        refine .keep hinside hsees hsignature (fun i hi hle => ?_) hadmits (ih hrest)
        have hnone := hclear (i - 1) (by omega)
        rwa [Nat.sub_add_cancel hi] at hnone
    · cases h

end Token

end SwiftTidy
