import SwiftTidy.Proofs.Parse.Productions
import SwiftTidy.Proofs.Parse.Without.Type

/-!
# Blocks and expressions without some of the semicolons

Blocks hold statements, which may stand in front of a semicolon that is left out; all the rest of an
expression ends on the line of the semicolon.

What goes on with an operand on the next line is an operator or a member, and neither stands behind
a semicolon that is left out; calls, subscripts and closures start on the line of the operand.
-/

namespace SwiftTidy

namespace Grammar

variable {M : Marks} {b : Bool} {E : SyntaxKind → Prop} {r r' : Level} {s t u v : Input}
  {k next : SyntaxKind}

/-! ### Blocks and branches -/

theorem isAt_eq_of_mark (h : s.Enters M b u) (hmark : M s.offset = none) (k : SyntaxKind) :
    u.isAt k = s.isAt k := by
  rw [Input.isAt, Input.isAt, h.kind_eq hmark]

/-- Statements are read up to the same brace. -/
theorem follows_blockItems (hr : r.Follows M r') (h : s.Omits M u) :
    Follows M E s.offset s u (blockItems r) (blockItems r') := by
  refine follows_repeated h (fun t v htv _ hstop => ?_) fun t v htv g hturn => ?_
  · split_ifs at hstop with hbrace
    rw [isAt_eq_of_mark htv (mark_of_isAt htv hbrace (by decide)), hbrace]
    rfl
  · split_ifs at hturn with hbrace hend
    · cases hturn
      exact .inl (rejects_expected _)
    · cases hturn
      by_cases hkind : t.kind = .semicolon
      · exact .inl (hr.rejects .codeBlockItem t nofun hkind)
      · have hmark := mark_of_kind htv hkind
        refine .inr ⟨_, ?_, hr.codeBlockItem htv⟩
        rw [isAt_eq_of_mark htv hmark, isAt_eq_of_mark htv hmark, if_neg hbrace, if_neg hend]

/-- What ends at a brace, and the brace, which is kept. -/
theorem follows_upToBrace {g g' : Grammar} {o : Nat} (hg : Follows M Anywhere o s u g g')
    (hbrace : ∀ es t, g.run s = .ok (es, t) → t.isAt .rightBrace = true) :
    Follows M E o s u (g ++ take) (g' ++ take) :=
  hg.append_of (fun _ _ _ _ _ => endsAt_anywhere) fun es t _ hrun htv =>
    follows_take htv (mark_of_isAt htv (hbrace es t hrun) (by decide))

theorem isAt_rightBrace_of_blockItems {es : List Element} (hrun : (blockItems r).run s = .ok (es, t)) :
    t.isAt .rightBrace = true := by
  have hnone := run_repeated hrun
  split_ifs at hnone with hbrace
  exact hbrace

theorem follows_braced (k : SyntaxKind) (hr : r.Follows M r') (h : s.Enters M b u) :
    Follows M E s.offset s u (braced k r) (braced k r') := by
  refine Follows.node (follows_upToBrace ?_ fun es t hrun => ?_)
  · exact (follows_expect .leftBrace _ (by decide) h).append fun _ _ => follows_blockItems hr
  · obtain ⟨_, _, w, -, hitems, -⟩ := run_append hrun
    exact isAt_rightBrace_of_blockItems hitems

theorem follows_codeBlock (hr : r.Follows M r') (h : s.Enters M b u) :
    Follows M E s.offset s u (codeBlock r) (codeBlock r') :=
  follows_braced _ hr h

theorem follows_memberBlock (hr : r.Follows M r') (h : s.Enters M b u) :
    Follows M E s.offset s u (memberBlock r) (memberBlock r') :=
  follows_braced _ hr h

theorem follows_whereClause (hr : r.Follows M r') (h : s.Enters M b u) (hmark : M s.offset = none) :
    Follows M E s.offset s u (whereClause r) (whereClause r') :=
  ((follows_take h hmark).append fun _ _ => hr.expression _).node

theorem follows_optionalWhere (hr : r.Follows M r') (h : s.Omits M u) :
    Follows M E s.offset s u (whenAt .whereKw (whereClause r)) (whenAt .whereKw (whereClause r')) :=
  follows_whenAt .whereKw rfl (by decide) h fun hmark _ => follows_whereClause hr h hmark

theorem follows_optionalAscription (hr : r.Follows M r') (h : s.Omits M u) :
    Follows M E s.offset s u (whenAt .colon (typeAscription r)) (whenAt .colon (typeAscription r')) :=
  follows_whenAt .colon rfl (by decide) h fun _ _ => follows_typeAscription hr h

theorem follows_optionalInitializer (hr : r.Follows M r') (ρ : Restrictions) (h : s.Omits M u) :
    Follows M E s.offset s u (whenAt .equal (initializerClause r ρ))
      (whenAt .equal (initializerClause r' ρ)) :=
  follows_whenAt .equal rfl (by decide) h fun _ _ => follows_initializerClause hr ρ h

theorem follows_condition (hr : r.Follows M r') (h : s.Enters M b u) :
    Follows M E s.offset s u (condition r) (condition r') := by
  refine follows_peek ?_
  by_cases hkind : s.kind = .semicolon
  · rw [hkind]
    exact (hr.expression_rejects _ hkind).follows
  have hmark := mark_of_kind h hkind
  have htake : Follows M Anywhere s.offset s u take take := follows_take h hmark
  have hbinding : Follows M E s.offset s u
      (node .optionalBindingCondition (take ++ r.bindingPattern ++
        whenAt .colon (typeAscription r) ++ whenAt .equal (initializerClause r .condition)))
      (node .optionalBindingCondition (take ++ r'.bindingPattern ++
        whenAt .colon (typeAscription r') ++ whenAt .equal (initializerClause r' .condition))) :=
    (((htake.append fun _ _ => hr.bindingPattern).append fun _ _ =>
      follows_optionalAscription hr).append fun _ _ => follows_optionalInitializer hr _).node
  rw [h.kind_eq hmark]
  generalize s.kind = k
  split
  · exact hbinding
  · exact hbinding
  · exact (htake.append fun _ _ => hr.pattern).append fun _ _ => follows_initializerClause hr _
  · exact hr.expression _ h

theorem follows_conditionList (hr : r.Follows M r') (h : s.Omits M u) :
    Follows M E s.offset s u (conditionList r) (conditionList r') :=
  follows_commaSeparated rfl (assembled_condition hr.assembled) h fun _ _ => follows_condition hr

theorem follows_ifExpr (hr : r.Follows M r') (h : s.Enters M b u) (hmark : M s.offset = none) :
    Follows M E s.offset s u (SwiftTidy.Grammar.ifExpr r) (SwiftTidy.Grammar.ifExpr r') := by
  refine Follows.node (Follows.append (((follows_take h hmark).append fun _ _ =>
    follows_conditionList hr).append fun _ _ => follows_codeBlock hr) fun t v htv => ?_)
  refine follows_whenAt .elseKw rfl (by decide) htv fun hmark _ => ?_
  refine (follows_take htv hmark).append fun t v htv => ?_
  by_cases hkind : t.kind = .semicolon
  · refine Rejects.follows (rejects_peek ?_)
    rw [Input.isAt, hkind]
    exact (rejects_expect _ (by rw [Input.isAt, hkind]; rfl)).append.append.node
  have hmark := mark_of_kind htv hkind
  refine follows_peek (Follows.test (isAt_eq_of_mark htv hmark _) (fun hat => ?_) fun _ => ?_)
  · exact hr.ifExpr htv (eq_of_beq hat)
  · exact follows_codeBlock hr htv

/-! ### Cases -/

theorem isAtUnknownAttribute_eq (h : s.Enters M b u) (hmark : M s.offset = none) :
    isAtUnknownAttribute u = isAtUnknownAttribute s := by
  unfold isAtUnknownAttribute
  rw [isAt_eq_of_mark h hmark]
  cases hat : s.isAt .atSign with
  | false => rfl
  | true =>
    have hkind : s.kind = .atSign := eq_of_beq hat
    have hnext := mark_behind h hmark hkind (.inl rfl)
    have hone : ∀ w : Input, (w.nth 1).text = w.behind.text := fun w => by
      unfold Input.text Input.nth Input.behind
      split
      · next hw => simp [hw]
      · next hw => simp [hw]
    rw [hone, hone, (h.behind hmark).text_eq hnext]

theorem follows_switchCaseLabel (hr : r.Follows M r') (h : s.Enters M b u) (hmark : M s.offset = none) :
    Follows M E s.offset s u (switchCaseLabel r) (switchCaseLabel r') := by
  refine Follows.node (((follows_take h hmark).append fun t v htv => ?_).append fun _ _ =>
    follows_expect .colon _ (by decide))
  refine follows_commaSeparated rfl (.append (hr.assembled .pattern) ?_) htv fun t v htv =>
    (hr.pattern htv).append fun _ _ => follows_optionalWhere hr
  exact .whenAt _ (assembled_whereClause hr.assembled)

/-- The statements of a case end in front of the next case or at the brace. -/
theorem follows_caseItems (hr : r.Follows M r') (h : s.Omits M u) :
    Follows M E s.offset s u
      (repeated (fun s =>
        if s.isAtAny [.caseKw, .defaultKw, .rightBrace] || isAtUnknownAttribute s then none
        else if s.isAt .endOfFile then some (expected "`\x7d`")
        else some r.codeBlockItem) r.bound)
      (repeated (fun s =>
        if s.isAtAny [.caseKw, .defaultKw, .rightBrace] || isAtUnknownAttribute s then none
        else if s.isAt .endOfFile then some (expected "`\x7d`")
        else some r'.codeBlockItem) r'.bound) := by
  have hsame : ∀ t v : Input, t.Omits M v → M t.offset = none →
      (v.isAtAny [.caseKw, .defaultKw, .rightBrace] || isAtUnknownAttribute v) =
        (t.isAtAny [.caseKw, .defaultKw, .rightBrace] || isAtUnknownAttribute t) := by
    intro t v htv hmark
    rw [Input.isAtAny, Input.isAtAny, htv.kind_eq hmark, isAtUnknownAttribute_eq htv hmark]
  refine follows_repeated h (fun t v htv _ hstop => ?_) fun t v htv g hturn => ?_
  · split_ifs at hstop with hend
    have hmark : M t.offset = none := mark_of_kind htv fun hkind => by
      rw [Input.isAtAny, isAtUnknownAttribute, Input.isAt, hkind] at hend
      cases hend
    rw [hsame t v htv hmark, if_pos hend]
  · by_cases hkind : t.kind = .semicolon
    · left
      split_ifs at hturn
      · cases hturn
        exact rejects_expected _
      · cases hturn
        exact hr.rejects .codeBlockItem t (fun h => by cases h) hkind
    · have hmark := mark_of_kind htv hkind
      split_ifs at hturn with hend hlast
      · cases hturn
        exact .inl (rejects_expected _)
      · cases hturn
        refine .inr ⟨_, ?_, hr.codeBlockItem htv⟩
        rw [hsame t v htv hmark, isAt_eq_of_mark htv hmark, if_neg hend, if_neg hlast]

theorem follows_switchCase (hr : r.Follows M r') (h : s.Omits M u) :
    Follows M E s.offset s u (switchCase r) (switchCase r') := by
  refine Follows.node (Follows.append (Follows.append_due ?_ (fun t hkind => ?_) fun t v htv => ?_)
    fun _ _ => follows_caseItems hr)
  · refine follows_onlyIf_due h (isAtUnknownAttribute_eq h) (fun hkind => ?_) fun _ _ =>
      follows_attributeUse h
    rw [isAtUnknownAttribute, Input.isAt, hkind]
    rfl
  · refine rejects_peek ?_
    rw [hkind]
    exact rejects_expected _
  · refine follows_peek ?_
    by_cases hkind : t.kind = .semicolon
    · rw [hkind]
      exact (rejects_expected _).follows
    have hmark := mark_of_kind htv hkind
    rw [htv.kind_eq hmark]
    generalize t.kind = k
    split
    · exact follows_switchCaseLabel hr htv hmark
    · exact ((follows_take htv hmark).append fun _ _ => follows_expect .colon _ (by decide)).node
    · exact (rejects_expected _).follows

theorem rejects_switchCase (hkind : s.kind = .semicolon) : (switchCase r).Rejects s := by
  refine Rejects.node (Rejects.append (.behind (run_onlyIf_eq ?_) (rejects_peek ?_)))
  · rw [isAtUnknownAttribute, Input.isAt, hkind]
    rfl
  · rw [hkind]
    exact rejects_expected _

theorem follows_switchExpr (hr : r.Follows M r') (h : s.Enters M b u) (hmark : M s.offset = none) :
    Follows M E s.offset s u (switchExpr r) (switchExpr r') := by
  refine Follows.node (follows_upToBrace (Follows.append (((follows_take h hmark).append fun _ _ =>
    hr.expression _).append fun _ _ => follows_expect .leftBrace _ (by decide)) fun t v htv => ?_)
      fun es t hrun => ?_)
  · refine follows_repeated htv (fun t v htv _ hstop => ?_) fun t v htv g hturn => ?_
    · split_ifs at hstop with hbrace
      rw [isAt_eq_of_mark htv (mark_of_isAt htv hbrace (by decide)), if_pos hbrace]
    · split_ifs at hturn with hbrace
      cases hturn
      by_cases hkind : t.kind = .semicolon
      · exact .inl (rejects_switchCase hkind)
      · refine .inr ⟨_, ?_, follows_switchCase hr htv⟩
        rw [isAt_eq_of_mark htv (mark_of_kind htv hkind), if_neg hbrace]
  · obtain ⟨_, _, w, -, hcases, -⟩ := run_append hrun
    have hnone := run_repeated hcases
    split_ifs at hnone with hbrace
    exact hbrace

/-! ### Arguments and literals -/

/-- One argument: something is due where there is neither a comma nor the end of the list. -/
theorem follows_argument (hr : r.Follows M r') (close : SyntaxKind) (inPattern : Bool)
    (hclose : close.goesOn = true) (hsemicolon : close ≠ .semicolon) (h : s.Omits M u) :
    Follows M E s.offset s u
      (onlyIf (fun s => s.kind.isName && s.kindAt 1 == .colon) (takeN 2) ++
        onlyIf (fun s => !s.isAt .comma && !s.isAt close) (r.expression ⟨false, inPattern⟩))
      (onlyIf (fun s => s.kind.isName && s.kindAt 1 == .colon) (takeN 2) ++
        onlyIf (fun s => !s.isAt .comma && !s.isAt close) (r'.expression ⟨false, inPattern⟩)) := by
  have hvalue : ∀ t v, t.Omits M v → Follows M E t.offset t v
      (onlyIf (fun s => !s.isAt .comma && !s.isAt close) (r.expression ⟨false, inPattern⟩))
      (onlyIf (fun s => !s.isAt .comma && !s.isAt close) (r'.expression ⟨false, inPattern⟩)) := by
    intro t v htv
    refine follows_onlyIf htv ?_ fun _ => hr.expression _ htv
    rw [htv.isAt_eq (k := .comma) rfl (by decide), htv.isAt_eq hclose hsemicolon]
  by_cases hkind : s.kind = .semicolon
  · refine Rejects.follows (.behind (run_onlyIf_eq ?_) (rejects_onlyIf ?_
      (hr.expression_rejects _ hkind)))
    · rw [hkind]
      rfl
    · rw [Input.isAt, Input.isAt, hkind, beq_eq_false_iff_ne.mpr hsemicolon.symm]
      rfl
  have hmark := mark_of_kind h hkind
  refine Follows.append (follows_onlyIf h ?_ fun htest => follows_takeN h fun i hi => ?_) hvalue
  · rw [h.kind_eq hmark, h.kindAt_one_beq (k := .colon) hmark rfl (by decide)]
  · rw [Bool.and_eq_true] at htest
    rcases i with _ | _ | i
    · exact ne_semicolon_of_isName htest.1
    · rw [eq_of_beq htest.2]
      decide
    · omega

theorem follows_argumentList (hr : r.Follows M r') (close : SyntaxKind) (inPattern : Bool)
    (hclose : close.goesOn = true) (hsemicolon : close ≠ .semicolon) (h : s.Omits M u) :
    Follows M E s.offset s u (argumentList r close inPattern) (argumentList r' close inPattern) := by
  refine Follows.node (follows_commaSeparatedUntil hclose hsemicolon rfl ?_ h fun t v htv => ?_)
  · exact .append (.onlyIf _ (.takeN 2)) (.onlyIf _ (hr.assembled (.expression _)))
  · exact follows_argument hr close inPattern hclose hsemicolon htv

/-- No semicolon stands in the signature of a closure. -/
theorem kind_ne_of_signatureLength? {ts : List Token} {e : Token} {depth n i : Nat}
    (h : signatureLength? depth ts = some n) (hi : i < n) : (ts.getD i e).kind ≠ .semicolon := by
  induction ts generalizing depth n i with
  | nil => cases h
  | cons t ts ih =>
    have hrest : ∀ depth', (signatureLength? depth' ts).map (· + 1) = some n →
        t.kind ≠ .semicolon → ((t :: ts).getD i e).kind ≠ .semicolon := by
      intro depth' hmap hkind
      obtain ⟨m, hm, rfl⟩ := Option.map_eq_some_iff.mp hmap
      cases i with
      | zero => exact hkind
      | succ i => exact ih hm (Nat.lt_of_succ_lt_succ hi)
    rw [signatureLength?] at h
    split at h
    · next hkind =>
      split at h
      · cases h
        obtain rfl := Nat.lt_one_iff.mp hi
        show t.kind ≠ .semicolon
        rw [hkind]
        decide
      · cases h
    · next hkind => exact hrest _ h (by rw [hkind]; decide)
    · next hkind => exact hrest _ h (by rw [hkind]; decide)
    · next hkind =>
      split at h
      · cases h
      · exact hrest _ h (by rw [hkind]; decide)
    · next hkind =>
      split at h
      · cases h
      · exact hrest _ h (by rw [hkind]; decide)
    · next hkind =>
      split at h
      · cases h
      · exact hrest _ h (by rw [hkind]; decide)
    · split at h
      · next hsignature =>
        refine hrest _ h ?_
        intro hkind
        rw [hkind] at hsignature
        cases hsignature
      · cases h

theorem follows_closureExpr (hr : r.Follows M r') (h : s.Enters M b u) :
    Follows M E s.offset s u (closureExpr r) (closureExpr r') := by
  refine Follows.node (follows_upToBrace (Follows.append (Follows.append ?_ fun t v htv => ?_)
    fun _ _ => follows_blockItems hr) fun es t hrun => ?_)
  · exact follows_expect .leftBrace _ (by decide) h
  · refine follows_peek ?_
    rw [htv.pending.signatureLength?_eq]
    split
    · next n hn =>
      exact (follows_takeN htv fun i hi => kind_ne_of_signatureLength? hn hi).node
    · exact follows_nothing htv
  · obtain ⟨_, _, w, -, hitems, -⟩ := run_append hrun
    exact isAt_rightBrace_of_blockItems hitems

/-- The bracket waits while the first value is read, and both wait for what is behind them. -/
theorem follows_collectionExpr (hr : r.Follows M r') (h : s.Enters M b u) (hmark : M s.offset = none) :
    Follows M E s.offset s u (collectionExpr r) (collectionExpr r') := by
  have hvalue : Assembled [] (r.expression .free) := hr.assembled (.expression _)
  have hbehind : Assembled [] (expect .colon "`:`" ++ r.expression .free) :=
    .append (.expect _ _) hvalue
  have hbehind' : ∀ E t v, t.Omits M v → Follows M E t.offset t v
      (expect .colon "`:`" ++ r.expression .free) (expect .colon "`:`" ++ r'.expression .free) :=
    fun E t v htv => (follows_expect .colon _ (by decide) htv).append fun _ _ => hr.expression _
  have hbracket : ∀ t v : Input, t.Omits M v → v.isAt .rightBracket = t.isAt .rightBracket :=
    fun t v htv => htv.isAt_eq rfl (by decide)
  refine (follows_take h hmark).capture (assembled_collectionBehind hr.assembled)
    fun opening t opening' v hopening => ?_
  have htv := hopening.inputs
  -- the second token behind the bracket is only looked at when the first is a colon, which stays
  refine follows_peek (Follows.test ?_ (fun htest => ?_) fun _ =>
    Follows.test (htv.isAt_eq rfl (by decide)) (fun hat => ?_) fun _ => ?_)
  · rw [htv.isAt_eq (k := .colon) rfl (by decide)]
    cases hcolon : t.isAt .colon with
    | false => rfl
    | true => rw [htv.kindAt_one_beq (k := .rightBracket) (mark_of_isAt htv hcolon (by decide)) rfl
      (by decide)]
  · rw [Bool.and_eq_true] at htest
    refine (hopening.emit_append (follows_takeN htv fun i hi => ?_)).node
    match i with
    | 0 => rw [show t.kindAt 0 = .colon from eq_of_beq htest.1]; decide
    | 1 => rw [eq_of_beq htest.2]; decide
  · exact (hopening.emit_append (follows_take htv (mark_of_isAt htv hat (by decide)))).node
  · refine (hr.expression .free htv).capture_of opening hopening.offset
      (assembled_collectionRest hr.assembled opening) (fun _ _ _ _ _ _ => endsAt_anywhere)
      fun first w first' x hfirst => ?_
    have hwx := hfirst.inputs
    refine follows_peek ?_
    dsimp only
    refine Follows.test (hwx.isAt_eq rfl (by decide)) (fun _ => ?_) fun _ => ?_
    · refine Follows.node (Follows.append (Follows.emit_append hopening.elements ?_)
        fun _ _ => follows_expect .rightBracket _ (by decide))
      rw [← hopening.offset]
      refine follows_commaList rfl (.append hvalue hbehind) ?_ hbracket fun _ _ htv => ?_
      · exact hfirst.emit_append (hbehind' _ w x hwx)
      · exact (hr.expression _ htv).append (hbehind' _)
    · refine Follows.node (Follows.append (Follows.emit_append hopening.elements ?_)
        fun _ _ => follows_expect .rightBracket _ (by decide))
      rw [← hopening.offset]
      exact follows_commaList rfl hvalue (follows_emit hfirst) hbracket fun _ _ => hr.expression _

/-! ### Operands -/

theorem follows_memberName (h : s.Enters M b u) :
    Follows M E s.offset s u memberName memberName := by
  by_cases hkind : s.kind = .semicolon
  · refine Rejects.follows (rejects_peek ?_)
    rw [Input.isAt, Input.isAt, hkind]
    exact rejects_expected _
  have hmark := mark_of_kind h hkind
  refine follows_peek (Follows.test ?_ (fun _ => follows_take h hmark) fun _ => ?_)
  · rw [Input.isAt, Input.isAt, Input.isAt, Input.isAt, h.kind_eq hmark]
  · exact (rejects_expected _).follows

theorem isAtOperatorValue_eq (h : s.Enters M b u) (hmark : M s.offset = none) :
    isAtOperatorValue u = isAtOperatorValue s := by
  unfold isAtOperatorValue
  rw [h.kind_eq hmark, h.kindAt_one_beq (k := .rightParen) hmark rfl (by decide),
    h.kindAt_one_beq (k := .comma) hmark rfl (by decide)]

theorem isAtConditionalCompilation_eq (h : s.Enters M b u) (hmark : M s.offset = none) :
    isAtConditionalCompilation u = isAtConditionalCompilation s := by
  unfold isAtConditionalCompilation
  rw [isAt_eq_of_mark h hmark, h.text_eq hmark]

theorem rejects_conditionalCompilation : conditionalCompilation.Rejects s := rejects_fail _

theorem rejects_primaryExpr (ρ : Restrictions) (hkind : s.kind = .semicolon) :
    (primaryExpr r ρ).Rejects s := by
  refine rejects_peek ?_
  rw [isAtOperatorValue, hkind]
  exact rejects_expected _

theorem follows_primaryExpr (hr : r.Follows M r') (ρ : Restrictions) (h : s.Enters M b u) :
    Follows M E s.offset s u (primaryExpr r ρ) (primaryExpr r' ρ) := by
  by_cases hkind : s.kind = .semicolon
  · exact (rejects_primaryExpr ρ hkind).follows
  have hmark := mark_of_kind h hkind
  have htake : ∀ E, Follows M E s.offset s u take take := fun _ => follows_take h hmark
  refine follows_peek ?_
  rw [isAtConditionalCompilation_eq h hmark, isAtOperatorValue_eq h hmark, h.kind_eq hmark]
  generalize hk : s.kind = k
  split
  all_goals try exact (htake E).node
  · exact .test rfl (fun _ => rejects_conditionalCompilation.follows) fun _ => (htake E).node
  · exact ((htake Anywhere).append fun _ _ => follows_memberName).node
  · refine Follows.node (((htake Anywhere).append fun _ _ htv => ?_).append fun _ _ =>
      follows_expect .rightParen _ (by decide))
    exact follows_argumentList hr .rightParen _ rfl (by decide) htv
  · exact follows_collectionExpr hr h hmark
  · exact follows_closureExpr hr h
  · exact hr.ifExpr h hk
  · exact follows_switchExpr hr h hmark
  · exact .test rfl (fun _ => hr.pattern h) fun _ => (rejects_expected _).follows
  · exact .test rfl (fun _ => hr.pattern h) fun _ => (rejects_expected _).follows
  · refine .test rfl (fun _ => ?_) fun _ => (rejects_expected _).follows
    exact ((htake Anywhere).append fun _ _ => hr.type).node
  · refine .test rfl (fun _ => (htake E).node) fun _ => .test rfl (fun _ => (htake E).node) fun _ => ?_
    exact (rejects_expected _).follows

theorem isAtTrailingClosure_eq (ρ : Restrictions) (h : s.Omits M u) :
    isAtTrailingClosure ρ u = isAtTrailingClosure ρ s := by
  unfold isAtTrailingClosure
  rw [Bool.and_assoc, Bool.and_assoc, h.isAt_sameLine_eq (k := .leftBrace) (by decide) (by decide)]

/-- Behind a semicolon that is left out stands no suffix. -/
theorem exprSuffix_of_mark (ρ : Restrictions) (e : Element) (h : s.Enters M b u)
    (hmark : M s.offset = some next) : exprSuffix? r' ρ u e = none := by
  have hgoes := h.goesOn_of_mark hmark
  have hnewline := h.isAfterNewline_of_mark hmark
  unfold exprSuffix? isAtTrailingClosure
  rw [h.kind_of_mark' hmark] at hnewline ⊢
  split
  · cases hgoes
  · rw [if_pos (hnewline.resolve_left (by decide))]
  · rw [if_pos (hnewline.resolve_left (by decide))]
  · rw [hnewline.resolve_left (by decide), Bool.not_true, Bool.and_false, Bool.false_and,
      if_neg (by decide)]
  · cases hgoes
  · cases hgoes
  · cases hgoes
  · rfl

theorem follows_exprSuffix (hr : r.Follows M r') (ρ : Restrictions) {e e' : Element}
    (h : s.Omits M u) (hkind : e'.kind = e.kind) :
    SuffixFollows M s u (exprSuffix? r ρ s e) (exprSuffix? r' ρ u e') := by
  cases hmark : M s.offset with
  | some next =>
    rw [exprSuffix_of_mark ρ e' h hmark]
    unfold exprSuffix?
    rw [h.kind_of_mark hmark]
    trivial
  | none =>
    have htake : Follows M Anywhere s.offset s u take take := follows_take h hmark
    unfold exprSuffix?
    rw [isAtTrailingClosure_eq ρ h, hkind, h.kind_eq hmark]
    by_cases hend : s.kind = .endOfFile
    · rw [hend]
      trivial
    rw [h.isAfterNewline_eq hmark hend]
    generalize s.kind = k
    split
    · exact ⟨rfl, htake.append fun _ _ => follows_memberName⟩
    · split
      · trivial
      · refine ⟨rfl, Follows.append ((htake.append fun _ _ htv => ?_).append fun _ _ =>
          follows_expect .rightParen _ (by decide)) fun _ _ htv => ?_⟩
        · exact follows_argumentList hr .rightParen _ rfl (by decide) htv
        · exact follows_onlyIf htv (isAtTrailingClosure_eq ρ htv) fun _ => follows_closureExpr hr htv
    · split
      · trivial
      · refine ⟨rfl, (htake.append fun _ _ htv => ?_).append fun _ _ => follows_expect
          .rightBracket _ (by decide)⟩
        exact follows_argumentList hr .rightBracket _ rfl (by decide) htv
    · split
      · exact ⟨rfl, follows_closureExpr hr h⟩
      · trivial
    · exact ⟨rfl, htake⟩
    · exact ⟨rfl, htake⟩
    · exact ⟨rfl, htake⟩
    · trivial

theorem follows_optionalMark (h : s.Omits M u) :
    Follows M E s.offset s u optionalMark optionalMark :=
  follows_whenAtAny _ (by decide) h fun hmark => follows_take h hmark

theorem rejects_operand (ρ : Restrictions) (hkind : s.kind = .semicolon) :
    (SwiftTidy.Grammar.operand r ρ).Rejects s := by
  refine rejects_peek ?_
  rw [Input.isAt, Input.isAt, Input.isAt, hkind]
  exact Rejects.capture (rejects_primaryExpr ρ hkind)

theorem follows_operand (hr : r.Follows M r') (ρ : Restrictions) (h : s.Enters M b u) :
    Follows M E s.offset s u (SwiftTidy.Grammar.operand r ρ) (SwiftTidy.Grammar.operand r' ρ) := by
  by_cases hkind : s.kind = .semicolon
  · exact (rejects_operand ρ hkind).follows
  have hmark := mark_of_kind h hkind
  have htake : Follows M Anywhere s.offset s u take take := follows_take h hmark
  refine follows_peek (Follows.test ?_ (fun _ => ?_) fun _ => Follows.test ?_ (fun _ => ?_) fun _ =>
    Follows.test ?_ (fun _ => ?_) fun _ => ?_)
  · rw [isAt_eq_of_mark h hmark, isAtOperatorValue_eq h hmark]
  · exact (htake.append fun _ _ => hr.operand ρ).node
  · exact isAt_eq_of_mark h hmark _
  · exact ((htake.append fun _ _ => follows_optionalMark).append fun _ _ => hr.operand ρ).node
  · exact isAt_eq_of_mark h hmark _
  · exact (htake.append fun _ _ => hr.operand ρ).node
  · exact follows_withSuffixes (assembled_exprSuffix hr.assembled ρ)
      (fun t v e e' htv hkind => follows_exprSuffix hr ρ htv hkind) (follows_primaryExpr hr ρ h)

/-! ### Sequences of operands and operators -/

theorem operatorPart_eq_none (ρ : Restrictions) (hgoes : u.kind.goesOn = false) :
    operatorPart? r ρ u = none := by
  unfold operatorPart?
  split
  all_goals first
    | rfl
    | next hkind =>
      rw [hkind] at hgoes
      cases hgoes

theorem follows_operatorPart (hr : r.Follows M r') (ρ : Restrictions) (h : s.Enters M b u) {g : Grammar}
    (hg : operatorPart? r ρ s = some g) :
    ∃ g', operatorPart? r' ρ u = some g' ∧ Follows M Anywhere s.offset s u g g' := by
  have hmark : M s.offset = none := mark_of_kind h fun hkind => by
    unfold operatorPart? at hg
    rw [hkind] at hg
    cases hg
  have htake : Follows M Anywhere s.offset s u take take := follows_take h hmark
  unfold operatorPart? at hg ⊢
  rw [h.kind_eq hmark]
  split at hg
  · cases hg
    exact ⟨_, rfl, htake.append fun _ _ => hr.operand ρ⟩
  · split at hg
    · cases hg
    · next hpattern =>
      cases hg
      exact ⟨_, if_neg hpattern, htake.append fun _ _ => hr.operand ρ⟩
  · cases hg
    refine ⟨_, rfl, Follows.append (Follows.node ?_) fun _ _ => hr.operand ρ⟩
    exact (htake.append fun _ _ => hr.expression _).append fun _ _ => follows_expect .colon _
      (by decide)
  · cases hg
    exact ⟨_, rfl, (htake.append fun _ _ => hr.type).node⟩
  · cases hg
    exact ⟨_, rfl, ((htake.append fun _ _ => follows_optionalMark).append fun _ _ => hr.type).node⟩
  · cases hg

theorem rejects_expression (hr : r.Follows M r') (ρ : Restrictions) (hkind : s.kind = .semicolon) :
    (SwiftTidy.Grammar.expression r ρ).Rejects s :=
  (hr.rejects (.operand ρ) s nofun hkind).append.capture

theorem follows_expression (hr : r.Follows M r') (ρ : Restrictions) (h : s.Enters M b u) :
    Follows M E s.offset s u (SwiftTidy.Grammar.expression r ρ)
      (SwiftTidy.Grammar.expression r' ρ) := by
  refine follows_nodeUnlessSingle rfl ((hr.operand ρ h).append fun t v htv => ?_)
  refine follows_repeated htv (fun t v htv _ hstop => ?_) fun t v htv g hg =>
    .inr (follows_operatorPart hr ρ htv hg)
  cases hmark : M t.offset with
  | some next =>
    refine operatorPart_eq_none ρ ?_
    rw [htv.kind_of_mark' hmark]
    exact htv.goesOn_of_mark hmark
  | none =>
    unfold operatorPart? at hstop ⊢
    rw [htv.kind_eq hmark]
    split at hstop
    · cases hstop
    · split at hstop
      · next hpattern => exact if_pos hpattern
      · cases hstop
    · cases hstop
    · cases hstop
    · cases hstop
    · rfl

end Grammar

end SwiftTidy
