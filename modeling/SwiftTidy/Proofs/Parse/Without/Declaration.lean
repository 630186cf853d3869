import SwiftTidy.Proofs.Parse.Without.Expression

/-!
# Declarations without some of the semicolons

A body may stand on the line below a variable, a function or an initializer, and associated values
on the line below a case; these declarations must not stand in front of a semicolon that is left out
and a brace or a parenthesis behind it.
-/

namespace SwiftTidy

namespace Grammar

variable {M : Marks} {b : Bool} {E : SyntaxKind → Prop} {r r' : Level} {s t u v : Input}
  {k next : SyntaxKind}

/-! ### Attributes and modifiers -/

theorem headKind_drop {w : Input} (hw : w.endOfFile.kind = .endOfFile) (n : Nat) :
    headKind (w.pending.drop n) = w.kindAt n := by
  unfold Input.kindAt Input.nth
  rw [List.getD_eq_getElem?_getD, ← List.head?_drop]
  cases w.pending.drop n with
  | nil => exact hw.symm
  | cons a rest => rfl

/-- A modifier is the same without the semicolons. -/
theorem startsWithModifier_eq (h : s.Enters M b u) (hmark : M s.offset = none) :
    startsWithModifier u.pending = startsWithModifier s.pending := by
  rcases h.cases with ⟨-, hs, hu⟩ | ⟨a, b, ts, us, -, hs, hu, halike, -⟩ | ⟨a, ts, hsome, -⟩
  · rw [hs, hu]
  · have hheads : ∀ w : Input, ∀ c cs, w.endOfFile.kind = .endOfFile → w.pending = c :: cs →
        headKind cs = w.behind.kind := by
      intro w c cs hend hw
      rw [Input.behind_eq hw]
      exact (Input.kind_eq_headKind (s := ⟨_, cs, _⟩) hend).symm
    have hrest := hheads s a ts h.kind_endOfFile hs
    have hrest' := hheads u b us h.kind_endOfFile' hu
    have hkind : s.kind = a.kind := by rw [h.kind_eq_headKind, hs]; rfl
    rw [hs, hu, startsWithModifier, startsWithModifier, halike.kind, halike.text, hrest, hrest']
    split
    · rfl
    · next hclass =>
      have hnext := mark_behind h hmark (hkind.trans hclass) (by decide)
      rw [(h.behind hmark).kind_eq hnext]
    · rfl
  · rw [hmark] at hsome
    cases hsome

theorem startsWithDetail_eq (h : s.Enters M b u)
    (hstart : ∀ next, M s.offset = some next → next ≠ .leftParen) :
    startsWithDetail u.pending = startsWithDetail s.pending := by
  have hhead : ∀ w : Input, w.endOfFile.kind = .endOfFile → startsWithDetail w.pending =
      (w.isAt .leftParen && w.kindAt 2 == .rightParen) := by
    intro w hw
    rw [startsWithDetail, headKind_drop hw 2, ← Input.kind_eq_headKind hw, Input.isAt]
  rw [hhead u h.kind_endOfFile', hhead s h.kind_endOfFile]
  cases hmark : M s.offset with
  | some next =>
    rw [Input.isAt, Input.isAt, h.kind_of_mark hmark, h.kind_of_mark' hmark,
      beq_eq_false_iff_ne.mpr (hstart next hmark)]
    rfl
  | none =>
    rw [isAt_eq_of_mark h hmark]
    cases hat : s.isAt .leftParen with
    | false => rfl
    | true =>
      -- the parenthesis does not stand in front of a semicolon that is left out
      have hnext := mark_behind h hmark (eq_of_beq hat) (.inr (.inl rfl))
      rw [Input.kindAt_succ u, Input.kindAt_succ s,
        (h.behind hmark).kindAt_one_beq (k := .rightParen) hnext rfl (by decide)]

theorem follows_detail (h : s.Omits M u)
    (hstart : ∀ next, M s.offset = some next → next ≠ .leftParen) :
    Follows M E s.offset s u (onlyIf (startsWithDetail ·.pending) (takeN 3))
      (onlyIf (startsWithDetail ·.pending) (takeN 3)) := by
  refine follows_onlyIf h (startsWithDetail_eq h hstart) fun hdetail => ?_
  rw [startsWithDetail, headKind_drop h.kind_endOfFile 2, ← h.kind_eq_headKind, Bool.and_eq_true]
    at hdetail
  have hleft : s.kind = .leftParen := eq_of_beq hdetail.1
  have hmark := mark_of_kind h (by rw [hleft]; decide)
  have hnext := mark_behind h hmark hleft (.inr (.inl rfl))
  refine follows_take_append h hmark fun hbehind => follows_take_append hbehind hnext fun hbehind => ?_
  refine follows_takeN (n := 1) hbehind fun i hi => ?_
  obtain rfl := Nat.lt_one_iff.mp hi
  rw [← Input.kindAt_succ, ← Input.kindAt_succ, eq_of_beq hdetail.2]
  decide

/-- A modifier has no detail behind a semicolon. -/
theorem follows_declModifier (h : s.Enters M b u) (hmodifier : startsWithModifier s.pending = true) :
    Follows M E s.offset s u declModifier declModifier := by
  rcases h.cases with ⟨-, hs, -⟩ | ⟨a, b, ts, us, hmark, hs, hu, -, hends, -⟩ | ⟨a, ts, -, hs, hkind, -⟩
  · rw [hs] at hmodifier
    cases hmodifier
  · refine Follows.node (follows_take_append h hmark fun hbehind => follows_detail hbehind ?_)
    intro next hnext hparen
    rw [Input.behind_eq hs] at hnext
    have hend := hends next hnext
    rw [hs, startsWithModifier] at hmodifier
    rw [Token.endsBefore] at hend
    split at hmodifier
    · next hkind =>
      rw [hkind, hmodifier, hparen] at hend
      simp at hend
    · next hkind =>
      rw [hkind] at hend
      cases hend
    · cases hmodifier
  · rw [hs, startsWithModifier, hkind] at hmodifier
    cases hmodifier

/-- Something is due behind the modifiers. -/
theorem yields_declModifiers {es : List Element} (h : s.Enters M b u)
    (hrun : (declModifiers r).run s = .ok (es, t)) (hfits : Element.FitsAll M s.offset es)
    (hends : EndsAt M Nowhere t) :
    (declModifiers r').Yields u (BuiltAlike M b s.offset es t) := by
  refine yields_repeated h (fun t v htv hends hstop => ?_) (fun t v htv g hturn => ?_) hrun hfits hends
  · have hmark : M t.offset = none := by
      cases hmark : M t.offset with
      | none => rfl
      | some next => exact absurd (hends (htv.kind_of_mark hmark) next hmark) id
    split_ifs at hstop with hat hmodifier
    rw [isAt_eq_of_mark htv hmark, if_neg hat, startsWithModifier_eq htv hmark, if_neg hmodifier]
  · have hmark : M t.offset = none := mark_of_kind htv fun hkind => by
      split_ifs at hturn with hat hmodifier
      · rw [Input.isAt, hkind] at hat
        cases hat
      · rw [htv.kind_eq_headKind] at hkind
        cases hpending : t.pending with
        | nil =>
          rw [hpending] at hmodifier
          cases hmodifier
        | cons a rest =>
          rw [hpending, headKind] at hkind
          rw [hpending, startsWithModifier, hkind] at hmodifier
          cases hmodifier
    right
    rw [isAt_eq_of_mark htv hmark, startsWithModifier_eq htv hmark]
    split_ifs at hturn ⊢ with hat hmodifier
    · cases hturn
      exact ⟨_, rfl, follows_attributeUse htv⟩
    · cases hturn
      exact ⟨_, rfl, follows_declModifier htv hmodifier⟩

/-! ### Imports and variables -/

/-- A token that one of several tests finds, where something is due. -/
theorem follows_takeIf {test : Input → Bool} {what : String} (h : s.Enters M b u)
    (htest : M s.offset = none → test u = test s) (hstops : s.kind = .semicolon → test s = false) :
    Follows M E s.offset s u (peek fun s => if test s then take else expected what)
      (peek fun s => if test s then take else expected what) := by
  by_cases hkind : s.kind = .semicolon
  · refine Rejects.follows (rejects_peek ?_)
    rw [hstops hkind]
    exact rejects_expected _
  have hmark := mark_of_kind h hkind
  refine follows_peek (Follows.test (htest hmark) (fun _ => follows_take h hmark) fun _ => ?_)
  exact (rejects_expected _).follows

theorem rejects_expect_of_kind {what : String} (hk : k ≠ .semicolon)
    (hkind : s.kind = .semicolon) : (expect k what).Rejects s :=
  rejects_expect _ (by rw [Input.isAt, hkind, beq_eq_false_iff_ne.mpr hk.symm])

theorem follows_importDecl (h : s.Enters M b u) (hmark : M s.offset = none) :
    Follows M E s.offset s u (importDecl r) (importDecl r') := by
  refine Follows.append (Follows.append_due ((follows_take h hmark).append fun t v htv => ?_)
    (fun t => rejects_expect_of_kind (by decide)) fun _ _ => follows_expect .identifier _
      (by decide)) fun t v htv => ?_
  · refine follows_onlyIf_due htv (fun hmark => ?_) (fun hkind => ?_) fun hmark _ =>
      follows_take htv hmark
    · rw [Input.isAtAny, Input.isAtAny, htv.kind_eq hmark]
    · rw [Input.isAtAny, hkind]
      rfl
  · refine follows_repeated htv (fun t v htv _ hstop => ?_) fun t v htv g hturn => .inr ?_
    · rw [htv.isAt_sameLine_eq (k := .period) (by decide) (by decide)]
      split_ifs at hstop with hperiod
      rw [if_neg hperiod]
    · split_ifs at hturn with hperiod
      cases hturn
      rw [htv.isAt_sameLine_eq (k := .period) (by decide) (by decide), if_pos hperiod]
      rw [Bool.and_eq_true] at hperiod
      have hmark := mark_of_isAt htv hperiod.1 (by decide)
      refine ⟨_, rfl, (follows_take htv hmark).append fun t v htv => follows_takeIf htv
        (fun hmark => ?_) fun hkind => ?_⟩
      · rw [Input.isAt, Input.isAt, htv.kind_eq hmark]
      · rw [Input.isAt, hkind]
        rfl

theorem follows_patternBinding (hr : r.Follows M r') (h : s.Enters M b u) :
    Follows M (· ≠ .leftBrace) s.offset s u (patternBinding r) (patternBinding r') := by
  refine Follows.append (((hr.bindingPattern h).append fun _ _ => follows_optionalAscription hr).append
    fun _ _ => follows_optionalInitializer hr _) fun t v htv => ?_
  exact follows_whenAt_end .leftBrace (by decide) htv fun _ => follows_codeBlock hr htv

theorem follows_variableDecl (hr : r.Follows M r') (h : s.Enters M b u) (hmark : M s.offset = none) :
    Follows M (· ≠ .leftBrace) s.offset s u (variableDecl r) (variableDecl r') :=
  (follows_take h hmark).append fun _ _ htv => follows_commaSeparated rfl
    (assembled_patternBinding hr.assembled) htv fun _ _ => follows_patternBinding hr

/-! ### Functions -/

/-- Behind a parameter a comma or the parenthesis is due. -/
theorem follows_parameter (hr : r.Follows M r') (h : s.Omits M u) :
    Follows M Nowhere s.offset s u (parameter r) (parameter r') := by
  have hattributes : Follows M Nowhere s.offset s u
      (repeated (fun s => if s.isAt .atSign then some attributeUse else none) r.bound)
      (repeated (fun s => if s.isAt .atSign then some attributeUse else none) r'.bound) := by
    refine follows_repeated h (fun t v htv hends hstop => ?_) fun t v htv g hturn => .inr ?_
    · have hmark : M t.offset = none := by
        cases hmark : M t.offset with
        | none => rfl
        | some next => exact absurd (hends (htv.kind_of_mark hmark) next hmark) id
      split_ifs at hstop with hat
      rw [isAt_eq_of_mark htv hmark, if_neg hat]
    · split_ifs at hturn with hat
      cases hturn
      rw [isAt_eq_of_mark htv (mark_of_isAt htv hat (by decide)), if_pos hat]
      exact ⟨_, rfl, follows_attributeUse htv⟩
  have hname : ∀ t : Input, t.kind = .semicolon → t.kind.isName = false := fun t hkind => by
    rw [hkind]
    rfl
  refine Follows.append_optional (Follows.append (Follows.append (Follows.append_due (Follows.append
    (hattributes.append_due (fun t hkind => ?_) fun t v htv => ?_) fun t v htv => ?_)
    (fun t => rejects_expect_of_kind (by decide)) fun _ _ => follows_expect .colon _ (by decide))
      fun _ _ => hr.type)
    fun t v htv => ?_) (fun t hkind => ?_) fun _ _ => follows_optionalInitializer hr _
  · refine rejects_peek ?_
    rw [hname t hkind]
    exact rejects_expected _
  · exact follows_takeIf htv (fun hmark => by rw [htv.kind_eq hmark]) (hname t)
  · refine follows_onlyIf_due htv (fun hmark => ?_) (fun hkind => ?_) fun hmark _ =>
      follows_take htv hmark
    · rw [htv.kind_eq hmark, htv.kindAt_one_beq (k := .colon) hmark rfl (by decide)]
    · rw [hname t hkind, Bool.false_and]
  · refine follows_onlyIf_due htv (fun hmark => ?_) (fun hkind => ?_) fun hmark _ =>
      follows_take htv hmark
    · rw [Input.isAtOperator, Input.isAtOperator, htv.kind_eq hmark, htv.text_eq hmark]
    · rw [Input.isAtOperator, hkind]
      rfl
  · rw [Input.isAt, hkind]
    rfl

theorem follows_parameterClause (hr : r.Follows M r') (h : s.Enters M b u) :
    Follows M E s.offset s u (parameterClause r) (parameterClause r') := by
  refine Follows.node
    (Follows.append_due ((follows_expect .leftParen _ (by decide) h).append fun t v htv => ?_)
    (fun t => rejects_expect_of_kind (by decide)) fun _ _ => follows_expect .rightParen _
      (by decide))
  exact follows_commaSeparatedUntil rfl (by decide) rfl (assembled_parameter hr.assembled) htv
    fun _ _ => follows_parameter hr

theorem follows_functionSignature (hr : r.Follows M r') (h : s.Enters M b u) :
    Follows M E s.offset s u (functionSignature r) (functionSignature r') := by
  refine Follows.node (Follows.append (Follows.append (Follows.append (follows_parameterClause hr h)
    fun _ _ => follows_eat .asyncKw rfl (by decide)) fun t v htv => ?_) fun t v htv => ?_)
  · exact follows_whenAtAny _ (by decide) htv fun hmark => follows_take htv hmark
  · exact follows_whenAt .arrow rfl (by decide) htv fun _ _ => follows_returnClause hr htv

theorem follows_genericParameterClause (hr : r.Follows M r') (h : s.Enters M b u)
    (hmark : M s.offset = none) :
    Follows M E s.offset s u (genericParameterClause r) (genericParameterClause r') := by
  refine Follows.node (Follows.append_due ((follows_takeAs _ h hmark).append fun t v htv => ?_)
    (fun _ => rejects_rightAngle) fun _ _ => follows_rightAngle)
  refine follows_commaSeparated rfl (.append (.append (.expect _ _) (.whenAt _ (.append .take
    (hr.assembled .type)))) .splitRightAngle) htv fun t v htv => ?_
  refine Follows.append
    (Follows.append (follows_expect .identifier _ (by decide) htv) fun t v htv => ?_)
    fun _ _ => follows_splitRightAngle
  exact follows_whenAt .colon rfl (by decide) htv fun hmark _ => (follows_take htv hmark).append
    fun _ _ => hr.type

theorem follows_genericWhereClause (hr : r.Follows M r') (h : s.Enters M b u)
    (hmark : M s.offset = none) :
    Follows M E s.offset s u (genericWhereClause r) (genericWhereClause r') := by
  refine Follows.node ((follows_take h hmark).append fun t v htv => ?_)
  refine follows_commaSeparated rfl (.append (.append (hr.assembled .type) ?_) (hr.assembled .type)) htv
    fun t v htv => ((hr.type htv).append fun t v htv => ?_).append fun _ _ => hr.type
  · exact .peek fun _ => .ite .take (.expected _ _)
  · refine follows_takeIf htv (fun hmark => ?_) fun hkind => ?_
    · rw [isAt_eq_of_mark htv hmark, Input.isAtOperator, Input.isAtOperator, htv.kind_eq hmark,
        htv.text_eq hmark]
    · rw [Input.isAt, Input.isAtOperator, hkind]
      rfl

theorem follows_optionalGenericParameters (hr : r.Follows M r') (h : s.Omits M u) :
    Follows M E s.offset s u (optionalGenericParameters r) (optionalGenericParameters r') := by
  refine follows_onlyIf h h.isAtOperator_eq fun hat => follows_genericParameterClause hr h ?_
  refine mark_of_kind h fun hkind => ?_
  rw [Input.isAtOperator, hkind] at hat
  cases hat

theorem follows_optionalRequirements (hr : r.Follows M r') (h : s.Omits M u) :
    Follows M E s.offset s u (whenAt .whereKw (genericWhereClause r))
      (whenAt .whereKw (genericWhereClause r')) :=
  follows_whenAt .whereKw rfl (by decide) h fun hmark _ => follows_genericWhereClause hr h hmark

theorem follows_functionRest (hr : r.Follows M r') (h : s.Omits M u) :
    Follows M (· ≠ .leftBrace) s.offset s u (functionRest r) (functionRest r') := by
  refine Follows.append (((follows_optionalGenericParameters hr h).append fun _ _ =>
    follows_functionSignature hr).append fun _ _ => follows_optionalRequirements hr) fun t v htv => ?_
  exact follows_whenAt_end .leftBrace (by decide) htv fun _ => follows_codeBlock hr htv

theorem follows_functionDecl (hr : r.Follows M r') (h : s.Enters M b u) (hmark : M s.offset = none) :
    Follows M (· ≠ .leftBrace) s.offset s u (functionDecl r) (functionDecl r') := by
  refine Follows.append ((follows_take h hmark).append fun t v htv => follows_takeIf htv
    (fun hmark => ?_) fun hkind => ?_) fun _ _ => follows_functionRest hr
  · rw [Input.isAt, Input.isAt, Input.isAt, Input.isAt, htv.kind_eq hmark]
  · rw [Input.isAt, Input.isAt, hkind]
    rfl

theorem follows_initializerDecl (hr : r.Follows M r') (h : s.Enters M b u) (hmark : M s.offset = none) :
    Follows M (· ≠ .leftBrace) s.offset s u (initializerDecl r) (initializerDecl r') :=
  ((follows_take h hmark).append fun _ _ => follows_optionalMark).append fun _ _ =>
    follows_functionRest hr

/-! ### Types and cases -/

theorem follows_optionalInheritance (hr : r.Follows M r') (h : s.Omits M u) :
    Follows M E s.offset s u (whenAt .colon (inheritanceClause r))
      (whenAt .colon (inheritanceClause r')) := by
  refine follows_whenAt .colon rfl (by decide) h fun hmark _ =>
    ((follows_take h hmark).append fun t v htv => ?_).node
  exact follows_commaSeparated rfl (hr.assembled .type) htv fun _ _ => hr.type

theorem follows_typeDecl (hr : r.Follows M r') (isExtension : Bool) (h : s.Enters M b u)
    (hmark : M s.offset = none) :
    Follows M E s.offset s u (typeDecl r isExtension) (typeDecl r' isExtension) := by
  refine Follows.append (Follows.append (Follows.append ((follows_take h hmark).append
    fun t v htv => ?_) fun _ _ => follows_optionalInheritance hr)
    fun _ _ => follows_optionalRequirements hr) fun _ _ => follows_memberBlock hr
  refine Follows.test rfl (fun _ => hr.type htv) fun _ => ?_
  exact (follows_expect .identifier _ (by decide) htv).append fun _ _ =>
    follows_optionalGenericParameters hr

theorem follows_typeAliasDecl (hr : r.Follows M r') (h : s.Enters M b u) (hmark : M s.offset = none) :
    Follows M E s.offset s u (typeAliasDecl r) (typeAliasDecl r') :=
  (((((follows_take h hmark).append fun _ _ => follows_expect .identifier _ (by decide)).append
    fun _ _ => follows_optionalGenericParameters hr).append
    fun _ _ => follows_expect .equal _ (by decide))).append fun _ _ => hr.type

theorem follows_enumCaseDecl (hr : r.Follows M r') (h : s.Enters M b u) (hmark : M s.offset = none) :
    Follows M (· ≠ .leftParen) s.offset s u (enumCaseDecl r) (enumCaseDecl r') := by
  refine (follows_take h hmark).append fun t v htv => follows_commaSeparated rfl (.append (.append
    (.expect _ _) (.whenAt _ (assembled_tupleType hr.assembled))) (.whenAt _
    (assembled_initializerClause hr.assembled _))) htv fun t v htv => ?_
  refine Follows.append_optional
    ((follows_expect .identifier _ (by decide) htv).append fun t v htv => ?_)
    (fun t hkind => ?_) fun _ _ => follows_optionalInitializer hr _
  · exact follows_whenAt_end .leftParen (by decide) htv fun _ => follows_tupleType hr htv
  · rw [Input.isAt, hkind]
    rfl

/-! ### Declarations -/

theorem follows_declaration (hr : r.Follows M r') (h : s.Enters M b u) :
    FollowsToEnd M s.offset s u (declaration r) (declaration r') := by
  refine FollowsToEnd.capture (fun es t => yields_declModifiers h) (assembled_declarationBehind hr.assembled)
    (fun es t hkind => ?_) fun es t es' v hbuilt => ?_
  · refine rejects_peek ?_
    rw [hkind]
    exact rejects_expected _
  have htv := hbuilt.inputs
  by_cases hkind : t.kind = .semicolon
  · refine (Rejects.follows (rejects_peek ?_)).toEnd
    rw [hkind]
    exact rejects_expected _
  -- the token that decides is no semicolon, so both inputs decide alike
  have hmark := mark_of_kind htv hkind
  have hdecl : ∀ {k : SyntaxKind} {g g' : Grammar},
      Follows M (fun next => k.endsBefore next = true) t.offset t v g g' →
      FollowsToEnd M s.offset t v (node k (emit es ++ g)) (node k (emit es' ++ g')) :=
    fun hg => (hbuilt.emit_append hg).node_toEnd
  refine followsToEnd_peek ?_
  rw [htv.kind_eq hmark]
  dsimp only
  generalize t.kind = k
  split
  · exact hdecl (follows_importDecl htv hmark)
  · exact hdecl ((follows_variableDecl hr htv hmark).mono fun _ => bne_iff_ne.mp)
  · exact hdecl ((follows_variableDecl hr htv hmark).mono fun _ => bne_iff_ne.mp)
  · exact hdecl ((follows_functionDecl hr htv hmark).mono fun _ => bne_iff_ne.mp)
  · exact hdecl ((follows_initializerDecl hr htv hmark).mono fun _ => bne_iff_ne.mp)
  · exact hdecl (follows_typeDecl hr _ htv hmark)
  · exact hdecl (follows_typeDecl hr _ htv hmark)
  · exact hdecl (follows_typeDecl hr _ htv hmark)
  · exact hdecl (follows_typeDecl hr _ htv hmark)
  · exact hdecl (follows_typeDecl hr _ htv hmark)
  · exact hdecl (follows_typeAliasDecl hr htv hmark)
  · exact hdecl ((follows_enumCaseDecl hr htv hmark).mono fun _ => bne_iff_ne.mp)
  · exact (rejects_expected _).follows.toEnd

end Grammar

end SwiftTidy
