import SwiftTidy.Proofs.Parse.Retained.Expression
import SwiftTidy.Proofs.Parse.Without.Statement

/-!
# Declarations and statements with operators that loosen

A declaration is told by the keyword behind its modifiers, and a statement by its first token, neither of
which loosens.

The levels are stacked up twice.  First for inputs in front of a prefix operator that loosens, with
nothing in between but tokens that a signature may hold (`PennedAlike`): no statements are read from there
up to a brace (`not_clearsAll_of_penned`).  Then for all inputs (`level_readsAll`), where that says that no
signature comes up in a closure.  So a file is read into the same tree (`run_sourceFile_of_loosens`).
-/

namespace SwiftTidy

open Element Grammar

namespace Grammar

variable {M : Nat → Prop} {R : Input → Input → Prop} {B : Input → Prop} {r : Level} {s t u v : Input}
  {k : SyntaxKind} {o : Nat}

/-! ### Attributes and modifiers -/

theorem kindAt_of_headKind {n : Nat} (h : headKind (s.pending.drop n) = k) (hk : k ≠ .endOfFile) :
    s.kindAt n = k := by
  unfold Input.kindAt Input.nth
  rw [List.getD_eq_getElem?_getD, ← List.head?_drop]
  cases hdrop : s.pending.drop n with
  | nil =>
    rw [hdrop] at h
    exact absurd h.symm hk
  | cons a rest =>
    rw [hdrop] at h
    exact h

theorem not_mayLoosen_of_startsWithModifier (hmodifier : startsWithModifier s.pending = true) :
    ¬ s.MayLoosen M := by
  intro hloose
  unfold startsWithModifier at hmodifier
  split at hmodifier
  · cases hmodifier
  · next t ts hs =>
    have hkind : t.kind = s.kind := by
      unfold Input.kind Input.kindAt Input.nth
      rw [hs, List.getD_cons_zero]
    rcases hloose.1 with hoperator | hoperator <;> rw [hkind, hoperator] at hmodifier <;> cases hmodifier

theorem retains_declModifier (hon : ReadsOn M R) (h : R s u)
    (hmodifier : startsWithModifier s.pending = true) :
    Retains M R B s.offset s u declModifier := by
  refine Retains.node ((hon.take h (not_mayLoosen_of_startsWithModifier hmodifier)).append fun t v h => ?_)
  refine retains_onlyIf h (hon.loosens h).startsWithDetail_eq fun hdetail => hon.takeN h fun i hi => ?_
  rw [startsWithDetail, Bool.and_eq_true] at hdetail
  have hleft : t.kindAt 0 = .leftParen := kindAt_of_headKind (eq_of_beq hdetail.1) (by decide)
  have hright : t.kindAt 2 = .rightParen := kindAt_of_headKind (eq_of_beq hdetail.2) (by decide)
  rcases i with _ | _ | _ | i
  · exact Input.not_mayLoosen_of_kind rfl hleft
  · -- no colon stands behind the detail
    intro hloose
    have hcolon : t.behind.kindAt 1 = .colon := hloose.2.1
    rw [← t.kindAt_succ, hright] at hcolon
    cases hcolon
  · refine Input.not_mayLoosen_of_kind rfl (k := .rightParen) ?_
    rw [← hright, t.kindAt_succ 1, t.behind.kindAt_succ 0]
    rfl
  · omega

theorem retains_attributes (hon : ReadsOn M R) (h : R s u) :
    Retains M R B s.offset s u
      (repeated (fun s => if s.isAt .atSign then some attributeUse else none) r.bound) := by
  refine retains_repeated_congr h (fun t v h => by rw [hon.isAt_eq h rfl]) fun t v h g hturn => ?_
  split_ifs at hturn
  cases hturn
  exact retains_attributeUse hon h

theorem retains_declModifiers (hon : ReadsOn M R) (h : R s u) :
    Retains M R B s.offset s u (declModifiers r) := by
  refine retains_repeated_congr h (fun t v h => ?_) fun t v h g hturn => ?_
  · rw [hon.isAt_eq h rfl, (hon.loosens h).startsWithModifier_eq]
  · split_ifs at hturn with hattribute hmodifier
    · cases hturn
      exact retains_attributeUse hon h
    · cases hturn
      exact retains_declModifier hon h hmodifier

/-! ### Declarations -/

/-- One token in front of which an operator may stand for a name. -/
theorem retains_operatorName {test : Input → Bool} {what : String} (hon : ReadsOn M R) (h : R s u)
    (htest : test u = test s) :
    Retains M R (·.IsAstray M) s.offset s u (peek fun s => if test s then take else expected what) :=
  retains_test htest (fun _ => hon.take_astray h) fun _ => (rejects_expected _).retains

theorem retains_importDecl (hr : r.ReadsAll M R) (h : R s u) (hloose : ¬ s.MayLoosen M) :
    Retains M R (·.IsAstray M) s.offset s u (importDecl r) := by
  refine Retains.append (((hr.on.take h hloose).append fun t v h => ?_).append fun _ _ h =>
    hr.on.expect h rfl _) fun t v h => ?_
  · exact hr.on.takeAny h (by decide)
  · have hsame : ∀ t v, R t v →
        (v.isAt .period && !v.isAfterNewline) = (t.isAt .period && !t.isAfterNewline) :=
      fun t v h => by rw [hr.on.isAt_eq h rfl, (hr.on.loosens h).isAfterNewline_eq]
    refine retains_repeated h (fun t v h _ hstop => ?_) (fun t ht g hg => ?_) fun t v h g hg => .inr ⟨?_, ?_⟩
    · rwa [hsame t v h]
    · rw [ht.isAt rfl (by decide)] at hg
      cases hg
    · rwa [hsame t v h]
    · split_ifs at hg with hperiod
      cases hg
      rw [Bool.and_eq_true] at hperiod
      refine (hr.on.take_of_isAt h rfl hperiod.1).append fun t v h => retains_operatorName hr.on h ?_
      rw [hr.on.isAt_eq h rfl, (hr.on.loosens h).kind_eq_of SyntaxKind.isKeyword rfl rfl,
        (hr.on.loosens h).kind_eq_of SyntaxKind.isOperator rfl rfl]

theorem retains_patternBinding (hr : r.ReadsAll M R) (h : R s u) :
    Retains M R (·.MayLoosen M) s.offset s u (patternBinding r) := by
  refine Retains.append_idle (((hr.bindingPattern h).append fun _ _ =>
    retains_optionalAscription hr).append fun _ _ => retains_optionalInitializer hr _)
    (fun _ ht => idle_whenAt_of_mayLoosen rfl ht) fun t v h => ?_
  exact hr.on.whenAt h rfl fun _ => retains_codeBlock hr h

theorem retains_variableDecl (hr : r.ReadsAll M R) (h : R s u) (hloose : ¬ s.MayLoosen M) :
    Retains M R (·.MayLoosen M) s.offset s u (variableDecl r) :=
  (hr.on.take h hloose).append fun _ _ h => hr.on.commaSeparated rfl (assembled_patternBinding hr.assembled)
    (fun _ hat => Input.not_mayLoosen_of_isAt rfl hat) h fun _ _ => retains_patternBinding hr

theorem retains_parameter (hr : r.ReadsAll M R) (h : R s u) :
    Retains M R (·.IsAstray M) s.offset s u (parameter r) := by
  have hname : ∀ {t : Input}, t.kind.isName = true → ¬ t.MayLoosen M :=
    fun hkind => Input.not_mayLoosen_of_kind (not_isOperator_of_isName hkind) rfl
  refine Retains.append_idle (Retains.append (((((retains_attributes hr.on h).append fun t v h => ?_).append
    fun t v h => ?_).append fun _ _ h => hr.on.expect h rfl _).append fun _ _ => hr.type) fun _ _ =>
    retains_ellipsis hr.on) (fun t ht => idle_whenAt_of_astray rfl (by decide) ht) fun _ _ h =>
    (retains_optionalInitializer hr _ h).settled
  · exact retains_test ((hr.on.loosens h).kind_eq_of SyntaxKind.isName rfl rfl) (fun htest => hr.on.take h
      (hname htest)) fun _ => (rejects_expected _).retains
  · refine retains_onlyIf h ?_ fun htest => hr.on.take h (hname ?_)
    · rw [(hr.on.loosens h).kindAt_beq 1 rfl, (hr.on.loosens h).kind_eq_of SyntaxKind.isName rfl rfl]
    · rw [Bool.and_eq_true] at htest
      exact htest.1

theorem retains_parameterClause (hr : r.ReadsAll M R) (h : R s u) :
    Retains M R B s.offset s u (parameterClause r) := by
  refine Retains.node (Retains.append_due ((hr.on.expect h rfl _).append fun t v h => ?_)
    (fun t (ht : t.IsAstray M) => rejects_expect_of_astray rfl (by decide) _ ht) fun _ _ h =>
      hr.on.expect h rfl _)
  exact hr.on.commaSeparatedUntil rfl rfl (assembled_parameter hr.assembled)
    (fun t hat => Input.not_isAstray_of_isAt rfl (by decide) hat) h fun _ _ => retains_parameter hr

theorem retains_functionSignature (hr : r.ReadsAll M R) (h : R s u) :
    Retains M R B s.offset s u (functionSignature r) :=
  ((((retains_parameterClause hr h).append fun _ _ h => hr.on.eat h rfl).append fun _ _ h =>
    hr.on.takeAny h (by decide)).append fun _ _ h => hr.on.whenAt h rfl fun _ =>
      retains_returnClause hr h).node

theorem retains_genericParameterClause (hr : r.ReadsAll M R) (h : R s u) :
    Retains M R B s.offset s u (genericParameterClause r) := by
  refine Retains.node (Retains.append ((retains_takeAs hr _ h).append fun t v h => ?_) fun _ _ =>
    retains_rightAngle hr)
  refine hr.on.commaSeparated rfl ?_ (fun _ _ => id) h fun t v h => ((hr.on.expect h rfl _).append
    fun _ _ h => hr.on.whenAt h rfl fun hat => ?_).append fun _ _ => retains_splitRightAngle hr
  · exact .append (.append (.expect _ _) (.whenAt _ (.append .take (hr.assembled .type)))) .splitRightAngle
  · exact (hr.on.take_of_isAt h rfl hat).append fun _ _ => hr.type

theorem retains_optionalGenericParameters (hr : r.ReadsAll M R) (h : R s u) :
    Retains M R B s.offset s u (optionalGenericParameters r) :=
  retains_onlyIf h ((hr.on.loosens h).isAtOperator_eq _) fun _ => retains_genericParameterClause hr h

/-- The operator of a requirement does not stand in front of a colon: a type is due there. -/
theorem retains_genericWhereClause (hr : r.ReadsAll M R) (h : R s u) (hat : s.isAt .whereKw = true) :
    Retains M R B s.offset s u (genericWhereClause r) := by
  refine Retains.node ((hr.on.take_of_isAt h rfl hat).append fun t v h => ?_)
  refine (hr.on.commaSeparated (B := Never) rfl (.append (.append (hr.assembled .type) ?_)
    (hr.assembled .type)) (fun _ _ => id) h fun t v h => ((hr.type h).append fun t v h =>
      retains_operatorName hr.on h ?_).append_due (fun _ ht => hr.type_rejects ht)
        fun _ _ => hr.type).anywhere
  · exact .peek fun _ => .ite .take (.expected _ _)
  · rw [hr.on.isAt_eq h rfl, (hr.on.loosens h).isAtOperator_eq]

theorem retains_optionalRequirements (hr : r.ReadsAll M R) (h : R s u) :
    Retains M R B s.offset s u (whenAt .whereKw (genericWhereClause r)) :=
  hr.on.whenAt h rfl (retains_genericWhereClause hr h)

theorem retains_functionRest (hr : r.ReadsAll M R) (h : R s u) :
    Retains M R B s.offset s u (functionRest r) :=
  (((retains_optionalGenericParameters hr h).append fun _ _ => retains_functionSignature hr).append
    fun _ _ => retains_optionalRequirements hr).append fun _ _ h =>
      hr.on.whenAt h rfl fun _ => retains_codeBlock hr h

/-- Behind a name neither a colon follows nor an operator in front of one. -/
theorem rejects_functionRest (hs : s.IsAstray M) : (functionRest r).Rejects s := by
  refine Rejects.append (Rejects.append ?_)
  by_cases hangle : s.isAtOperator "<" = true
  · -- what the angle opens starts with a name
    refine Rejects.append (rejects_onlyIf hangle (Rejects.node (Rejects.append ?_)))
    have hcolon : s.behind.kind = .colon := by
      rcases hs with hloose | hkind
      · exact (s.kindAt_succ 0).symm.trans hloose.2.1
      · rw [Input.isAtOperator, hkind] at hangle
        cases hangle
    refine .behind_next (fun es t hrun => ?_) (rejects_commaSeparated (rejects_expect _ ?_).append.append)
    · obtain ⟨a, rest, hs, -, rfl⟩ := run_takeAs hrun
      rw [Input.behind_eq hs]
    · rw [Input.isAt, hcolon]
      rfl
  · refine (idle_onlyIf (Bool.eq_false_iff.mpr hangle)).append_rejects ?_
    exact (rejects_expect_of_astray rfl (by decide) _ hs).append.append.node.append.append.append.node

theorem retains_functionDecl (hr : r.ReadsAll M R) (h : R s u) (hloose : ¬ s.MayLoosen M) :
    Retains M R B s.offset s u (functionDecl r) := by
  refine Retains.append_due ((hr.on.take h hloose).append fun t v h => retains_operatorName hr.on h ?_)
    (fun _ ht => rejects_functionRest ht) fun _ _ => retains_functionRest hr
  rw [hr.on.isAt_eq h rfl, hr.on.isAt_eq h rfl, (hr.on.loosens h).kind_eq_of SyntaxKind.isOperator rfl rfl]

theorem retains_initializerDecl (hr : r.ReadsAll M R) (h : R s u) (hloose : ¬ s.MayLoosen M) :
    Retains M R B s.offset s u (initializerDecl r) :=
  ((hr.on.take h hloose).append fun _ _ => retains_optionalMark hr.on).append fun _ _ =>
    retains_functionRest hr

theorem retains_inheritanceClause (hr : r.ReadsAll M R) (h : R s u) (hat : s.isAt .colon = true) :
    Retains M R B s.offset s u (inheritanceClause r) :=
  ((hr.on.take_of_isAt h rfl hat).append fun _ _ h => (hr.on.commaSeparated (B := Never) rfl
    (hr.assembled .type) (fun _ _ => id) h fun _ _ => hr.type).anywhere).node

theorem retains_typeDecl (hr : r.ReadsAll M R) (isExtension : Bool) (h : R s u) (hloose : ¬ s.MayLoosen M) :
    Retains M R B s.offset s u (typeDecl r isExtension) := by
  refine Retains.append (Retains.append (Retains.append ((hr.on.take h hloose).append fun t v h =>
    Retains.ite (fun _ => hr.type h) fun _ => ?_) fun t v h => ?_) fun _ _ =>
      retains_optionalRequirements hr) fun _ _ => retains_braced _ hr.toReads
  · exact (hr.on.expect h rfl _).append fun _ _ => retains_optionalGenericParameters hr
  · exact hr.on.whenAt h rfl (retains_inheritanceClause hr h)

theorem retains_typeAliasDecl (hr : r.ReadsAll M R) (h : R s u) (hloose : ¬ s.MayLoosen M) :
    Retains M R B s.offset s u (typeAliasDecl r) :=
  ((((hr.on.take h hloose).append fun _ _ h => hr.on.expect h rfl _).append fun _ _ =>
    retains_optionalGenericParameters hr).append fun _ _ h => hr.on.expect h rfl _).append fun _ _ => hr.type

theorem retains_enumCaseDecl (hr : r.ReadsAll M R) (h : R s u) (hloose : ¬ s.MayLoosen M) :
    Retains M R (·.MayLoosen M) s.offset s u (enumCaseDecl r) := by
  refine (hr.on.take h hloose).append fun t v h => hr.on.commaSeparated rfl
    (.append (.append (.expect _ _) ?_) ?_) (fun _ hat => Input.not_mayLoosen_of_isAt rfl hat) h
      fun t v h => ((hr.on.expect h rfl _).append fun _ _ h => hr.on.whenAt h rfl fun _ =>
        retains_tupleType hr h).append fun _ _ => retains_optionalInitializer hr _
  · exact .whenAt _ (assembled_tupleType hr.assembled)
  · exact .whenAt _ (assembled_initializerClause hr.assembled _)

/-- The keyword behind the modifiers tells the kind of a declaration. -/
theorem retains_declaration (hr : r.Reads M R) (h : R s u) :
    Retains M R (·.IsAstray M) s.offset s u (declaration r) := by
  rw [declaration_eq]
  refine (retains_declModifiers (B := Never) hr.on h).capture (assembled_declarationBehind hr.assembled)
    (fun _ _ _ _ _ _ => id) fun es t v h ho => ?_
  by_cases hloose : t.MayLoosen M
  · refine Rejects.retains (rejects_peek ?_)
    rcases hloose.1 with hkind | hkind <;> rw [hkind] <;> exact rejects_expected _
  have hall : ∀ {k : SyntaxKind}, k.isQuiet = false → t.kind = k → r.ReadsAll M R :=
    fun hk hkind => hr.all h (hkind ▸ hk)
  have hdecl : ∀ {k : SyntaxKind} {g : Grammar}, Retains M R (·.IsAstray M) t.offset t v g →
      Retains M R (·.IsAstray M) s.offset t v (node k (emit es ++ g)) :=
    fun hg => (hg.emit_append ho).node
  refine retains_peek (by rw [(hr.on.loosens h).kind_eq hloose]) ?_
  dsimp only
  generalize hk : t.kind = k
  split
  · exact hdecl (retains_importDecl (hall rfl hk) h hloose)
  · exact hdecl (retains_variableDecl (hall rfl hk) h hloose).settled
  · exact hdecl (retains_variableDecl (hall rfl hk) h hloose).settled
  · exact hdecl (retains_functionDecl (hall rfl hk) h hloose)
  · exact hdecl (retains_initializerDecl (hall rfl hk) h hloose)
  · exact hdecl (retains_typeDecl (hall rfl hk) _ h hloose)
  · exact hdecl (retains_typeDecl (hall rfl hk) _ h hloose)
  · exact hdecl (retains_typeDecl (hall rfl hk) _ h hloose)
  · exact hdecl (retains_typeDecl (hall rfl hk) _ h hloose)
  · exact hdecl (retains_typeDecl (hall rfl hk) _ h hloose)
  · exact hdecl (retains_typeAliasDecl (hall rfl hk) h hloose)
  · exact hdecl (retains_enumCaseDecl (hall rfl hk) h hloose).settled
  · exact (rejects_expected _).retains

/-! ### Statements -/

theorem retains_jump (hon : ReadsOn M R) (h : R s u) (hloose : ¬ s.MayLoosen M) :
    Retains M R B s.offset s u (jump k) := by
  refine ((hon.take h hloose).append fun t v h => retains_onlyIf h ?_ fun hat => ?_).node
  · rw [hon.isAt_eq h rfl, (hon.loosens h).isAfterNewline_eq]
  · rw [Bool.and_eq_true] at hat
    exact hon.take_of_isAt h rfl hat.1

theorem retains_guardStmt (hr : r.ReadsAll M R) (h : R s u) (hloose : ¬ s.MayLoosen M) :
    Retains M R B s.offset s u (guardStmt r) :=
  ((((hr.on.take h hloose).append fun _ _ => retains_conditionList hr).append_due
    (fun _ ht => rejects_expect_of_mayLoosen rfl _ ht) fun _ _ h => hr.on.expect h rfl _).append fun _ _ =>
      retains_codeBlock hr).node

theorem retains_whileStmt (hr : r.ReadsAll M R) (h : R s u) (hloose : ¬ s.MayLoosen M) :
    Retains M R B s.offset s u (whileStmt r) :=
  (retains_conditionalBlock hr ((hr.on.take h hloose).append fun _ _ => retains_conditionList hr)).node

theorem retains_repeatStmt (hr : r.ReadsAll M R) (h : R s u) (hloose : ¬ s.MayLoosen M) :
    Retains M R (·.MayLoosen M) s.offset s u (repeatStmt r) :=
  ((((hr.on.take h hloose).append fun _ _ => retains_codeBlock hr).append fun _ _ h =>
    hr.on.expect h rfl _).append fun _ _ => hr.expression _).node

theorem retains_forPattern (hr : r.ReadsAll M R) (h : R s u) :
    Retains M R (·.MayLoosen M) s.offset s u (forPattern r) := by
  by_cases hloose : s.MayLoosen M
  · refine Rejects.retains (rejects_peek ?_)
    rcases hloose.1 with hkind | hkind <;> rw [hkind] <;>
      exact hr.rejects .bindingPattern s (fun h => by cases h) (.inl hloose)
  have htake : Retains M R Never s.offset s u take := hr.on.take h hloose
  refine retains_peek (by rw [(hr.on.loosens h).kind_eq hloose]) ?_
  split
  · exact htake.append fun _ _ => hr.pattern
  · exact (htake.append fun _ _ => hr.bindingPattern).node
  · exact (htake.append fun _ _ => hr.bindingPattern).node
  · exact hr.bindingPattern h

theorem retains_forInStmt (hr : r.ReadsAll M R) (h : R s u) (hloose : ¬ s.MayLoosen M) :
    Retains M R B s.offset s u (forInStmt r) := by
  have hhead : Retains M R (·.MayLoosen M) s.offset s u
      (take ++ eat .tryKw ++ eat .awaitKw ++ forPattern r ++ whenAt .colon (typeAscription r)) :=
    ((((hr.on.take h hloose).append fun _ _ h => hr.on.eat h rfl).append fun _ _ h =>
      hr.on.eat h rfl).append fun _ _ => retains_forPattern hr).append_idle
        (fun _ ht => idle_whenAt_of_mayLoosen rfl ht) fun _ _ => retains_optionalAscription hr
  have hvalue : Retains M R (·.MayLoosen M) s.offset s u
      (take ++ eat .tryKw ++ eat .awaitKw ++ forPattern r ++ whenAt .colon (typeAscription r) ++
        expect .inKw "`in`" ++ r.expression .condition) :=
    (hhead.append_due (fun _ ht => rejects_expect_of_mayLoosen rfl _ ht) fun _ _ h =>
      hr.on.expect h rfl _).append fun _ _ => hr.expression _
  exact (retains_conditionalBlock hr (hvalue.append_idle (fun _ ht => idle_whenAt_of_mayLoosen rfl ht)
    fun _ _ => retains_optionalWhere hr)).node

theorem retains_catchClause (hr : r.ReadsAll M R) (h : R s u) (hat : s.isAt .catchKw = true) :
    Retains M R B s.offset s u (catchClause r) := by
  refine (retains_conditionalBlock hr (((hr.on.take_of_isAt h rfl hat).append fun t v h =>
    retains_onlyIf h ?_ fun _ => hr.pattern h).append_idle (fun _ ht => idle_whenAt_of_mayLoosen rfl ht)
      fun _ _ => retains_optionalWhere hr)).node
  rw [(hr.on.loosens h).isAtAny_eq (by decide)]

theorem retains_doStmt (hr : r.ReadsAll M R) (h : R s u) (hloose : ¬ s.MayLoosen M) :
    Retains M R B s.offset s u (doStmt r) := by
  refine (((hr.on.take h hloose).append fun _ _ => retains_codeBlock hr).append fun t v h =>
    retains_repeated_congr h (fun t v h => by rw [hr.on.isAt_eq h rfl]) fun t v h g hg => ?_).node
  split_ifs at hg with hat
  cases hg
  exact retains_catchClause hr h hat

theorem isAtStatementEnd_eq_of_loosens (h : s.Loosens M u) : isAtStatementEnd u = isAtStatementEnd s := by
  rw [isAtStatementEnd, isAtStatementEnd, h.isAfterNewline_eq, h.isAtAny_eq (by decide)]

theorem isAtDecl_eq_false (hs : s.IsAstray M) : isAtDecl s = false := by
  unfold isAtDecl
  cases hpending : s.pending with
  | nil => rfl
  | cons a rest =>
    obtain ⟨j, text, leading, trailing⟩ := a
    have hj : s.kind = j := by
      unfold Input.kind Input.kindAt Input.nth
      rw [hpending, List.getD_cons_zero]
    rcases hs with ⟨hkind | hkind, -⟩ | hkind <;> (rw [hkind] at hj; subst hj; rfl)

theorem rejects_statement_of_astray (hr : r.Knows M R) (hs : s.IsAstray M) : (statement r).Rejects s := by
  refine rejects_peek ?_
  rw [isAtDecl_eq_false hs, isAtConditionalCompilation, hs.isAt rfl (by decide)]
  rcases hs with hloose | hkind
  · rcases hloose.1 with hkind | hkind <;> rw [hkind] <;> exact hr.expression_rejects _ (.inl hloose)
  · rw [hkind]
    exact hr.expression_rejects _ (.inr hkind)

theorem retains_statement (hr : r.Reads M R) (h : R s u) :
    Retains M R (·.IsAstray M) s.offset s u (statement r) := by
  by_cases hloose : s.MayLoosen M
  · exact (rejects_statement_of_astray hr.toKnows (.inl hloose)).retains
  have htake : Retains M R Never s.offset s u take := hr.on.take h hloose
  have hall : ∀ {k : SyntaxKind}, k.isQuiet = false → s.kind = k → r.ReadsAll M R :=
    fun hk hkind => hr.all h (hkind ▸ hk)
  have hloosens := hr.on.loosens h
  refine retains_test hloosens.isAtDecl_eq (fun _ => retains_declaration hr h) fun _ => retains_peek ?_ ?_
  · rw [isAtConditionalCompilation_eq_of_loosens hloosens, hloosens.kind_eq hloose]
  generalize hk : s.kind = k
  split
  · exact retains_guardStmt (hall rfl hk) h hloose
  · exact retains_whileStmt (hall rfl hk) h hloose
  · exact (retains_repeatStmt (hall rfl hk) h hloose).settled
  · exact retains_forInStmt (hall rfl hk) h hloose
  · exact retains_doStmt (hall rfl hk) h hloose
  · exact (htake.append fun _ _ => retains_codeBlock (hall rfl hk)).node
  · refine (htake.append fun t v h => (retains_onlyIf h ?_ fun _ => hr.expression _ h).settled).node
    rw [isAtStatementEnd_eq_of_loosens (hr.on.loosens h)]
  · exact (htake.append fun _ _ h => (hr.expression _ h).settled).node
  · exact retains_jump hr.on h hloose
  · exact retains_jump hr.on h hloose
  · exact (hr.on.take h hloose).node
  · exact Retains.ite (fun _ => rejects_conditionalCompilation.retains) fun _ => (hr.expression _ h).settled

theorem retains_codeBlockItem (hr : r.Reads M R) (h : R s u) :
    Retains M R (·.IsAstray M) s.offset s u (SwiftTidy.Grammar.codeBlockItem r) :=
  ((retains_statement hr h).append_idle (fun _ ht => idle_whenAt_of_astray rfl (by decide) ht) fun _ _ h =>
    hr.on.eat h rfl).node

/-! ### Levels -/

theorem rejects_unfold_of_astray (hr : r.Knows M R) (p : Nonterminal) (hp : p ≠ .ifExpr) (hs : s.IsAstray M) :
    (unfold r p).Rejects s := by
  match p with
  | .type => exact rejects_type_of_astray hs
  | .expression ρ => exact rejects_expression_of_astray hr ρ hs
  | .operand ρ => exact rejects_operand_of_astray hr ρ hs
  | .ifExpr => exact absurd rfl hp
  | .pattern => exact rejects_pattern_of_astray hr hs
  | .bindingPattern => exact rejects_bindingPattern_of_astray hs
  | .codeBlockItem => exact (rejects_statement_of_astray hr hs).append.node

theorem retains_unfold_quiet (hr : r.Reads M R) (p : Nonterminal) (hp : p.isQuiet = true) (h : R s u) :
    Retains M R (p.ends M) s.offset s u (unfold r p) := by
  match p with
  | .expression ρ => exact retains_expression hr ρ h
  | .operand ρ => exact retains_operand hr ρ h
  | .codeBlockItem => exact retains_codeBlockItem hr h

theorem retains_unfold (hr : r.ReadsAll M R) (p : Nonterminal) (h : R s u)
    (hp : p = .ifExpr → s.kind = .ifKw) : Retains M R (p.ends M) s.offset s u (unfold r p) := by
  match p with
  | .type => exact retains_type hr h
  | .ifExpr => exact retains_ifExpr hr h (hp rfl)
  | .pattern => exact retains_pattern hr h
  | .bindingPattern => exact retains_bindingPattern hr h
  | .expression ρ => exact retains_expression hr.toReads ρ h
  | .operand ρ => exact retains_operand hr.toReads ρ h
  | .codeBlockItem => exact retains_codeBlockItem hr.toReads h

theorem level_knows (hon : ReadsOn M R) (depth : Nat) : (level depth).Knows M R := by
  induction depth with
  | zero => exact ⟨assembled_level 0, hon, fun _ _ _ _ => rejects_fail _⟩
  | succ depth ih => exact ⟨assembled_level _, hon, fun p s hp hs => rejects_unfold_of_astray ih p hp hs⟩

/-- The same input, in front of a prefix operator that loosens. -/
def PennedAlike (M : Nat → Prop) (s u : Input) : Prop := u = s ∧ Token.Penned M s.offset s.pending

theorem isQuiet_of_penned (h : Token.Penned M s.offset s.pending) : s.kind.isQuiet = true := by
  unfold Input.kind Input.kindAt Input.nth
  generalize s.pending = ts at h
  cases h with
  | here hkind => rw [List.getD_cons_zero, hkind]; rfl
  | there hkind => exact hkind

theorem readsOn_pennedAlike : ReadsOn M (PennedAlike M) where
  loosens h := by
    obtain ⟨rfl, -⟩ := h
    exact .refl M _
  behind {s u} h hloose := by
    obtain ⟨rfl, h⟩ := h
    refine ⟨rfl, ?_⟩
    obtain ⟨o, ts, e⟩ := u
    cases h with
    | here hkind hcolon hmark =>
      exact absurd (Input.mayLoosen_of_loosens (hkind ▸ SyntaxKind.Loosens.free) hcolon hmark) hloose
    | there hkind h => exact h

theorem level_reads_penned (depth : Nat) : (level depth).Reads M (PennedAlike M) := by
  have hloud : ∀ {r : Level} {s u}, PennedAlike M s u → s.kind.isQuiet = false →
      r.ReadsAll M (PennedAlike M) := by
    intro r s u h hkind
    rw [isQuiet_of_penned h.2] at hkind
    cases hkind
  induction depth with
  | zero => exact ⟨level_knows readsOn_pennedAlike 0, fun _ _ _ _ _ => (rejects_fail _).retains, hloud⟩
  | succ depth ih =>
    exact ⟨level_knows readsOn_pennedAlike _, fun p s u hp h => retains_unfold_quiet ih p hp h, hloud⟩

/-- In front of a prefix operator that loosens statements cannot be read up to a brace. -/
theorem not_clearsAll_of_penned (depth : Nat) (s : Input) (es : List Element) (t : Input)
    (h : Token.Penned M s.offset s.pending) (hrun : (blockItems (level depth)).run s = .ok (es, t)) :
    ¬ ClearsAll M s.offset es := by
  intro hclears
  obtain ⟨v, -, ⟨-, hpenned⟩, -⟩ :=
    retains_blockItems (B := Never) (level_reads_penned depth) ⟨rfl, h⟩ es t hrun hclears id
  have hquiet := isQuiet_of_penned hpenned
  rw [show t.kind = .rightBrace from eq_of_beq (isAt_rightBrace_of_blockItems hrun)] at hquiet
  cases hquiet

theorem readsOn_loosens : ReadsOn M (Input.Loosens M) := ⟨id, fun h _ => h.behind⟩

theorem level_readsAll (M : Nat → Prop) (depth : Nat) : (level depth).ReadsAll M (Input.Loosens M) := by
  induction depth with
  | zero =>
    exact ⟨level_knows readsOn_loosens 0, Input.Loosens.behind, Input.Loosens.splitRightAngle,
      fun _ _ _ _ _ => (rejects_fail _).retains, not_clearsAll_of_penned 0⟩
  | succ depth ih =>
    exact ⟨level_knows readsOn_loosens _, Input.Loosens.behind, Input.Loosens.splitRightAngle,
      fun p s u h hp => retains_unfold ih p h hp, not_clearsAll_of_penned _⟩

/-! ### Files -/

theorem retains_fileItems (hr : r.Reads M R) (h : R s u) : Retains M R B s.offset s u (fileItems r) := by
  refine (retains_repeated (B := (·.IsAstray M)) h (fun t v h _ hstop => ?_) (fun t ht g hturn => ?_)
    fun t v h g hturn => ?_).of_ends fun es t hrun => ?_
  · split_ifs at hstop with hend
    rw [hr.on.isAt_eq h rfl, if_pos hend]
  · rw [ht.isAt rfl (by decide), ht.isAt rfl (by decide)] at hturn
    cases hturn
    exact hr.rejects _ t (fun h => by cases h) ht
  · split_ifs at hturn with hend hbrace
    · cases hturn
      exact .inl (rejects_fail _)
    · cases hturn
      refine .inr ⟨?_, hr.codeBlockItem h⟩
      rw [hr.on.isAt_eq h rfl, hr.on.isAt_eq h rfl, if_neg hend, if_neg hbrace]
  · have hnone := run_repeated hrun
    split_ifs at hnone with hend
    exact Input.not_isAstray_of_isAt rfl (by decide) hend

/-- **Operators that loosen**: a file is read into the same tree. -/
theorem run_sourceFile_of_loosens {depth : Nat} {es : List Element} (h : s.Loosens M u)
    (hrun : (sourceFile (level depth)).run s = .ok (es, t)) (hclears : ClearsAll M s.offset es) :
    ∃ v, (sourceFile (level depth)).run u = .ok (es, v) := by
  obtain ⟨items, hitems, rfl⟩ := run_sourceFile hrun
  obtain ⟨v, hv, htv, -⟩ := retains_fileItems (B := Never) (level_readsAll M depth).toReads h items t hitems
    (clearsAll_append.mp hclears.of_node).1 id
  rw [← htv.endOfFile]
  exact ⟨v, run_capture_eq (run_append_eq hv rfl) rfl⟩

end Grammar

end SwiftTidy
