import SwiftTidy.Proofs.Parse.Carrying
import SwiftTidy.Proofs.Parse.Without.Declaration

/-!
# Every production reads parts in another order

One statement for each production, in the order in which they are defined, over a level of which it is
assumed; the levels are then stacked up by induction on the depth.
-/

namespace SwiftTidy

open Element

open Grammar in
/-- The nonterminals of a level read the same with parts in another order.  A statement may end where a
case does, and whatever else is read where a pattern does too. -/
structure Level.Carries (P : Plan) (r : Level) : Prop where
  solid : r.Solid
  expresses : r.Expresses
  phrases : r.Phrases
  assembled : r.Assembled
  reads : ∀ {b : Bool} {A : Seams} p, p ≠ .codeBlockItem → Grammar.Carries P b A (r.read p)
  codeBlockItem : Grammar.Carries P true .outer r.codeBlockItem
  /-- No type starts with `case`. -/
  rejects : ∀ s, s.kind = .caseKw → r.type.Rejects s

namespace Level.Carries

variable {P : Plan} {b : Bool} {A : Seams} {r : Level}

theorem type (hr : r.Carries P) : Grammar.Carries P b A r.type := hr.reads .type (by simp)

theorem expression (hr : r.Carries P) (ρ : Restrictions) : Grammar.Carries P b A (r.expression ρ) :=
  hr.reads (.expression ρ) (by simp)

theorem operand (hr : r.Carries P) (ρ : Restrictions) : Grammar.Carries P b A (r.operand ρ) :=
  hr.reads (.operand ρ) (by simp)

theorem ifExpr (hr : r.Carries P) : Grammar.Carries P b A r.ifExpr := hr.reads .ifExpr (by simp)

theorem pattern (hr : r.Carries P) : Grammar.Carries P b A r.pattern := hr.reads .pattern (by simp)

theorem bindingPattern (hr : r.Carries P) : Grammar.Carries P b A r.bindingPattern :=
  hr.reads .bindingPattern (by simp)

end Level.Carries

namespace Grammar

variable {P : Plan} {R : Region} {b : Bool} {A : Seams} {r : Level} {s t u v : Input} {k : SyntaxKind}

/-! ### Attributes -/

theorem carries_onlyIf_sameLine {g : Grammar} (hk : k ∉ Seam.kinds) (hg : Carries P true A g) :
    Carries P true A (onlyIf (fun s => s.isAt k && !s.isAfterNewline) g) :=
  hg.onlyIf fun h _ => h.isAt_sameLine_eq hk

theorem carries_attributeUse : Carries P b A attributeUse := by
  refine .node rfl rfl (.append (.append (.expect _ _) ?_)
    (carries_onlyIf_sameLine (by decide) carries_balancedParens))
  refine .peek_leafy (fun s => .ite (fun _ => .take) fun _ => .expected _) ?_ fun h hin => ?_
  · exact Builds.peek fun _ => Builds.ite Solid.take.leafy (Builds.expected _)
  · rw [h.isAt_eq hin, h.kind_eq hin]

/-! ### Types -/

theorem carries_typeAscription (hr : r.Carries P) : Carries P b A (typeAscription r) :=
  .node rfl rfl (.append (.expect _ _) hr.type)

theorem carries_initializerClause (hr : r.Carries P) (ρ : Restrictions) :
    Carries P b A (initializerClause r ρ) :=
  .node rfl rfl (.append (.expect _ _) (hr.expression ρ))

theorem carries_returnClause (hr : r.Carries P) : Carries P b A (returnClause r) :=
  .node rfl rfl (.append (.expect _ _) hr.type)

theorem carries_rightAngle : Carries P true A rightAngle := by
  have hleafy : Leafy (peek fun s =>
      if s.isAtOperator ">" then takeAs .rightAngle else expected "`>`") :=
    Builds.peek fun _ => Builds.ite (Solid.takeAs _).leafy (Builds.expected _)
  refine .append_due .splitRightAngle hleafy (.peek_leafy (fun s => .ite (fun _ => ?_) fun _ =>
    .expected _) hleafy fun h hin => ?_)
  · exact .takeAs _ (by decide) (by decide)
  · rw [h.isAtOperator_eq]

theorem leafy_rightAngle : Leafy rightAngle :=
  .append_right (Builds.peek fun _ => Builds.ite (Solid.takeAs _).leafy (Builds.expected _))

theorem carries_genericArgumentClause (hr : r.Carries P) : Carries P b A (genericArgumentClause r) := by
  refine .node rfl rfl (.append_due (.append (.takeAs _ (by decide) (by decide)) ?_) leafy_rightAngle
    carries_rightAngle)
  exact .commaSeparated rfl rfl (by decide) (.append hr.type .splitRightAngle)

theorem carries_optionalArguments (hr : r.Carries P) :
    Carries P true A (onlyIf (·.isAtOperator "<") (genericArgumentClause r)) :=
  (carries_genericArgumentClause hr).onlyIf fun h _ => h.isAtOperator_eq _

theorem carries_ellipsis : Carries P true A (onlyIf (·.isAtOperator "...") take) :=
  Carries.take.onlyIf fun h _ => h.isAtOperator_eq _

theorem carries_initializer (hr : r.Carries P) (ρ : Restrictions) :
    Carries P true A (whenAt .equal (initializerClause r ρ)) :=
  .whenAt .equal (.of_all (by decide)) (carries_initializerClause hr ρ)

theorem carries_optionalAscription (hr : r.Carries P) {A : Seams} (hA : A.Blind (· == .colon)) :
    Carries P true A (whenAt .colon (typeAscription r)) :=
  .whenAt .colon hA (carries_typeAscription hr)

/-! #### Tuples -/

theorem isOperator_of_isName (hk : k.isName = true) : k.isOperator = false := by
  revert hk
  cases k <;> decide

/-- An element of a tuple type ends in front of a comma or of the end of the tuple. -/
def Separates (R : Region) (t : Input) : Prop :=
  R.Allows .none t ∧ (t.kind = .comma ∨ t.kind = .rightParen)

/-- The word `case` is a label where it starts an element, and then no parts are moved behind it. -/
theorem plan_of_tupleTypeElement {es : List Element} (hr : r.Carries P) (hkind : s.kind = .caseKw)
    (hrun : (tupleTypeElement r).run s = .ok (es, t)) (hconforms : ConformsAll P s.offset es) :
    P s.behind.offset = none := by
  rw [tupleTypeElement_eq] at hrun
  obtain ⟨_, _, _, hellipsis, -, rfl⟩ := run_append hrun
  obtain ⟨_, _, _, hfront, -, rfl⟩ := run_append hellipsis
  obtain ⟨_, _, _, hlabels, htype, rfl⟩ := run_append hfront
  rw [List.append_assoc, List.append_assoc, conformsAll_append] at hconforms
  clear hrun
  unfold tupleTypeLabels peek at hlabels
  dsimp only at hlabels
  split at hlabels
  · exact plan_of_take_append (g := takeN 1) hlabels hconforms.1
  · split at hlabels
    · exact plan_of_take_append (g := takeN 2) hlabels hconforms.1
    · cases hlabels
      exact absurd htype (hr.rejects s hkind _ _)

/-- The labels are told by at most two tokens behind the first, which the element goes on behind. -/
theorem carriesAt_tupleTypeElement (hr : r.Carries P) (h : s.Moves P R true u) :
    CarriesAt P R (Separates R) s.offset s u (tupleTypeElement r) (tupleTypeElement r) := by
  have hassembled := assembled_tupleTypeElement hr.assembled
  intro es t hrun hconforms ht
  have hlt := hassembled.lt_offset (solid_tupleTypeElement hr.solid).leafy h.ready hrun
  have hin : s.offset < R.stop := Nat.lt_of_lt_of_le hlt ht.1.1
  have hdue := ht.1.lt_stop
  have hbehind : s.kind.isName = true → s.behind.offset < R.stop := by
    intro hname
    rcases hassembled.behind_le hrun (isOperator_of_isName hname) with rfl | hle
    · exact absurd hlt (Nat.lt_irrefl _)
    · exact Nat.lt_of_le_of_lt hle hdue
  have hone : (u.kind.isName && u.kindAt 1 == .colon) = (s.kind.isName && s.kindAt 1 == .colon) := by
    rw [h.kind_eq hin]
    cases hname : s.kind.isName with
    | false => rfl
    | true => rw [h.kindAt_one_beq hin (.inl rfl) fun hlast => absurd (hbehind hname) (Nat.not_lt.mpr hlast)]
  have htwo : (u.kind.isName && (u.kindAt 1).isName && u.kindAt 2 == .colon) =
      (s.kind.isName && (s.kindAt 1).isName && s.kindAt 2 == .colon) := by
    rw [h.kind_eq hin]
    cases hname : s.kind.isName with
    | false => rfl
    | true =>
      have hplan : P s.behind.offset = none := by
        by_cases hcase : s.kind = .caseKw
        · exact plan_of_tupleTypeElement hr hcase hrun hconforms
        · refine h.plan_eq_none hin (fun hbrace => ?_) hcase
          rw [hbrace] at hname
          cases hname
      have hmoves := h.behind hin hplan
      rw [Input.kindAt_succ u, Input.kindAt_succ s, Input.kindAt_succ u, Input.kindAt_succ s,
        show u.behind.kindAt 0 = s.behind.kindAt 0 from hmoves.kind_eq (hbehind hname)]
      cases hsecond : (s.behind.kindAt 0).isName with
      | false => rfl
      | true =>
        rw [hmoves.kindAt_one_beq (hbehind hname) (.inl rfl)]
        -- the element does not end in front of a name, nor where the region does
        intro hlast
        rcases hassembled.behind_behind_le hrun (isOperator_of_isName hname)
          (isOperator_of_isName hsecond) with heq | heq | hle
        · exact absurd hlt (heq ▸ Nat.lt_irrefl _)
        · have hkind : t.kind.isName = true := heq ▸ hsecond
          rcases ht.2 with heq | heq <;> rw [heq] at hkind <;> cases hkind
        · exact absurd (Nat.lt_of_le_of_lt (hlast.trans hle) hdue) (Nat.lt_irrefl _)
  have hlabels : CarriesAt P R (R.Allows .none) s.offset s u tupleTypeLabels tupleTypeLabels :=
    .peek (.test hone (fun _ => (Carries.takeN 2).carries h) fun _ =>
      .test htwo (fun _ => (Carries.takeN 3).carries h) fun _ => Carries.nothing.carries h)
  exact (((hlabels.append hr.type).append carries_ellipsis).append
    (carries_initializer hr _)) es t hrun hconforms ht.1

theorem carriesAt_tupleTypeElements (hr : r.Carries P) (h : s.Moves P R true u) :
    CarriesAt P R (Separates R) s.offset s u
      (commaSeparatedUntil .rightParen .tupleTypeElement r.bound (tupleTypeElement r))
      (commaSeparatedUntil .rightParen .tupleTypeElement r.bound (tupleTypeElement r)) := by
  have helement := assembled_tupleTypeElement hr.assembled
  have hclose : ∀ {t v : Input}, t.Moves P R true v → v.isAt .rightParen = t.isAt .rightParen :=
    fun h => h.test_eq (· == .rightParen) fun _ => by cases R.seam <;> decide
  refine .peek (.test (congrArg (!·) (hclose h)) (fun _ => ?_) fun _ => .emit (.nil h))
  refine .commaList_of rfl rfl helement (fun _ ht => ht.1) (fun t hcomma hlt => ?_) (fun h ht => ?_)
    (fun h _ => hclose h) (carriesAt_tupleTypeElement hr) h.ready helement (carriesAt_tupleTypeElement hr h)
  · exact ⟨Region.allows_of_lt hlt, .inl (eq_of_beq hcomma)⟩
  · rw [h.isAt_eq ht.1.lt_stop]

theorem carries_tupleType (hr : r.Carries P) : Carries P b A (tupleType r) := by
  have hlist := Assembled.commaSeparatedUntil .rightParen (k := .tupleTypeElement) rfl r.bound
    (assembled_tupleTypeElement hr.assembled)
  have hopen : Assembled [] (expect .leftParen "`(`") := .expect _ _
  refine ⟨assembled_tupleType hr.assembled, fun {R s u} h => .node rfl ?_⟩
  have hfront : CarriesAt P R (Separates R) s.offset s u
      (expect .leftParen "`(`" ++
        commaSeparatedUntil .rightParen .tupleTypeElement r.bound (tupleTypeElement r))
      (expect .leftParen "`(`" ++
        commaSeparatedUntil .rightParen .tupleTypeElement r.bound (tupleTypeElement r)) := by
    refine .append_of ((Carries.expect (A := .none) _ _).carries h)
      (fun fs t gs w _ hrun hw => hlist.allows hrun hw.1) fun fs t fs' v _ _ _ hbuilt => ?_
    exact carriesAt_tupleTypeElements hr hbuilt.inputs
  refine hfront.append_of (fun fs t gs w hfs hrun hw => ?_) fun fs t fs' v _ _ _ hbuilt =>
    (Carries.expect _ _).carries hbuilt.inputs
  have hclose : Assembled [] (expect .rightParen "`)`") := .expect _ _
  have hlt := hclose.lt_offset (Solid.expect _ _).leafy ((hopen.append hlist).ready h.ready hfs) hrun
  refine ⟨Region.allows_of_lt (Nat.lt_of_lt_of_le hlt hw.1), .inr ?_⟩
  by_contra hkind
  exact rejects_expect _ (beq_eq_false_iff_ne.mpr hkind) _ _ hrun

theorem carries_functionTypeRest (hr : r.Carries P) : Carries P true A (functionTypeRest r) :=
  .append (.append (.eat _ (.of_all (by decide))) (.whenAtAny _ (.of_all (by decide)) .take))
    (carries_returnClause hr)

/-! #### Types and what may follow them -/

/-- The bracket and the first type wait for what stands behind them. -/
theorem carries_bracketType (hr : r.Carries P) : Carries P b A
    ((take ++ r.type).capture fun es => peek fun s =>
      if s.isAt .colon then
        node .dictionaryType (emit es ++ take ++ r.type ++ expect .rightBracket "`]`")
      else node .arrayType (emit es ++ expect .rightBracket "`]`")) := by
  have htype : Assembled [] r.type := hr.assembled .type
  have hfront : Assembled [] (take ++ r.type) := .append .take htype
  have hclose : Takes (expect .rightBracket "`]`") := .of_leafy (.expect _ _) (Solid.expect _ _).leafy
  have hbehind : ∀ es, Assembled es (peek fun s =>
      if s.isAt .colon then
        node .dictionaryType (emit es ++ take ++ r.type ++ expect .rightBracket "`]`")
      else node .arrayType (emit es ++ expect .rightBracket "`]`")) := fun es =>
    .peek fun _ => .ite (.node rfl (.append (.append (.append (.emit es) .take) htype) (.expect _ _)))
      (.node rfl (.append (.emit es) (.expect _ _)))
  refine ⟨.captured hfront hbehind, fun {R s u} h => ?_⟩
  refine CarriesAt.capture_due [] rfl hfront h.ready
    ((Carries.take.append hr.type).carries h) (fun es => ?_) (fun es => ?_)
    fun fs t fs' v hin hbuilt => ?_
  · exact .peek fun _ => .ite (.node (.append_right (.append (.append (.emit es) .take) htype) hclose))
      (.node (.append_right (.emit es) hclose))
  · exact .peek fun _ => .ite (.node rfl (.append (.append (.append (.emit es)))))
      (.node rfl (.append (.emit es)))
  · refine .peek (.test ?_ (fun _ => ?_) fun _ => ?_)
    · rw [hbuilt.inputs.isAt_eq hin]
    · have htake := CarriesAt.built_append hbuilt (Carries.take.carries (A := A) hbuilt.inputs)
      exact .node rfl ((htake.append hr.type).append (.expect _ _))
    · exact .node rfl (CarriesAt.built_append hbuilt ((Carries.expect _ _).carries hbuilt.inputs))

/-- A tuple type in front of a function type waits for what stands behind it. -/
theorem carries_tupleOrFunctionType (hr : r.Carries P) : Carries P b A
    ((tupleType r).capture fun es => peek fun s =>
      if s.isAtAny [.asyncKw, .throwsKw, .rethrowsKw, .arrow] then
        node .functionType (emit es ++ functionTypeRest r)
      else emit es) := by
  have hrest := assembled_functionTypeRest hr.assembled
  have hbehind : ∀ es, Assembled es (peek fun s =>
      if s.isAtAny [.asyncKw, .throwsKw, .rethrowsKw, .arrow] then
        node .functionType (emit es ++ functionTypeRest r)
      else emit es) := fun es =>
    .peek fun _ => .ite (.node rfl (.append (.emit es) hrest)) (.emit es)
  refine ⟨.captured (assembled_tupleType hr.assembled) hbehind, fun {R s u} h => ?_⟩
  refine ((carries_tupleType hr).carries h).capture hbehind (fun es => ?_) fun fs t fs' v hbuilt => ?_
  · exact .peek fun _ => .ite (.node rfl (.append (.emit es))) (.emit es)
  · refine .of_allows (hbehind fs) fun hallows => .peek (.test ?_ (fun _ => ?_) fun _ => .emit hbuilt)
    · exact test_of_allows hbuilt.inputs (f := ([.asyncKw, .throwsKw, .rethrowsKw, .arrow].contains ·))
        (.of_all (by decide)) hallows
    · exact .node rfl (CarriesAt.built_append hbuilt ((carries_functionTypeRest hr).carries hbuilt.inputs))

theorem carries_primaryType (hr : r.Carries P) : Carries P b A (primaryType r) := by
  have hname : Carries P b A
      (node .identifierType (take ++ onlyIf (·.isAtOperator "<") (genericArgumentClause r))) :=
    .node rfl rfl (.append .take (carries_optionalArguments hr))
  refine .peek_leafy (fun s => ?_) (solid_primaryType hr.solid).leafy fun h hin => ?_
  · split
    · exact hname
    · exact hname
    · exact carries_bracketType hr
    · exact carries_tupleOrFunctionType hr
    · exact .expected _
  · rw [h.kind_eq hin]

/-- Nothing that may stand behind a part goes on with a type. -/
theorem typeSuffix_eq_none (hkind : s.kind ∈ Seam.kinds) (e : Element) : typeSuffix? r s e = none := by
  unfold typeSuffix?
  split
  all_goals first
    | rfl
    | next heq =>
      rw [heq] at hkind
      exact absurd hkind (by decide)

theorem typeSuffix_eq (h : s.Moves P R true u) (e e' : Element) :
    typeSuffix? r u e' = typeSuffix? r s e := by
  rcases Nat.lt_or_eq_of_le h.le_stop with hin | hstop
  · unfold typeSuffix?
    rw [h.kind_eq hin]
    split
    · rfl
    · rfl
    · next hkind =>
      have hplan := h.plan_eq_none hin (by rw [hkind]; decide) (by rw [hkind]; decide)
      rw [h.isAfterNewline_eq hin (by rw [hkind]; decide) (by rw [hkind]; decide),
        h.test_one_eq SyntaxKind.isName hin hplan fun hadmits => ?_]
      rw [hkind] at hadmits
      cases hadmits
    · rfl
  · obtain ⟨hs, hu⟩ := h.kind_mem_closers hstop
    rw [typeSuffix_eq_none (Seam.mem_kinds hs), typeSuffix_eq_none (Seam.mem_kinds hu)]

theorem carries_typeSuffix (hr : r.Carries P) (s : Input) (e : Element) :
    ∀ p ∈ typeSuffix? r s e, p.1.hasParts = false ∧ p.1.isNode = true ∧ Carries P true A p.2 := by
  intro p hp
  unfold typeSuffix? at hp
  split at hp
  · cases hp
    exact ⟨rfl, rfl, .take⟩
  · cases hp
    exact ⟨rfl, rfl, .take⟩
  · split at hp <;> cases hp
    exact ⟨rfl, rfl, .append (.takeN 2) (carries_optionalArguments hr)⟩
  · cases hp

theorem isAtOpaqueType_of_moves (h : s.Moves P R b u) (hin : s.offset < R.stop) :
    isAtOpaqueType u = isAtOpaqueType s := by
  unfold isAtOpaqueType
  rw [h.isAt_eq hin, h.text_eq hin]
  cases hkind : s.isAt .identifier with
  | false => rfl
  | true =>
    have hkind : s.kind = .identifier := eq_of_beq hkind
    have hplan := h.plan_eq_none hin (by rw [hkind]; decide) (by rw [hkind]; decide)
    rw [Bool.or_assoc, Bool.or_assoc]
    refine congrArg (_ && ·) (h.test_one_eq
      (fun k => k == .identifier || (k == .leftParen || k == .capitalSelfKw)) hin hplan fun _ => ?_)
    cases R.seam <;> decide

theorem carries_type (hr : r.Carries P) : Carries P b A (type r) := by
  refine .peek_leafy (fun s => .ite (fun _ => ?_) fun _ => .ite (fun _ => ?_) fun _ => .ite (fun _ => ?_)
    fun _ => ?_) (solid_type hr.solid).leafy fun h hin => ?_
  · exact .node rfl rfl (.append carries_attributeUse hr.type)
  · exact .node rfl rfl (.append .take hr.type)
  · exact .node rfl rfl (.append .take hr.type)
  · exact .withSuffixes (carries_typeSuffix hr) (fun h _ _ => typeSuffix_eq h _ _) (carries_primaryType hr)
  · rw [h.isAt_eq hin, h.isAt_eq hin, isAtOpaqueType_of_moves h hin]

/-! ### Patterns -/

theorem carries_bindingPattern (hr : r.Carries P) : Carries P b A (bindingPattern r) := by
  refine .peek_leafy (fun s => ?_) (solid_bindingPattern hr.solid).leafy fun h hin => ?_
  · split
    · exact .node rfl rfl .take
    · exact .node rfl rfl .take
    · refine .node rfl rfl (.append_due (.append .take ?_) (Solid.expect _ _).leafy (.expect _ _))
      exact .commaSeparatedUntil rfl rfl (by decide) (by decide) hr.bindingPattern
    · exact .expected _
  · rw [h.kind_eq hin]

/-- Behind a wildcard that ends a part there stands what ends a pattern, or there does not. -/
theorem isAtWildcardPattern_of_moves (h : s.Moves P R b u) (hin : s.offset < R.stop) :
    isAtWildcardPattern u = isAtWildcardPattern s := by
  unfold isAtWildcardPattern
  rw [h.isAt_eq hin]
  cases hkind : s.isAt .wildcard with
  | false => rfl
  | true =>
    have hkind : s.kind = .wildcard := eq_of_beq hkind
    have hplan := h.plan_eq_none hin (by rw [hkind]; decide) (by rw [hkind]; decide)
    refine h.test_one_eq (fun k => true && (k == .colon || k == .comma || k == .whereKw || k == .equal)) hin
      hplan fun _ => ?_
    cases R.seam <;> decide

theorem carries_pattern (hr : r.Carries P) : Carries P b A (pattern r) := by
  refine .peek_leafy (fun s => .ite (fun _ => ?_) fun _ => .ite (fun _ => ?_) fun _ => .ite (fun _ => ?_)
    fun _ => ?_) (solid_pattern hr.solid).leafy fun {R s u} h hin => ?_
  · exact .node rfl rfl (.append .take hr.pattern)
  · exact .node rfl rfl .take
  · exact .node rfl rfl .take
  · exact .node rfl rfl (hr.expression .pattern)
  · have hloop : (u.isAt .identifier && u.kindAt 1 == .inKw) =
        (s.isAt .identifier && s.kindAt 1 == .inKw) := by
      rw [h.isAt_eq hin]
      cases hkind : s.isAt .identifier with
      | false => rfl
      | true =>
        have hkind : s.kind = .identifier := eq_of_beq hkind
        have hplan := h.plan_eq_none hin (by rw [hkind]; decide) (by rw [hkind]; decide)
        refine h.test_one_eq (fun k => true && k == .inKw) hin hplan fun _ => ?_
        cases R.seam <;> decide
    rw [isAtWildcardPattern_of_moves h hin, hloop, Input.isAtAny, Input.isAtAny, h.kind_eq hin]

/-! ### Blocks and branches -/

theorem carries_blockItems (hr : r.Carries P) : Carries P true .none (blockItems r) := by
  refine .repeated (fun s g hg => ?_) fun h hallows => ?_
  · split_ifs at hg <;> cases hg
    · exact .expected _
    · exact hr.codeBlockItem.mono fun _ heq => by cases heq
  · rw [h.isAt_eq hallows.lt_stop, h.isAt_eq hallows.lt_stop]

theorem carries_braced (hk : k.hasParts = false) (hnode : k.isNode = true) (hr : r.Carries P) :
    Carries P b A (braced k r) :=
  .node hk hnode (.append_due (.append (.expect _ _) (carries_blockItems hr)) Solid.take.leafy .take)

theorem carries_codeBlock (hr : r.Carries P) : Carries P b A (codeBlock r) := carries_braced rfl rfl hr

theorem carries_whereClause (hr : r.Carries P) : Carries P b A (whereClause r) :=
  .node rfl rfl (.append .take (hr.expression _))

theorem carries_condition (hr : r.Carries P) : Carries P b .none (condition r) := by
  have hbinding : Carries P b .none (node .optionalBindingCondition <|
      take ++ r.bindingPattern ++ whenAt .colon (typeAscription r) ++
        whenAt .equal (initializerClause r .condition)) := by
    refine .node rfl rfl (.append (.append (.append .take hr.bindingPattern) ?_) ?_)
    · exact carries_optionalAscription hr (by decide)
    · exact carries_initializer hr _
  refine .peek_leafy (fun s => ?_) (solid_condition hr.solid).leafy fun h hin => ?_
  · split
    · exact hbinding
    · exact hbinding
    · exact .append (.append .take hr.pattern) (carries_initializerClause hr _)
    · exact hr.expression _
  · rw [h.kind_eq hin]

theorem carries_conditionList (hr : r.Carries P) : Carries P true .none (conditionList r) :=
  .commaSeparated rfl rfl (by decide) (carries_condition hr)

theorem carries_ifExpr (hr : r.Carries P) : Carries P b A (ifExpr r) := by
  refine .node rfl rfl (.append (.append_due (.append .take (carries_conditionList hr))
    (solid_codeBlock hr.solid).leafy (carries_codeBlock hr))
    (.whenAt _ (.of_all (by decide)) (.append .take ?_)))
  refine .peek_leafy (fun s => .ite (fun _ => hr.ifExpr) fun _ => carries_codeBlock hr) ?_
    fun h hin => ?_
  · exact Builds.peek fun _ => Builds.ite (Solid.leafy (hr.solid .ifExpr)) (solid_codeBlock hr.solid).leafy
  · rw [h.isAt_eq hin]

end Grammar

end SwiftTidy
