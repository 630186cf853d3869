import SwiftTidy.Proofs.Parse.Carried.Switch
import SwiftTidy.Proofs.Parse.Lexemes
import SwiftTidy.Proofs.Parse.Releading
import SwiftTidy.Proofs.Parse.Total
import SwiftTidy.Proofs.Parse.TriviaRuns

/-!
# Files with parts in another order

What is left of the productions reads parts in another order as well, and so do all levels
(`carries_level`).  From this, a tree with parts in another order is the tree of its own text, if the tokens
of this are the leaves of the tree (`parse_of_moves`).
-/

namespace SwiftTidy

open Element

namespace Grammar

variable {P : Plan} {R : Region} {b : Bool} {A : Seams} {r : Level} {s t u v : Input} {k : SyntaxKind}

/-! ### Expressions -/

/-- A value with an optional label. -/
theorem carries_argument (hr : r.Carries P) (ρ : Restrictions) {close : SyntaxKind}
    (hclose : close.isName = false) : Carries P true .none
      (onlyIf (fun s => s.kind.isName && s.kindAt 1 == .colon) (takeN 2) ++
        onlyIf (fun s => !s.isAt .comma && !s.isAt close) (r.expression ρ)) := by
  have hvalue : Carries P true .none
      (onlyIf (fun s => !s.isAt .comma && !s.isAt close) (r.expression ρ)) := by
    refine (hr.expression ρ).onlyIf fun h hallows => ?_
    rw [h.isAt_eq hallows.lt_stop, h.isAt_eq hallows.lt_stop]
  have hassembled : Assembled [] (onlyIf (fun s => s.kind.isName && s.kindAt 1 == .colon) (takeN 2) ++
      onlyIf (fun s => !s.isAt .comma && !s.isAt close) (r.expression ρ)) :=
    .append (.onlyIf _ (.takeN 2)) hvalue.assembled
  refine ⟨hassembled, fun {R s u} h => .of_allows hassembled fun hallows => ?_⟩
  have hin := hallows.lt_stop
  by_cases hlast : s.kind.isName = true ∧ R.stop ≤ s.behind.offset
  · -- a name is read, be it as a label or not, and something is due behind it
    intro es t hrun _ ht
    have hlt : s.offset < t.offset := by
      obtain ⟨fs, gs, w, hlabel, hgs, -⟩ := run_append hrun
      cases htest : s.kind.isName && s.kindAt 1 == .colon with
      | true =>
        rw [run_onlyIf_of_test htest] at hlabel
        exact Nat.lt_of_lt_of_le ((Assembled.takeN 2).lt_offset (solid_takeN 1).leafy h.ready hlabel)
          (hvalue.assembled.offset_le hgs)
      | false =>
        rw [run_onlyIf_eq htest] at hlabel
        cases hlabel
        have hvalueTest : (!s.isAt .comma && !s.isAt close) = true := by
          have hname := hlast.1
          rw [Bool.and_eq_true, Bool.not_eq_true', Bool.not_eq_true', Input.isAt, Input.isAt,
            beq_eq_false_iff_ne, beq_eq_false_iff_ne]
          constructor <;> rintro heq <;> rw [heq] at hname
          · cases hname
          · rw [hclose] at hname
            cases hname
        rw [run_onlyIf_of_test hvalueTest] at hgs
        exact (hr.assembled (.expression ρ)).lt_offset (Solid.leafy (hr.solid (.expression ρ))) h.ready hgs
    rcases hassembled.behind_le hrun (isOperator_of_isName hlast.1) with rfl | hle
    · exact absurd hlt (Nat.lt_irrefl _)
    · exact absurd (Nat.lt_of_le_of_lt (hlast.2.trans hle) ht.lt_stop) (Nat.lt_irrefl _)
  · have hlabel : CarriesAt P R (R.Allows .none) s.offset s u
        (onlyIf (fun s => s.kind.isName && s.kindAt 1 == .colon) (takeN 2))
        (onlyIf (fun s => s.kind.isName && s.kindAt 1 == .colon) (takeN 2)) := by
      refine .peek (.test ?_ (fun _ => (Carries.takeN 2).carries h) fun _ => .emit (.nil h))
      dsimp only
      rw [h.kind_eq hin]
      cases hname : s.kind.isName with
      | false => rfl
      | true => rw [h.kindAt_one_beq hin (.inl rfl) fun hstop => absurd ⟨hname, hstop⟩ hlast]
    exact hlabel.append hvalue

theorem carries_argumentList (hr : r.Carries P) {close : SyntaxKind} (hclose : close.isName = false)
    (inPattern : Bool) : Carries P true .none (argumentList r close inPattern) := by
  refine .node rfl rfl (.commaSeparatedUntil rfl rfl (by decide) ?_ (carries_argument hr _ hclose))
  intro seam hseam
  cases hseam

/-- The signature of a closure, if one stands there. -/
def closureSignature : Grammar :=
  peek fun s =>
    match signatureLength? 0 s.pending with
    | some n => node .closureSignature (takeN n)
    | none => nothing

theorem assembled_closureSignature : Assembled [] closureSignature := by
  refine .peek fun s => ?_
  split
  · exact .node rfl (.takeN _)
  · exact .nothing

/-- No block opens in front of a closure, whose signature is the same. -/
theorem carries_closureExpr (hr : r.Carries P) : Carries P b A (closureExpr r) := by
  refine ⟨assembled_closureExpr hr.assembled, fun {R s u} h =>
    .of_leafy (assembled_closureExpr hr.assembled) (solid_closureExpr hr.solid).leafy h fun hin => ?_⟩
  have hopen : Assembled [] (expect .leftBrace "`\x7b`") := .expect _ _
  have hfront : CarriesAt P R (R.Allows .none) s.offset s u
      (expect .leftBrace "`\x7b`" ++ closureSignature) (expect .leftBrace "`\x7b`" ++ closureSignature) := by
    refine ((Carries.expect (A := .none) _ _).carries h).append_of
      (fun fs t gs w _ hrun hw => assembled_closureSignature.allows hrun hw)
      fun fs t fs' v hfs hconforms hfs' hbuilt => .peek ?_
    have hlength : signatureLength? 0 v.pending = signatureLength? 0 t.pending := by
      obtain ⟨a, rest, hpending, ha, rfl, rfl⟩ := run_expect hfs
      obtain ⟨_, _, _, _, -, rfl⟩ := run_expect hfs'
      rw [conformsAll_single, Conforms] at hconforms
      have hkind : s.kind = .leftBrace := by
        rw [Input.kind, Input.kindAt, Input.nth, hpending, List.getD_cons_zero, ha]
      rcases h.cases_head hin with ⟨-, -, hsame, -⟩ | ⟨-, ⟨blk, hsome⟩, -⟩
      · exact hsame hkind
      · rw [Input.behind_eq hpending, hconforms] at hsome
        cases hsome
    rw [hlength]
    split
    · exact .node rfl ((Carries.takeN _).carries hbuilt.inputs)
    · exact .emit (.nil hbuilt.inputs)
  have hassembled : Assembled [] (expect .leftBrace "`\x7b`" ++ closureSignature ++ blockItems r) :=
    .append (.append hopen assembled_closureSignature) (assembled_blockItems hr.assembled)
  exact .node rfl ((hfront.append (carries_blockItems hr)).append_due hassembled h.ready
    Solid.take.leafy .take)

section Collection

variable {o : Nat} {opening opening' first first' : List Element} {w x : Input}

theorem places_collectionRest (opening first : List Element) :
    Places P o (opening ++ first) (collectionRest r opening first) :=
  .peek fun _ => .ite
    (.node rfl (.append (.emitFront (.commaList rfl (.append (.emit first))))))
    (.node rfl (.append (.emitFront (.commaList rfl (.emit first)))))

theorem takes_collectionRest (hr : r.Assembled) (opening first : List Element) :
    Takes (collectionRest r opening first) := by
  have hclose : Takes (expect .rightBracket "`]`") := .of_leafy (.expect _ _) (Solid.expect _ _).leafy
  exact .peek fun _ => .ite (.node (.append_right (.emitFront opening (assembled_pairs hr first)) hclose))
    (.node (.append_right (.emitFront opening (assembled_values hr first)) hclose))

theorem takes_collectionBehind (hr : r.Carries P) (opening : List Element) :
    Takes (collectionBehind r opening) := by
  have hvalue : Takes (r.expression .free) :=
    .of_leafy (hr.assembled (.expression _)) (Solid.leafy (hr.solid (.expression _)))
  exact .peek fun _ => .ite
    (.node (.append_right (.emit opening) (.of_leafy (.takeN _) (solid_takeN _).leafy)))
    (.ite (.node (.append_right (.emit opening) (.of_leafy .take Solid.take.leafy)))
      (.capture hvalue (assembled_collectionRest hr.assembled opening)))

theorem places_collectionBehind (opening : List Element) :
    Places P o opening (collectionBehind r opening) :=
  .peek fun _ => .ite (.node rfl (.append (.emit opening))) (.ite (.node rfl (.append (.emit opening)))
    (.capture_behind (places_collectionRest opening)))

theorem carriesAt_collectionRest (hr : r.Carries P) (hopening : BuiltMoved P R o opening t opening' v)
    (hfirst : BuiltMoved P R t.offset first w first' x) (hin : w.offset < R.stop) :
    CarriesAt P R (R.Allows A) o w x (collectionRest r opening first) (collectionRest r opening' first') := by
  have hready := hfirst.inputs.ready
  have hread : Carries P true .none (r.expression .free) := hr.expression _
  have hbehind : Carries P true .none (expect .colon "`:`" ++ r.expression .free) :=
    .append (.expect _ _) hread
  have hclose : Leafy (expect .rightBracket "`]`") := (Solid.expect _ _).leafy
  have hbracket : ∀ {R : Region} {t v : Input}, t.Moves P R true v → R.Allows .none t →
      v.isAt .rightBracket = t.isAt .rightBracket := fun h hallows => by
    rw [h.isAt_eq hallows.lt_stop]
  have hpairs : CarriesAt P R (R.Allows .none) t.offset w x (pairs r first) (pairs r first') :=
    .commaList rfl rfl (by decide) (.append hread hbehind) hbracket hready
      (.append (.emit first) hbehind.assembled)
      (CarriesAt.built_append hfirst (hbehind.carries hfirst.inputs))
  have hvalues : CarriesAt P R (R.Allows .none) t.offset w x (values r first) (values r first') :=
    .commaList rfl rfl (by decide) hread hbracket hready (.emit first) (CarriesAt.emit hfirst)
  refine .peek (.test ?_ (fun _ => ?_) fun _ => ?_)
  · rw [hfirst.inputs.isAt_eq hin]
  · refine .node rfl (.append_due ?_ (.emitFront opening (assembled_pairs hr.assembled first)) hready hclose
      (.expect _ _))
    exact .emit_append hopening.elements hopening.length (hopening.offset ▸ hpairs)
  · refine .node rfl (.append_due ?_ (.emitFront opening (assembled_values hr.assembled first)) hready hclose
      (.expect _ _))
    exact .emit_append hopening.elements hopening.length (hopening.offset ▸ hvalues)

/-- The bracket waits while the first value is read, and both wait for what is behind them. -/
theorem carries_collectionExpr (hr : r.Carries P) : Carries P b A (collectionExpr r) := by
  refine ⟨assembled_collectionExpr hr.assembled, fun {R s u} h => ?_⟩
  rw [collectionExpr_eq]
  refine CarriesAt.capture_due [] rfl .take h.ready (Carries.take.carries h) (takes_collectionBehind hr)
    places_collectionBehind fun opening t opening' v hin hopening => ?_
  have htv := hopening.inputs
  have hempty : (v.isAt .colon && v.kindAt 1 == .rightBracket) =
      (t.isAt .colon && t.kindAt 1 == .rightBracket) := by
    rw [Input.isAt, Input.isAt, htv.kind_eq hin]
    cases hcolon : t.kind == .colon with
    | false => rfl
    | true =>
      have hkind : t.kind = .colon := eq_of_beq hcolon
      have hplan := htv.plan_eq_none hin (by rw [hkind]; decide) (by rw [hkind]; decide)
      refine htv.test_one_eq (fun k => true && k == .rightBracket) hin hplan fun _ => ?_
      cases R.seam <;> decide
  refine .peek (.test hempty (fun _ => ?_) fun _ => .test ?_ (fun _ => ?_) fun _ => ?_)
  · exact .node rfl (CarriesAt.built_append hopening ((Carries.takeN 2).carries htv))
  · rw [htv.isAt_eq hin]
  · exact .node rfl (CarriesAt.built_append hopening (Carries.take.carries htv))
  · have hvalue : Carries P true .none (r.expression .free) := hr.expression _
    exact (hvalue.carries htv).capture_due opening hopening.offset hvalue.assembled htv.ready
      (takes_collectionRest hr.assembled opening) (places_collectionRest opening)
      fun first w first' x hin hfirst => carriesAt_collectionRest hr hopening hfirst hin

end Collection

/-! #### Operands -/

theorem carries_memberName : Carries P b A memberName := by
  refine .peek_leafy (fun s => .ite (fun _ => .take) fun _ => .expected _) ?_ fun h hin => ?_
  · exact Builds.peek fun _ => Builds.ite Solid.take.leafy (Builds.expected _)
  · rw [h.isAt_eq hin, h.isAt_eq hin, h.kind_eq hin]

/-- No pattern ends with an operator, and what stands behind a case is no end of a value. -/
theorem isAtOperatorValue_of_moves (h : s.Moves P R b u) (hin : s.offset < R.stop) :
    isAtOperatorValue u = isAtOperatorValue s := by
  unfold isAtOperatorValue
  rw [h.kind_eq hin]
  cases hoperator : s.kind.isOperator with
  | false => rfl
  | true =>
    have hplan := h.plan_eq_none hin (fun heq => by rw [heq] at hoperator; cases hoperator)
      fun heq => by rw [heq] at hoperator; cases hoperator
    refine h.test_one_eq (fun k => true && (k == .rightParen || k == .comma)) hin hplan fun hadmits => ?_
    rw [Seam.admits, hoperator] at hadmits
    cases hseam : R.seam with
    | file => decide
    | cases => decide
    | items =>
      rw [hseam] at hadmits
      simp at hadmits

theorem isAtConditionalCompilation_of_moves (h : s.Moves P R b u) (hin : s.offset < R.stop) :
    isAtConditionalCompilation u = isAtConditionalCompilation s := by
  unfold isAtConditionalCompilation
  rw [h.isAt_eq hin, h.text_eq hin]

theorem carries_primaryExpr (hr : r.Carries P) (ρ : Restrictions) : Carries P b A (primaryExpr r ρ) := by
  have hassembled := assembled_primaryExpr hr.assembled ρ
  refine ⟨hassembled, fun {R s u} h =>
    .of_leafy hassembled (solid_primaryExpr hr.solid hr.expresses ρ).leafy h fun hin => .peek ?_⟩
  have htake : ∀ {k}, k.hasParts = false → k.isNode = true → CarriesAt P R (R.Allows A) s.offset s u
      (node k take) (node k take) := fun hk hnode => (Carries.node hk hnode .take).carries h
  rw [isAtConditionalCompilation_of_moves h hin, isAtOperatorValue_of_moves h hin, h.kind_eq hin]
  generalize hkind : s.kind = k
  split
  all_goals try exact htake rfl rfl
  · exact (Carries.ite (fun _ => .fail (assembled_conditionalCompilation [])) fun _ =>
      .node rfl rfl .take : Carries P b A _).carries h
  · exact (Carries.node rfl rfl (.append .take carries_memberName)).carries h
  · exact (Carries.node rfl rfl (.append_due (.append .take (carries_argumentList hr rfl _))
      (Solid.expect _ _).leafy (.expect _ _))).carries h
  · exact (carries_collectionExpr hr).carries h
  · exact (carries_closureExpr hr).carries h
  · exact hr.ifExpr.carries h
  · exact carriesAt_switchExpr hr h hkind
  · exact (Carries.ite (fun _ => hr.pattern) fun _ => .expected _ : Carries P b A _).carries h
  · exact (Carries.ite (fun _ => hr.pattern) fun _ => .expected _ : Carries P b A _).carries h
  · exact (Carries.ite (fun _ => .node rfl rfl (.append .take hr.type)) fun _ => .expected _ :
      Carries P b A _).carries h
  · exact (Carries.ite (fun _ => .node rfl rfl .take) fun _ => .ite (fun _ => .node rfl rfl .take) fun _ =>
      .expected _ : Carries P b A _).carries h

theorem isAtTrailingClosure_of_moves (ρ : Restrictions) (h : s.Moves P R true u) :
    isAtTrailingClosure ρ u = isAtTrailingClosure ρ s := by
  unfold isAtTrailingClosure
  rw [Bool.and_assoc, Bool.and_assoc, h.isAt_sameLine_eq (k := .leftBrace) (by decide)]

/-- Nothing that may stand behind a part goes on with an operand. -/
theorem exprSuffix_eq_none (ρ : Restrictions) (hkind : s.kind ∈ Seam.kinds) (e : Element) :
    exprSuffix? r ρ s e = none := by
  unfold exprSuffix?
  split
  all_goals first
    | rfl
    | next heq =>
      rw [heq] at hkind
      exact absurd hkind (by decide)

theorem exprSuffix_eq (ρ : Restrictions) {e e' : Element} (h : s.Moves P R true u)
    (hkind : e'.kind = e.kind) :
    exprSuffix? r ρ u e' = exprSuffix? r ρ s e := by
  rcases Nat.lt_or_eq_of_le h.le_stop with hin | hstop
  · unfold exprSuffix?
    rw [isAtTrailingClosure_of_moves ρ h, hkind, h.kind_eq hin]
    by_cases hcase : s.kind = .caseKw ∨ s.kind = .defaultKw
    · rcases hcase with heq | heq <;> rw [heq]
    · rw [h.isAfterNewline_eq hin (fun heq => hcase (.inl heq)) fun heq => hcase (.inr heq)]
  · obtain ⟨hs, hu⟩ := h.kind_mem_closers hstop
    rw [exprSuffix_eq_none ρ (Seam.mem_kinds hs), exprSuffix_eq_none ρ (Seam.mem_kinds hu)]

theorem carries_exprSuffix (hr : r.Carries P) (ρ : Restrictions) (s : Input) (e : Element) :
    ∀ p ∈ exprSuffix? r ρ s e, p.1.hasParts = false ∧ p.1.isNode = true ∧ Carries P true A p.2 := by
  intro p hp
  unfold exprSuffix? at hp
  split at hp
  · cases hp
    exact ⟨rfl, rfl, .append .take carries_memberName⟩
  · split at hp <;> cases hp
    refine ⟨rfl, rfl, .append (.append_due (.append .take (carries_argumentList hr rfl _))
      (Solid.expect _ _).leafy (.expect _ _)) ?_⟩
    exact (carries_closureExpr hr).onlyIf fun h _ => isAtTrailingClosure_of_moves ρ h
  · split at hp <;> cases hp
    exact ⟨rfl, rfl, .append_due (.append .take (carries_argumentList hr rfl _))
      (Solid.expect _ _).leafy (.expect _ _)⟩
  · split at hp <;> cases hp
    exact ⟨rfl, rfl, carries_closureExpr hr⟩
  · cases hp
    exact ⟨rfl, rfl, .take⟩
  · cases hp
    exact ⟨rfl, rfl, .take⟩
  · cases hp
    exact ⟨rfl, rfl, .take⟩
  · cases hp

theorem carries_optionalMark : Carries P true A optionalMark := .whenAtAny _ (.of_all (by decide)) .take

theorem carries_operand (hr : r.Carries P) (ρ : Restrictions) :
    Carries P b A (SwiftTidy.Grammar.operand r ρ) := by
  have hoperand : Carries P true A (r.operand ρ) := hr.operand ρ
  refine .peek_leafy (fun s => .ite (fun _ => ?_) fun _ => .ite (fun _ => ?_) fun _ => .ite (fun _ => ?_)
    fun _ => ?_) (solid_operand hr.solid hr.expresses ρ).leafy fun h hin => ?_
  · exact .node rfl rfl (.append .take hoperand)
  · exact .node rfl rfl (.append (.append .take carries_optionalMark) hoperand)
  · exact .node rfl rfl (.append .take hoperand)
  · exact .withSuffixes (carries_exprSuffix hr ρ) (fun h _ => exprSuffix_eq ρ h) (carries_primaryExpr hr ρ)
  · rw [h.isAt_eq hin, h.isAt_eq hin, h.isAt_eq hin, isAtOperatorValue_of_moves h hin]

/-! #### Sequences of operands and operators -/

theorem operatorPart_of_kinds (ρ : Restrictions) (hkind : s.kind ∈ Seam.kinds) :
    operatorPart? r ρ s = none := by
  unfold operatorPart?
  split
  all_goals first
    | rfl
    | next heq =>
      rw [heq] at hkind
      exact absurd hkind (by decide)

theorem operatorPart_of_moves (ρ : Restrictions) (h : s.Moves P R true u) :
    operatorPart? r ρ u = operatorPart? r ρ s := by
  rcases Nat.lt_or_eq_of_le h.le_stop with hin | hstop
  · unfold operatorPart?
    rw [h.kind_eq hin]
  · obtain ⟨hs, hu⟩ := h.kind_mem_closers hstop
    rw [operatorPart_of_kinds ρ (Seam.mem_kinds hs), operatorPart_of_kinds ρ (Seam.mem_kinds hu)]

theorem carries_operatorPart (hr : r.Carries P) (ρ : Restrictions) (s : Input) (g : Grammar)
    (hg : operatorPart? r ρ s = some g) : Carries P true A g := by
  have hoperand : Carries P true A (r.operand ρ) := hr.operand ρ
  unfold operatorPart? at hg
  split at hg
  · cases hg
    exact .append .take hoperand
  · split at hg <;> cases hg
    exact .append .take hoperand
  · cases hg
    refine .append (.node rfl rfl (.append (.append .take ?_) (.expect _ _))) hoperand
    exact hr.expression _
  · cases hg
    exact .node rfl rfl (.append .take hr.type)
  · cases hg
    exact .node rfl rfl (.append (.append .take carries_optionalMark) hr.type)
  · cases hg

theorem carries_expression (hr : r.Carries P) (ρ : Restrictions) :
    Carries P b A (SwiftTidy.Grammar.expression r ρ) :=
  .nodeUnlessSingle rfl rfl (.append (hr.operand ρ)
    (.repeated (carries_operatorPart hr ρ) fun h _ => operatorPart_of_moves ρ h))

/-! ### Declarations -/

theorem startsWithModifier_of_moves (h : s.Moves P R b u) :
    startsWithModifier u.pending = startsWithModifier s.pending := by
  rcases Nat.lt_or_eq_of_le h.le_stop with hin | hstop
  · obtain ⟨t, v, ts, us, hs, hu, hsees⟩ := h.exists_head hin
    have hone : headKind ts = s.kindAt 1 := by
      rw [← headKind_drop h.kind_endOfFile 1, hs]
      rfl
    have hone' : headKind us = u.kindAt 1 := by
      rw [← headKind_drop h.kind_endOfFile' 1, hu]
      rfl
    rw [hs, hu, startsWithModifier, startsWithModifier, hsees.kind, hsees.text, hone, hone']
    split
    · rfl
    · next hclass =>
      have hkind : s.kind = .classKw := by
        rw [Input.kind, Input.kindAt, Input.nth, hs, List.getD_cons_zero, hclass]
      have hplan := h.plan_eq_none hin (by rw [hkind]; decide) (by rw [hkind]; decide)
      refine h.test_one_eq (fun k => k == .funcKw || k == .varKw || k == .letKw) hin hplan fun _ => ?_
      cases R.seam <;> decide
    · rfl
  · have hnone : ∀ ts : List Token, headKind ts ∈ Seam.kinds → startsWithModifier ts = false := by
      intro ts hkind
      cases ts with
      | nil => rfl
      | cons t ts =>
        rw [startsWithModifier]
        split
        all_goals first
          | rfl
          | next heq =>
            rw [headKind, heq] at hkind
            exact absurd hkind (by decide)
    obtain ⟨hs, hu⟩ := h.pending_eq hstop
    rw [hs, hu, hnone _ (Seam.mem_kinds h.closer), hnone _ (Seam.mem_kinds h.closer')]

/-- No part ends with the parenthesis of a modifier, or goes on behind it. -/
theorem startsWithDetail_of_moves (h : s.Moves P R b u) :
    startsWithDetail u.pending = startsWithDetail s.pending := by
  have hhead : ∀ w : Input, w.endOfFile.kind = .endOfFile → startsWithDetail w.pending =
      (w.isAt .leftParen && w.kindAt 2 == .rightParen) := by
    intro w hw
    rw [startsWithDetail, headKind_drop hw 2, ← Input.kind_eq_headKind hw, Input.isAt]
  have hat : u.isAt .leftParen = s.isAt .leftParen :=
    h.test_eq (· == .leftParen) fun _ => by cases R.seam <;> decide
  rw [hhead u h.kind_endOfFile', hhead s h.kind_endOfFile, hat]
  cases hparen : s.isAt .leftParen with
  | false => rfl
  | true =>
    have hkind : s.kind = .leftParen := eq_of_beq hparen
    have hin := h.not_mem_kinds (by rw [hkind]; decide)
    have hplan := h.plan_eq_none hin (by rw [hkind]; decide) (by rw [hkind]; decide)
    have hbehind := h.behind hin hplan
    have hlast : s.behind.offset ≠ R.stop := by
      intro hstop
      have hadmits := h.admits hin hplan hstop
      rw [hkind] at hadmits
      cases hadmits
    rw [Input.kindAt_succ u, Input.kindAt_succ s,
      hbehind.kindAt_one_beq (Nat.lt_of_le_of_ne hbehind.le_stop hlast) (.inr rfl) fun _ _ => ?_]
    cases R.seam <;> decide

theorem carries_declModifiers (r : Level) : Carries P true A (declModifiers r) := by
  have hmodifier : Carries P true A declModifier :=
    .node rfl rfl (.append .take ((Carries.takeN 3).onlyIf fun h _ => startsWithDetail_of_moves h))
  refine .repeated (fun s g hg => ?_) fun {R s u} h _ => ?_
  · split_ifs at hg <;> cases hg
    · exact carries_attributeUse
    · exact hmodifier
  · have hat : u.isAt .atSign = s.isAt .atSign :=
      h.test_eq (· == .atSign) fun _ => by cases R.seam <;> decide
    rw [hat, startsWithModifier_of_moves h]

theorem carries_importDecl (r : Level) : Carries P b A (importDecl r) := by
  refine .append (.append (.append .take (.whenAtAny _ (.of_all (by decide)) .take)) (.expect _ _))
    (.repeated (fun s g hg => ?_) fun h _ => ?_)
  · split_ifs at hg
    cases hg
    refine .append .take
      (.peek_leafy (fun s => .ite (fun _ => .take) fun _ => .expected _) ?_ fun h hin => ?_)
    · exact Builds.peek fun _ => Builds.ite Solid.take.leafy (Builds.expected _)
    · rw [h.isAt_eq hin, h.kind_eq hin]
  · rw [h.isAt_sameLine_eq (k := .period) (by decide)]

theorem carries_patternBinding (hr : r.Carries P) : Carries P true .outer (patternBinding r) :=
  .append (.append (.append hr.bindingPattern (carries_optionalAscription hr (by decide)))
    (carries_initializer hr _)) (.whenAt _ (by decide) (carries_codeBlock hr))

theorem carries_variableDecl (hr : r.Carries P) : Carries P b .outer (variableDecl r) :=
  .append .take (.commaSeparated rfl rfl (by decide) (carries_patternBinding hr))

/-- A second name stands in front of the colon that is due. -/
theorem carries_parameterName : Carries P true A
    (onlyIf (fun s => s.kind.isName && s.kindAt 1 == .colon) take ++ expect .colon "`:`") := by
  have hassembled : Assembled [] (onlyIf (fun s => s.kind.isName && s.kindAt 1 == .colon) take ++
      expect .colon "`:`") := .append (.onlyIf _ .take) (.expect _ _)
  refine ⟨hassembled, fun {R s u} h => .of_leafy hassembled (.append_right (Solid.expect _ _).leafy) h
    fun hin => ?_⟩
  by_cases hlast : s.kind.isName = true ∧ R.stop ≤ s.behind.offset
  · intro es t hrun _ hallows
    obtain ⟨fs, gs, w, hname, hcolon, -⟩ := run_append hrun
    obtain ⟨a, rest, hpending, ha, -⟩ := run_expect hcolon
    cases htest : s.kind.isName && s.kindAt 1 == .colon with
    | true =>
      -- the name is taken, and the colon is behind the end of the region
      rw [run_onlyIf_of_test htest] at hname
      have hw := behind_of_take hname
      have hlt := (Assembled.expect .colon "`:`").lt_offset (Solid.expect _ _).leafy
        (Assembled.take.ready h.ready hname) hcolon
      rw [hw] at hlt
      exact absurd (Nat.lt_of_le_of_lt hlast.2 hlt) (Nat.not_lt.mpr hallows.1)
    | false =>
      -- the name is no colon
      rw [run_onlyIf_eq htest] at hname
      cases hname
      have hkind := hlast.1
      rw [Input.kind, Input.kindAt, Input.nth, hpending, List.getD_cons_zero, ha] at hkind
      cases hkind
  · have hname : CarriesAt P R (R.Allows .none) s.offset s u
        (onlyIf (fun s => s.kind.isName && s.kindAt 1 == .colon) take)
        (onlyIf (fun s => s.kind.isName && s.kindAt 1 == .colon) take) := by
      refine .peek (.test ?_ (fun _ => Carries.take.carries h) fun _ => .emit (.nil h))
      dsimp only
      rw [h.kind_eq hin]
      cases hname : s.kind.isName with
      | false => rfl
      | true => rw [h.kindAt_one_beq hin (.inl rfl) fun hstop => absurd ⟨hname, hstop⟩ hlast]
    exact hname.append_due (.onlyIf _ .take) h.ready (Solid.expect _ _).leafy (.expect _ _)

theorem carries_parameter (hr : r.Carries P) : Carries P true A (parameter r) := by
  have hattributes : Carries P true A
      (repeated (fun s => if s.isAt .atSign then some attributeUse else none) r.bound) := by
    refine .repeated (fun s g hg => ?_) fun {R s u} h _ => ?_
    · split_ifs at hg
      cases hg
      exact carries_attributeUse
    · rw [show u.isAt .atSign = s.isAt .atSign from
        h.test_eq (· == .atSign) fun _ => by cases R.seam <;> decide]
  have hname : Carries P true A
      (peek fun s => if s.kind.isName then take else expected "parameter name") := by
    refine .peek_leafy (fun s => .ite (fun _ => .take) fun _ => .expected _) ?_ fun h hin => ?_
    · exact Builds.peek fun _ => Builds.ite Solid.take.leafy (Builds.expected _)
    · rw [h.kind_eq hin]
  have hfront := (hattributes.append hname).append carries_parameterName
  rw [← append_assoc] at hfront
  exact ((hfront.append hr.type).append carries_ellipsis).append (carries_initializer hr _)

theorem carries_parameterClause (hr : r.Carries P) : Carries P b A (parameterClause r) :=
  .node rfl rfl (.append_due (.append (.expect _ _) (.commaSeparatedUntil rfl rfl (by decide) (by decide)
    (carries_parameter hr))) (Solid.expect _ _).leafy (.expect _ _))

theorem carries_functionSignature (hr : r.Carries P) : Carries P b A (functionSignature r) :=
  .node rfl rfl (.append (.append (.append (carries_parameterClause hr) (.eat _ (.of_all (by decide))))
    (.whenAtAny _ (.of_all (by decide)) .take)) (.whenAt _ (.of_all (by decide)) (carries_returnClause hr)))

theorem carries_genericParameterClause (hr : r.Carries P) : Carries P b A (genericParameterClause r) := by
  refine .node rfl rfl (.append_due (.append (.takeAs _ (by decide) (by decide))
    (.commaSeparated rfl rfl (by decide) ?_)) leafy_rightAngle carries_rightAngle)
  exact .append (.append (.expect _ _) (.whenAt _ (by decide) (.append .take hr.type)))
    .splitRightAngle

theorem carries_genericWhereClause (hr : r.Carries P) : Carries P b .outer (genericWhereClause r) := by
  refine .node rfl rfl (.append .take (.commaSeparated rfl rfl (by decide) (.append (.append
    hr.type ?_) hr.type)))
  refine .peek_leafy (fun s => .ite (fun _ => .take) fun _ => .expected _) ?_ fun h hin => ?_
  · exact Builds.peek fun _ => Builds.ite Solid.take.leafy (Builds.expected _)
  · rw [h.isAt_eq hin, h.isAtOperator_eq]

theorem carries_optionalGenericParameters (hr : r.Carries P) :
    Carries P true A (optionalGenericParameters r) :=
  (carries_genericParameterClause hr).onlyIf fun h _ => h.isAtOperator_eq _

theorem carries_functionRest (hr : r.Carries P) : Carries P true .outer (functionRest r) :=
  .append (.append (.append (carries_optionalGenericParameters hr) (carries_functionSignature hr))
    (.whenAt _ (by decide) (carries_genericWhereClause hr))) (.whenAt _ (by decide) (carries_codeBlock hr))

theorem carries_functionDecl (hr : r.Carries P) : Carries P b .outer (functionDecl r) := by
  refine .append (.append .take (.peek_leafy (fun s => .ite (fun _ => .take) fun _ => .expected _) ?_
    fun h hin => ?_)) (carries_functionRest hr)
  · exact Builds.peek fun _ => Builds.ite Solid.take.leafy (Builds.expected _)
  · rw [h.isAt_eq hin, h.isAt_eq hin, h.kind_eq hin]

theorem carries_initializerDecl (hr : r.Carries P) : Carries P b .outer (initializerDecl r) :=
  .append (.append .take carries_optionalMark) (carries_functionRest hr)

theorem carries_inheritanceClause (hr : r.Carries P) : Carries P b .none (inheritanceClause r) :=
  .node rfl rfl (.append .take (.commaSeparated rfl rfl (by decide) hr.type))

theorem carries_typeDecl (hr : r.Carries P) (isExtension : Bool) :
    Carries P b A (typeDecl r isExtension) := by
  refine .append_due (.append (.append (.append .take (.ite (fun _ => hr.type) fun _ =>
    .append (.expect _ _) (carries_optionalGenericParameters hr))) ?_) ?_)
    (solid_braced (by decide) hr.solid).leafy (carries_braced rfl rfl hr)
  · exact .whenAt _ (by decide) (carries_inheritanceClause hr)
  · exact .whenAt _ (by decide) ((carries_genericWhereClause hr).mono fun _ heq => by cases heq)

theorem carries_typeAliasDecl (hr : r.Carries P) : Carries P b A (typeAliasDecl r) :=
  .append (.append (.append (.append .take (.expect _ _)) (carries_optionalGenericParameters hr))
    (.expect _ _)) hr.type

theorem carries_enumCaseDecl (hr : r.Carries P) : Carries P b .outer (enumCaseDecl r) :=
  .append .take (.commaSeparated rfl rfl (by decide) (.append (.append (.expect _ _)
    (.whenAt _ (by decide) (carries_tupleType hr))) (carries_initializer hr _)))

/-- The modifiers wait for the keyword behind them, which is due. -/
theorem carries_declaration (hr : r.Carries P) : Carries P true .outer (declaration r) := by
  refine ⟨assembled_declaration hr.assembled, fun {R s u} h => CarriesAt.capture_due [] rfl
    (assembled_declModifiers r) h.ready ((carries_declModifiers r).carries h) (fun modifiers => ?_)
    (fun modifiers => ?_) fun modifiers t modifiers' v hin hbuilt => .peek ?_⟩
  · have hdecl : ∀ {k : SyntaxKind} {g : Grammar}, Assembled [] g → Leafy g →
        Takes (node k (emit modifiers ++ g)) := fun hg hleafy =>
      .node (.append_right (.emit modifiers) (.of_leafy hg hleafy))
    refine .peek fun s => ?_
    dsimp only
    split
    · exact hdecl (assembled_importDecl r) (solid_importDecl r).leafy
    · exact hdecl (assembled_variableDecl hr.assembled) (solid_variableDecl hr.solid).leafy
    · exact hdecl (assembled_variableDecl hr.assembled) (solid_variableDecl hr.solid).leafy
    · exact hdecl (assembled_functionDecl hr.assembled) (solid_functionDecl hr.solid).leafy
    · exact hdecl (assembled_initializerDecl hr.assembled) (solid_initializerDecl hr.solid).leafy
    · exact hdecl (assembled_typeDecl hr.assembled _) (solid_typeDecl hr.solid _).leafy
    · exact hdecl (assembled_typeDecl hr.assembled _) (solid_typeDecl hr.solid _).leafy
    · exact hdecl (assembled_typeDecl hr.assembled _) (solid_typeDecl hr.solid _).leafy
    · exact hdecl (assembled_typeDecl hr.assembled _) (solid_typeDecl hr.solid _).leafy
    · exact hdecl (assembled_typeDecl hr.assembled _) (solid_typeDecl hr.solid _).leafy
    · exact hdecl (assembled_typeAliasDecl hr.assembled) (solid_typeAliasDecl hr.solid).leafy
    · exact hdecl (assembled_enumCaseDecl hr.assembled) (solid_enumCaseDecl hr.solid).leafy
    · exact .fail _
  · refine .peek fun s => ?_
    dsimp only
    split
    all_goals first
      | exact .node rfl (.append (.emit modifiers))
      | exact .fail _
  · have hdecl : ∀ {k : SyntaxKind} {g : Grammar}, k.hasParts = false → Carries P true .outer g →
        CarriesAt P R (R.Allows .outer) s.offset t v (node k (emit modifiers ++ g))
          (node k (emit modifiers' ++ g)) := fun hk hg =>
      .node hk (CarriesAt.built_append hbuilt (hg.carries hbuilt.inputs))
    -- both orders show the same keyword, so the same declaration is read in both
    rw [hbuilt.inputs.kind_eq hin]
    dsimp only
    split
    · exact hdecl rfl (carries_importDecl r)
    · exact hdecl rfl (carries_variableDecl hr)
    · exact hdecl rfl (carries_variableDecl hr)
    · exact hdecl rfl (carries_functionDecl hr)
    · exact hdecl rfl (carries_initializerDecl hr)
    · exact hdecl rfl (carries_typeDecl hr _)
    · exact hdecl rfl (carries_typeDecl hr _)
    · exact hdecl rfl (carries_typeDecl hr _)
    · exact hdecl rfl (carries_typeDecl hr _)
    · exact hdecl rfl (carries_typeDecl hr _)
    · exact hdecl rfl (carries_typeAliasDecl hr)
    · exact hdecl rfl (carries_enumCaseDecl hr)
    · exact .of_rejects (rejects_fail _)

/-! ### Statements -/

/-- Where a case ends, so does a statement. -/
theorem isAtStatementEnd_of_moves (h : s.Moves P R true u) (hallows : R.Allows .outer s) :
    isAtStatementEnd u = isAtStatementEnd s := by
  have hends := test_of_allows h (A := .outer)
    (f := ([.rightBrace, .semicolon, .endOfFile, .caseKw, .defaultKw].contains ·)) (by decide) hallows
  unfold isAtStatementEnd Input.isAtAny
  rw [hends]
  rcases Nat.lt_or_eq_of_le h.le_stop with hin | hstop
  · by_cases hcase : s.kind = .caseKw ∨ s.kind = .defaultKw
    · rcases hcase with heq | heq <;> rw [heq] <;> simp
    · rw [h.isAfterNewline_eq hin (fun heq => hcase (.inl heq)) fun heq => hcase (.inr heq)]
  · -- behind a case stands what ends a statement, on whatever line
    have hend : ∀ k ∈ R.seam.closers,
        [SyntaxKind.rightBrace, .semicolon, .endOfFile, .caseKw, .defaultKw].contains k = true := by
      have houter := hallows.2 hstop
      generalize R.seam = seam at houter
      revert houter
      cases seam <;> decide
    rw [hend s.kind (h.kind_mem_closers hstop).1, Bool.or_true, Bool.or_true]

theorem carries_jump (hk : k.hasParts = false) (hnode : k.isNode = true) : Carries P b A (jump k) :=
  .node hk hnode (.append .take (carries_onlyIf_sameLine (by decide) .take))

theorem carries_guardStmt (hr : r.Carries P) : Carries P b A (guardStmt r) :=
  .node rfl rfl (.append (.append_due (.append .take (carries_conditionList hr)) (Solid.expect _ _).leafy
    (.expect _ _)) (carries_codeBlock hr))

theorem carries_whileStmt (hr : r.Carries P) : Carries P b A (whileStmt r) :=
  .node rfl rfl (.append_due (.append .take (carries_conditionList hr)) (solid_codeBlock hr.solid).leafy
    (carries_codeBlock hr))

theorem carries_repeatStmt (hr : r.Carries P) : Carries P b A (repeatStmt r) :=
  .node rfl rfl (.append (.append (.append .take (carries_codeBlock hr)) (.expect _ _))
    (hr.expression _))

theorem carries_forPattern (hr : r.Carries P) : Carries P true A (forPattern r) := by
  have hbinding : Carries P true A (node .valueBindingPattern (take ++ r.bindingPattern)) :=
    .node rfl rfl (.append .take hr.bindingPattern)
  refine .peek_leafy (fun s => ?_) (Builds.peek fun s => ?_) fun h hin => ?_
  · split
    · exact .append .take hr.pattern
    · exact hbinding
    · exact hbinding
    · exact hr.bindingPattern
  · have hleafy : Leafy (node .valueBindingPattern (take ++ r.bindingPattern)) :=
      (Solid.node (by decide) (.append .take (Solid.each (hr.solid .bindingPattern)))).leafy
    split
    · exact Leafy.append_left Solid.take.leafy
    · exact hleafy
    · exact hleafy
    · exact Solid.leafy (hr.solid .bindingPattern)
  · rw [h.kind_eq hin]

theorem carries_forInStmt (hr : r.Carries P) : Carries P b A (forInStmt r) := by
  have hfront : Carries P b .none (take ++ eat .tryKw ++ eat .awaitKw ++ forPattern r) :=
    .append (.append (.append .take (.eat _ (by decide))) (.eat _ (by decide))) (carries_forPattern hr)
  have hhead : Carries P b .none (take ++ eat .tryKw ++ eat .awaitKw ++ forPattern r ++
      whenAt .colon (typeAscription r) ++ expect .inKw "`in`" ++ r.expression .condition ++
      whenAt .whereKw (whereClause r)) := by
    refine .append (.append (.append (.append hfront ?_) (.expect _ _)) (hr.expression _)) ?_
    · exact carries_optionalAscription hr (by decide)
    · exact .whenAt _ (by decide) (carries_whereClause hr)
  exact .node rfl rfl (.append_due hhead (solid_codeBlock hr.solid).leafy (carries_codeBlock hr))

theorem carries_catchClause (hr : r.Carries P) : Carries P b A (catchClause r) := by
  refine .node rfl rfl (.append_due (.append (.append .take ?_)
    (.whenAt _ (by decide) (carries_whereClause hr))) (solid_codeBlock hr.solid).leafy (carries_codeBlock hr))
  refine hr.pattern.onlyIf fun h hallows => ?_
  rw [Input.isAtAny, Input.isAtAny, h.kind_eq hallows.lt_stop]

theorem carries_doStmt (hr : r.Carries P) : Carries P b A (doStmt r) := by
  refine .node rfl rfl (.append (.append .take (carries_codeBlock hr)) (.repeated (fun s g hg => ?_)
    fun {R s u} h _ => ?_))
  · split_ifs at hg
    cases hg
    exact carries_catchClause hr
  · rw [show u.isAt .catchKw = s.isAt .catchKw from
      h.test_eq (· == .catchKw) fun _ => by cases R.seam <;> decide]

theorem carries_statement (hr : r.Carries P) : Carries P true .outer (statement r) := by
  have hvalue : ∀ {b}, Carries P b .outer (r.expression .free) := hr.expression _
  have hjump : ∀ {k : SyntaxKind}, k.hasParts = false → k.isNode = true → Carries P true .outer (jump k) :=
    carries_jump
  refine .peek_leafy (fun s => .ite (fun _ => carries_declaration hr) fun _ => ?_)
    (solid_statement hr.solid).leafy fun h hin => ?_
  · split
    · exact carries_guardStmt hr
    · exact carries_whileStmt hr
    · exact carries_repeatStmt hr
    · exact carries_forInStmt hr
    · exact carries_doStmt hr
    · exact .node rfl rfl (.append .take (carries_codeBlock hr))
    · refine .node rfl rfl (.append .take (hvalue.onlyIf fun h hallows => ?_))
      rw [isAtStatementEnd_of_moves h hallows]
    · exact .node rfl rfl (.append .take hvalue)
    · exact hjump rfl rfl
    · exact hjump rfl rfl
    · exact .node rfl rfl .take
    · exact .ite (fun _ => .fail (assembled_conditionalCompilation [])) fun _ => hvalue
  · rw [h.isAtDecl_eq hin, isAtConditionalCompilation_of_moves h hin, h.kind_eq hin]

theorem carries_codeBlockItem (hr : r.Carries P) : Carries P true .outer (codeBlockItem r) :=
  .node rfl rfl (.append (carries_statement hr) (.eat _ (by decide)))

/-! ### Levels -/

/-- No type starts with `case`. -/
theorem rejects_type_case (hkind : s.kind = .caseKw) : (type r).Rejects s := by
  refine rejects_peek ?_
  rw [isAtOpaqueType, Input.isAt, Input.isAt, Input.isAt, hkind]
  refine Rejects.capture (rejects_peek ?_)
  rw [hkind]
  exact rejects_expected _

theorem carries_unfold (hr : r.Carries P) (p : Nonterminal) (hp : p ≠ .codeBlockItem) :
    Carries P b A (unfold r p) := by
  cases p with
  | type => exact carries_type hr
  | expression ρ => exact carries_expression hr ρ
  | operand ρ => exact carries_operand hr ρ
  | ifExpr => exact carries_ifExpr hr
  | pattern => exact carries_pattern hr
  | bindingPattern => exact carries_bindingPattern hr
  | codeBlockItem => exact absurd rfl hp

theorem carries_level (depth : Nat) : (level depth).Carries P := by
  induction depth with
  | zero =>
    exact ⟨solid_level 0, expresses_level 0, phrases_level 0, assembled_level 0,
      fun p _ => .fail (.tooDeep []), .fail (.tooDeep []), fun s _ => rejects_fail _⟩
  | succ depth ih =>
    exact ⟨solid_level _, expresses_level _, phrases_level _, assembled_level _,
      fun p hp => carries_unfold ih p hp, carries_codeBlockItem ih, fun s hkind => rejects_type_case hkind⟩

/-! ### Files -/

/-- The statements of a file end where the file does. -/
theorem carries_fileItems (hr : r.Carries P) : Carries P true (· == .file) (fileItems r) := by
  refine .repeated (fun s g hg => ?_) fun {R s u} h hallows => ?_
  · split_ifs at hg <;> cases hg
    · exact .fail (.fail [] _ fun _ => .inl rfl)
    · exact hr.codeBlockItem.mono fun seam hseam => by revert hseam; cases seam <;> decide
  · have hend : u.isAt .endOfFile = s.isAt .endOfFile :=
      test_of_allows h (A := (· == .file)) (f := (· == .endOfFile)) (by decide) hallows
    have hbrace : u.isAt .rightBrace = s.isAt .rightBrace :=
      test_of_allows h (A := (· == .file)) (f := (· == .rightBrace)) (by decide) hallows
    rw [hend, hbrace]

/-- What is read of a file is read with parts in another order, in that order. -/
theorem exists_run_fileItems {ts us : Lexer.Tokens} {items : List Element} (hr : r.Carries P)
    (hts : (Input.mk 0 ts.pending ts.endOfFile).Ready) (hwords : ∀ t ∈ ts.pending, t.kind.IsWord)
    (hend : us.endOfFile.kind = .endOfFile)
    (hmoves : Token.Moves P ⟨.file, Token.fullLenAll ts.pending, [], []⟩ true 0 ts.pending us.pending)
    (hrun : (fileItems r).run ⟨0, ts.pending, ts.endOfFile⟩ = .ok (items, s))
    (hconforms : ConformsAll P 0 items) :
    ∃ items' u, (fileItems r).run ⟨0, us.pending, us.endOfFile⟩ = .ok (items', u) ∧
      strippedAll items' = strippedAll (movedAll P 0 items) := by
  have hassembled := assembled_fileItems hr.assembled
  have hnil : s.pending = [] := run_fileItems hr.assembled hwords hrun
  have hoffset : s.offset = Token.fullLenAll ts.pending := by
    have hrefines := hassembled.refines hrun
    rw [hnil, List.append_nil, leavesAll_nil, List.nil_append] at hrefines
    rw [hassembled.offset_of_run hrun, fullLenAll_eq, hrefines.fullLenAll_eq, Nat.zero_add]
  have hstart : (Input.mk 0 ts.pending ts.endOfFile).Moves P ⟨.file, Token.fullLenAll ts.pending, [], []⟩
      true ⟨0, us.pending, us.endOfFile⟩ :=
    ⟨hmoves, List.mem_singleton_self _, List.mem_singleton_self _, hts, hend⟩
  obtain ⟨items', u, hrun', hbuilt⟩ := (carries_fileItems hr).carries hstart items s hrun hconforms
    ⟨Nat.le_of_eq hoffset, fun _ => beq_self_eq_true _⟩
  exact ⟨items', u, hrun', hbuilt.elements⟩

end Grammar

/-- **Parts in another order**: a tree as long as that of a file, with parts in another order, is the tree
of its own text, if the tokens of this are its leaves and are those of the file with the parts in that
order. -/
theorem parse_of_moves {source : String} {tree tree' : Element} {ts us : Lexer.Tokens} {P : Plan}
    (h : parse source = .ok tree) (hts : Lexer.tokens source = .ok ts)
    (hlength : tree'.fullLen = tree.fullLen) (hstripped : tree'.stripped = (tree.moved P 0).stripped)
    (hconforms : ∀ items t, tree = .node .sourceFile (items ++ [.token t]) → ConformsAll P 0 items)
    (hus : Lexer.tokens tree'.fullText = .ok us)
    (hrefines : Token.Refines (us.pending ++ [us.endOfFile]) tree'.leaves)
    (hmoves : Token.Moves P ⟨.file, Token.fullLenAll ts.pending, [], []⟩ true 0 ts.pending us.pending) :
    parse tree'.fullText = .ok tree' := by
  have hsize : tree'.fullText.utf8ByteSize = source.utf8ByteSize := by
    rw [utf8ByteSize_fullText, hlength, fullLen_parse h]
  obtain ⟨ts', items, s, hts', hrun, rfl⟩ := parse_eq_ok h
  obtain rfl : ts = ts' := Except.ok.inj (hts.symm.trans hts')
  obtain ⟨items', u, hrun', hitems⟩ := Grammar.exists_run_fileItems (Grammar.carries_level _)
    (ready_of_tokens hts) (Lexer.tokens_isWord hts).1 (Lexer.tokens_isWord hus).2 hmoves hrun
    (hconforms items s.endOfFile rfl)
  have hlevel := Grammar.assembled_fileItems (Grammar.assembled_level (depthFor source.utf8ByteSize))
  -- the ends of both files are alike
  have hends : ∀ {text : String} {vs : Lexer.Tokens}, Lexer.tokens text = .ok vs →
      vs.endOfFile.kind = .endOfFile ∧ vs.endOfFile.text = "" := fun hvs => by
    obtain ⟨_, _, -, -, -, hcuts⟩ := Lexer.exists_cuts_of_tokens hvs
    exact ⟨(Lexer.tokens_isWord hvs).2, hcuts.text_eq_iff.2⟩
  have hread : parse tree'.fullText = .ok (.node .sourceFile (items' ++ [.token u.endOfFile])) := by
    unfold parse
    rw [if_neg (Nat.not_lt.mpr (hsize ▸ utf8ByteSize_le_of_parse h)), hus, hsize]
    dsimp only [bind, Except.bind]
    rw [show (Grammar.sourceFile (Grammar.level (depthFor source.utf8ByteSize))).run
      ⟨0, us.pending, us.endOfFile⟩ = .ok ([.node .sourceFile (items' ++ [.token u.endOfFile])], u) from
        Grammar.run_capture_eq (Grammar.run_append_eq hrun' rfl) rfl]
    rfl
  have hshape : (node .sourceFile (items' ++ [.token u.endOfFile])).stripped = tree'.stripped := by
    rw [hstripped, (hlevel.kept hrun).endOfFile, (hlevel.kept hrun').endOfFile]
    rw [moved_node, movedIn_eq rfl, movedAll_append, movedAll_cons, moved_token, movedAll_nil,
      stripped_node, stripped_node, strippedAll_append, strippedAll_append, hitems]
    simp [hends hts, hends hus]
  have hleaves := hrefines.eq_of_stripped (leaves_refine hread hus)
    (by rw [← leaves_stripped, hshape, leaves_stripped])
  rw [hread, eq_of_stripped hshape hleaves]

end SwiftTidy
