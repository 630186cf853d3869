import SwiftTidy.Proofs.Parse.Following
import SwiftTidy.Proofs.Parse.Shape

/-!
# Every production reads on without the semicolons

One statement for each production, in the order in which they are defined, over two levels of which
it is assumed; the levels are then stacked up by induction on the depth.
-/

namespace SwiftTidy

open Element

open Grammar in
/-- The nonterminals of a level are read, without the marked semicolons, as those of another one. -/
structure Level.Follows (M : Marks) (r r' : Level) : Prop where
  assembled : r.Assembled
  reads : ∀ {b : Bool} p s u, s.Enters M b u → (p = .ifExpr → s.kind = .ifKw) →
    Grammar.Follows M Anywhere s.offset s u (r.read p) (r'.read p)
  /-- Nothing but the rest of a conditional starts with a semicolon. -/
  rejects : ∀ p s, p ≠ .ifExpr → s.kind = .semicolon → (r.read p).Rejects s
  /-- A type in front of a semicolon ends there when it starts one token before. -/
  ends : ∀ s es t, s.behind.kind = .semicolon → r.type.run s = .ok (es, t) → t = s.behind

namespace Level.Follows

open Grammar

variable {M : Marks} {b : Bool} {E : SyntaxKind → Prop} {r r' : Level} {s u : Input}

theorem type (hr : r.Follows M r') (h : s.Enters M b u) :
    Grammar.Follows M E s.offset s u r.type r'.type :=
  (hr.reads .type s u h nofun).of_anywhere

theorem expression (hr : r.Follows M r') (ρ : Restrictions) (h : s.Enters M b u) :
    Grammar.Follows M E s.offset s u (r.expression ρ) (r'.expression ρ) :=
  (hr.reads (.expression ρ) s u h nofun).of_anywhere

theorem operand (hr : r.Follows M r') (ρ : Restrictions) (h : s.Enters M b u) :
    Grammar.Follows M E s.offset s u (r.operand ρ) (r'.operand ρ) :=
  (hr.reads (.operand ρ) s u h nofun).of_anywhere

theorem ifExpr (hr : r.Follows M r') (h : s.Enters M b u) (hkind : s.kind = .ifKw) :
    Grammar.Follows M E s.offset s u r.ifExpr r'.ifExpr :=
  (hr.reads .ifExpr s u h fun _ => hkind).of_anywhere

theorem pattern (hr : r.Follows M r') (h : s.Enters M b u) :
    Grammar.Follows M E s.offset s u r.pattern r'.pattern :=
  (hr.reads .pattern s u h nofun).of_anywhere

theorem bindingPattern (hr : r.Follows M r') (h : s.Enters M b u) :
    Grammar.Follows M E s.offset s u r.bindingPattern r'.bindingPattern :=
  (hr.reads .bindingPattern s u h nofun).of_anywhere

theorem codeBlockItem (hr : r.Follows M r') (h : s.Enters M b u) :
    Grammar.Follows M E s.offset s u r.codeBlockItem r'.codeBlockItem :=
  (hr.reads .codeBlockItem s u h nofun).of_anywhere

theorem type_rejects (hr : r.Follows M r') (hkind : s.kind = .semicolon) : r.type.Rejects s :=
  hr.rejects .type s nofun hkind

theorem expression_rejects (hr : r.Follows M r') (ρ : Restrictions) (hkind : s.kind = .semicolon) :
    (r.expression ρ).Rejects s :=
  hr.rejects (.expression ρ) s nofun hkind

end Level.Follows

namespace Grammar

variable {M : Marks} {b : Bool} {E : SyntaxKind → Prop} {r r' : Level} {s t u v : Input}
  {k next : SyntaxKind}

/-! ### Tests on more than one token -/

/-- A token that needs another one behind it does not stand in front of a semicolon. -/
theorem mark_behind (h : s.Enters M b u) (hmark : M s.offset = none) (hkind : s.kind = k)
    (hk : k = .atSign ∨ k = .leftParen ∨ k = .period ∨ k = .classKw) : M s.behind.offset = none := by
  cases hnext : M s.behind.offset with
  | none => rfl
  | some next =>
    have hend : s.kind ≠ .endOfFile := by
      rcases hk with rfl | rfl | rfl | rfl <;> rw [hkind] <;> decide
    have hends := h.endsBefore hmark hend hnext
    have hkind' : (s.nth 0).kind = k := hkind
    rcases hk with rfl | rfl | rfl | rfl <;> simp [Token.endsBefore, hkind'] at hends

theorem isAtOpaqueType_eq (h : s.Enters M b u) (hmark : M s.offset = none) :
    isAtOpaqueType u = isAtOpaqueType s := by
  unfold isAtOpaqueType
  rw [Input.isAt, Input.isAt, h.kind_eq hmark, h.text_eq hmark, Input.kindAt_succ u, Input.kindAt_succ s]
  cases hnext : M s.behind.offset with
  | none => rw [show u.behind.kindAt 0 = s.behind.kindAt 0 from (h.behind hmark).kind_eq hnext]
  | some next =>
    have hleft : s.behind.kindAt 0 = .semicolon := (h.behind hmark).kind_of_mark hnext
    have hright : u.behind.kindAt 0 = next := (h.behind hmark).kind_of_mark' hnext
    rw [hleft, hright]
    by_cases hword : s.kind = .identifier
    · have hends := h.endsBefore hmark (by rw [hword]; decide) hnext
      have hkind : (s.nth 0).kind = .identifier := hword
      rw [Token.endsBefore, hkind] at hends
      simp only [Bool.and_eq_true, Bool.not_eq_true', Bool.and_eq_false_iff] at hends
      rw [hword, Bool.and_assoc, Bool.and_assoc]
      rcases hends.1 with hnot | hnot
      · rw [show (s.text == "some" || s.text == "any") = false from hnot]
        rfl
      · rw [hnot]
        simp
    · rw [beq_eq_false_iff_ne.mpr hword, Bool.false_and, Bool.false_and, Bool.false_and]

/-! ### Attributes -/

theorem followsLoosely_onlyIf {g g' : Grammar} {test test' : Input → Bool} (h : s.Omits M u)
    (htest : test' u = test s)
    (hg : test s = true → FollowsLoosely M E s.offset s u g g') :
    FollowsLoosely M E s.offset s u (onlyIf test g) (onlyIf test' g') := by
  unfold onlyIf peek
  intro es t hrun hfits hends
  dsimp only at hrun
  unfold Yields
  dsimp only
  rw [htest]
  by_cases hcase : test s = true
  · rw [if_pos hcase] at hrun ⊢
    exact hg hcase es t hrun hfits hends
  · rw [if_neg hcase] at hrun ⊢
    exact (follows_nothing h).loosely es t hrun hfits hends

theorem follows_attributeUse (h : s.Enters M b u) :
    Follows M E s.offset s u attributeUse attributeUse := by
  refine FollowsLoosely.node (FollowsLoosely.append_behind (Follows.append ?_ fun t v htv => ?_)
    fun t v htv => ?_)
  · exact follows_expect .atSign _ (by decide) h
  · by_cases hkind : t.kind = .semicolon
    · refine Rejects.follows (rejects_peek ?_)
      rw [Input.isAt, hkind]
      exact rejects_expected _
    · have hmark := mark_of_kind htv hkind
      refine follows_peek (Follows.test ?_ (fun _ => follows_take htv hmark) fun _ => ?_)
      · rw [Input.isAt, Input.isAt, htv.kind_eq hmark]
      · exact (rejects_expected _).follows
  · exact followsLoosely_onlyIf htv (htv.isAt_sameLine_eq (by decide) (by decide)) fun _ =>
      follows_balancedParens htv

/-! ### Types -/

theorem follows_typeAscription (hr : r.Follows M r') (h : s.Enters M b u) :
    Follows M E s.offset s u (typeAscription r) (typeAscription r') :=
  ((follows_expect .colon _ (by decide) h).append fun _ _ => hr.type).node

theorem follows_initializerClause (hr : r.Follows M r') (ρ : Restrictions) (h : s.Enters M b u) :
    Follows M E s.offset s u (initializerClause r ρ) (initializerClause r' ρ) :=
  ((follows_expect .equal _ (by decide) h).append fun _ _ => hr.expression ρ).node

theorem follows_returnClause (hr : r.Follows M r') (h : s.Enters M b u) :
    Follows M E s.offset s u (returnClause r) (returnClause r') :=
  ((follows_expect .arrow _ (by decide) h).append fun _ _ => hr.type).node

theorem follows_genericArgumentClause (hr : r.Follows M r') (h : s.Enters M b u)
    (hmark : M s.offset = none) :
    Follows M E s.offset s u (genericArgumentClause r) (genericArgumentClause r') := by
  have hitem : ∀ t v, t.Omits M v →
      Follows M Nowhere t.offset t v (r.type ++ splitRightAngle) (r'.type ++ splitRightAngle) :=
    fun t v htv => (hr.type htv).append fun _ _ => follows_splitRightAngle
  refine Follows.node (Follows.append_due ?_ (fun _ => rejects_rightAngle) fun _ _ => follows_rightAngle)
  refine (follows_takeAs _ h hmark).append fun t v htv => ?_
  exact follows_commaSeparated rfl (.append (hr.assembled .type) .splitRightAngle) htv hitem

/-- The arguments of a generic type open at `<`, on whatever line that stands. -/
theorem follows_optionalArguments (hr : r.Follows M r') (h : s.Omits M u) :
    Follows M E s.offset s u (onlyIf (·.isAtOperator "<") (genericArgumentClause r))
      (onlyIf (·.isAtOperator "<") (genericArgumentClause r')) := by
  refine follows_onlyIf h h.isAtOperator_eq fun hat => follows_genericArgumentClause hr h ?_
  refine mark_of_kind h fun hkind => ?_
  rw [Input.isAtOperator, hkind] at hat
  cases hat

theorem ne_semicolon_of_isName (hk : k.isName = true) : k ≠ .semicolon := by
  rintro rfl
  cases hk

/-- The labels of an element of a tuple type: none, one or two of them in front of a colon. -/
def tupleTypeLabels : Grammar :=
  peek fun s =>
    if s.kind.isName && s.kindAt 1 == .colon then takeN 2
    else if s.kind.isName && (s.kindAt 1).isName && s.kindAt 2 == .colon then takeN 3
    else nothing

theorem tupleTypeElement_eq : tupleTypeElement r =
    tupleTypeLabels ++ r.type ++ onlyIf (·.isAtOperator "...") take ++
      whenAt .equal (initializerClause r .free) :=
  rfl

theorem follows_tupleTypeLabels (h : s.Omits M u) (hmark : M s.offset = none)
    (hnext : M s.behind.offset = none) :
    Follows M E s.offset s u tupleTypeLabels tupleTypeLabels := by
  have hbehind := h.behind hmark
  have hone : u.kindAt 1 = s.kindAt 1 := by
    rw [Input.kindAt_succ, Input.kindAt_succ]
    exact hbehind.kind_eq hnext
  have htwo : (u.kindAt 2 == .colon) = (s.kindAt 2 == .colon) := by
    rw [Input.kindAt_succ, Input.kindAt_succ s]
    exact hbehind.kindAt_one_beq (k := .colon) hnext rfl (by decide)
  refine follows_peek (Follows.test ?_ (fun htest => follows_takeN h fun i hi => ?_) fun _ =>
    Follows.test ?_ (fun htest => follows_takeN h fun i hi => ?_) fun _ => follows_nothing h)
  · rw [h.kind_eq hmark, hone]
  · rw [Bool.and_eq_true] at htest
    match i with
    | 0 => exact ne_semicolon_of_isName htest.1
    | 1 => rw [eq_of_beq htest.2]; decide
  · rw [h.kind_eq hmark, hone, htwo]
  · rw [Bool.and_eq_true, Bool.and_eq_true] at htest
    match i with
    | 0 => exact ne_semicolon_of_isName htest.1.1
    | 1 => exact ne_semicolon_of_isName htest.1.2
    | 2 => rw [eq_of_beq htest.2]; decide

/-- A semicolon, here or behind the next token, is no label. -/
theorem run_tupleTypeLabels (hs : s.kind = .semicolon ∨ s.behind.kind = .semicolon) :
    tupleTypeLabels.run s = .ok ([], s) := by
  unfold tupleTypeLabels peek
  dsimp only
  rw [show s.kindAt 1 = s.behind.kind from s.kindAt_succ 0]
  have hname : SyntaxKind.semicolon.isName = false := rfl
  have hcolon : (SyntaxKind.semicolon == .colon) = false := rfl
  rcases hs with hkind | hkind
  · simp only [hkind, hname, Bool.false_and]
    rfl
  · simp only [hkind, hname, hcolon, Bool.and_false, Bool.false_and]
    rfl

theorem rejects_tupleTypeElement (hr : r.Follows M r') (hkind : s.kind = .semicolon) :
    (tupleTypeElement r).Rejects s := by
  rw [tupleTypeElement_eq]
  refine Rejects.append (Rejects.append ?_)
  exact .behind (run_tupleTypeLabels (.inl hkind)) (hr.type_rejects hkind)

/-- In front of a semicolon an element of a tuple type is a single name, and then something is due. -/
theorem follows_tupleTypeElement (hr : r.Follows M r') (h : s.Omits M u) :
    Follows M Nowhere s.offset s u (tupleTypeElement r) (tupleTypeElement r') := by
  by_cases hkind : s.kind = .semicolon
  · exact (rejects_tupleTypeElement hr hkind).follows
  rw [tupleTypeElement_eq, tupleTypeElement_eq]
  have hmark := mark_of_kind h hkind
  have hrest : ∀ {t v : Input}, t.Omits M v → Follows M Nowhere t.offset t v
      (onlyIf (·.isAtOperator "...") take) (onlyIf (·.isAtOperator "...") take) := fun htv => by
    refine follows_onlyIf_due htv (fun hmark => ?_) (fun hkind => ?_) fun hmark _ =>
      follows_take htv hmark
    · rw [Input.isAtOperator, Input.isAtOperator, htv.kind_eq hmark, htv.text_eq hmark]
    · rw [Input.isAtOperator, hkind]
      rfl
  cases hnext : M s.behind.offset with
  | none =>
    refine Follows.append_optional ?_ (fun t hkind => ?_) fun t v htv => ?_
    · exact ((follows_tupleTypeLabels h hmark hnext).append fun _ _ => hr.type).append
        fun _ _ => hrest
    · rw [Input.isAt, hkind]
      rfl
    · exact follows_whenAt .equal rfl (by decide) htv fun _ _ => follows_initializerClause hr _ htv
  | some next =>
    intro es t hrun _ hends
    have hsemicolon := (h.behind hmark).kind_of_mark hnext
    obtain ⟨_, _, w, hw, hbehind, -⟩ := run_append hrun
    obtain ⟨_, _, w', hw', hellipsis, -⟩ := run_append hw
    obtain ⟨_, _, w'', hlabels, htype, -⟩ := run_append hw'
    rw [run_tupleTypeLabels (.inr hsemicolon)] at hlabels
    cases hlabels
    -- the type ends in front of the semicolon, and nothing of the element follows
    obtain rfl := hr.ends s _ _ hsemicolon htype
    rw [run_onlyIf_eq (by rw [Input.isAtOperator, hsemicolon]; rfl)] at hellipsis
    cases hellipsis
    unfold whenAt at hbehind
    rw [run_onlyIf_eq (by rw [Input.isAt, hsemicolon]; rfl)] at hbehind
    cases hbehind
    exact absurd (hends hsemicolon next hnext) id

theorem follows_tupleType (hr : r.Follows M r') (h : s.Enters M b u) :
    Follows M E s.offset s u (tupleType r) (tupleType r') := by
  refine Follows.node
    (Follows.append_due ((follows_expect .leftParen _ (by decide) h).append fun t v htv => ?_)
    (fun t hkind => ?_) fun _ _ => follows_expect .rightParen _ (by decide))
  · exact follows_commaSeparatedUntil rfl (by decide) rfl (assembled_tupleTypeElement hr.assembled)
      htv
      fun _ _ => follows_tupleTypeElement hr
  · exact rejects_expect _ (by rw [Input.isAt, hkind]; rfl)

theorem follows_functionTypeRest (hr : r.Follows M r') (h : s.Omits M u) :
    Follows M E s.offset s u (functionTypeRest r) (functionTypeRest r') := by
  refine Follows.append (Follows.append (follows_eat .asyncKw rfl (by decide) h) fun t v htv => ?_)
    fun _ _ => follows_returnClause hr
  exact follows_whenAtAny _ (by decide) htv fun hmark => follows_take htv hmark

theorem follows_primaryType (hr : r.Follows M r') (h : s.Enters M b u) :
    Follows M E s.offset s u (primaryType r) (primaryType r') := by
  refine follows_peek ?_
  cases hmark : M s.offset with
  | some next =>
    rw [h.kind_of_mark hmark]
    exact (rejects_expected _).follows
  | none =>
    have hname : ∀ E, Follows M E s.offset s u
        (node .identifierType (take ++ onlyIf (·.isAtOperator "<") (genericArgumentClause r)))
        (node .identifierType (take ++ onlyIf (·.isAtOperator "<") (genericArgumentClause r'))) :=
      fun E => ((follows_take h hmark).append fun _ _ => follows_optionalArguments hr).node
    rw [h.kind_eq hmark]
    generalize s.kind = k
    split
    · exact hname E
    · exact hname E
    · -- a colon behind the first type makes it a dictionary
      refine ((follows_take h hmark).append fun _ _ => hr.type).capture (fun es => ?_)
        fun es t es' v hbuilt => ?_
      · refine .peek fun _ => .ite (.node rfl ?_) (.node rfl (.append (.emit es) (.expect _ _)))
        exact .append (.append (.append (.emit es) .take) (hr.assembled .type)) (.expect _ _)
      · have htv := hbuilt.inputs
        refine follows_peek (Follows.test (htv.isAt_eq rfl (by decide)) (fun hat => ?_) fun _ => ?_)
        · have htake := follows_take (E := Anywhere) htv (mark_of_isAt htv hat (by decide))
          refine (((hbuilt.emit_append htake).append fun _ _ => hr.type).append fun _ _ hends => ?_).node
          exact follows_expect .rightBracket _ (by decide) hends
        · exact (hbuilt.emit_append (follows_expect .rightBracket _ (by decide) htv)).node
    · refine (follows_tupleType hr h).capture (fun es => ?_) fun es t es' v hbuilt => ?_
      · refine .peek fun _ => .ite (.node rfl (.append (.emit es) ?_)) (.emit es)
        exact assembled_functionTypeRest hr.assembled
      · have htv := hbuilt.inputs
        refine follows_peek
          (Follows.test (htv.isAtAny_eq (by decide)) (fun _ => ?_) fun _ => follows_emit hbuilt)
        exact (hbuilt.emit_append (follows_functionTypeRest hr htv)).node
    · exact (rejects_expected _).follows

/-- A member type is on the same line, and has a name. -/
theorem follows_typeSuffix (hr : r.Follows M r') (e e' : Element) (h : s.Omits M u) :
    SuffixFollows M s u (typeSuffix? r s e) (typeSuffix? r' u e') := by
  unfold typeSuffix?
  cases hmark : M s.offset with
  | some next =>
    have hgoes := h.goesOn_of_mark hmark
    rw [h.kind_of_mark hmark, h.kind_of_mark' hmark]
    dsimp only
    split
    · cases hgoes
    · cases hgoes
    · cases hgoes
    · trivial
  | none =>
    have htake : Follows M Anywhere s.offset s u take take := follows_take h hmark
    rw [h.kind_eq hmark]
    generalize hkind : s.kind = k
    split
    · exact ⟨rfl, htake⟩
    · exact ⟨rfl, htake⟩
    · have hend : s.kind ≠ .endOfFile := by rw [hkind]; decide
      have hnext := mark_behind h hmark hkind (by decide)
      rw [h.isAfterNewline_eq hmark hend, Input.kindAt_succ, Input.kindAt_succ,
        show u.behind.kindAt 0 = s.behind.kindAt 0 from (h.behind hmark).kind_eq hnext]
      split
      · refine ⟨rfl, Follows.append ?_ fun _ _ => follows_optionalArguments hr⟩
        refine follows_take_append h hmark fun hbehind => ?_
        exact follows_take_append hbehind hnext follows_nothing
      · trivial
    · trivial

theorem rejects_type (hkind : s.kind = .semicolon) : (SwiftTidy.Grammar.type r).Rejects s := by
  have hword : isAtOpaqueType s = false := by
    rw [isAtOpaqueType, Input.isAt, hkind]
    rfl
  refine rejects_peek ?_
  rw [Input.isAt, Input.isAt, hkind, hword]
  refine Rejects.capture (rejects_peek ?_)
  rw [hkind]
  exact rejects_expected _

theorem follows_type (hr : r.Follows M r') (h : s.Enters M b u) :
    Follows M E s.offset s u (SwiftTidy.Grammar.type r) (SwiftTidy.Grammar.type r') := by
  refine follows_peek ?_
  cases hmark : M s.offset with
  | some next => exact (rejects_type (h.kind_of_mark hmark)).follows
  | none =>
    refine Follows.test (by rw [Input.isAt, Input.isAt, h.kind_eq hmark]) (fun _ => ?_) fun _ => ?_
    · exact ((follows_attributeUse h).append fun _ _ => hr.type).node
    refine Follows.test (by rw [Input.isAt, Input.isAt, h.kind_eq hmark]) (fun _ => ?_) fun _ => ?_
    · exact ((follows_take h hmark).append fun _ _ => hr.type).node
    refine Follows.test (isAtOpaqueType_eq h hmark) (fun _ => ?_) fun _ => ?_
    · exact ((follows_take h hmark).append fun _ _ => hr.type).node
    · exact follows_withSuffixes (assembled_typeSuffix hr.assembled)
        (fun t v e e' htv _ => follows_typeSuffix hr e e' htv) (follows_primaryType hr h)

/-! ### Types in front of a semicolon -/

theorem rejects_tupleType (hr : r.Follows M r') (hbehind : s.behind.kind = .semicolon) :
    (tupleType r).Rejects s := by
  refine Rejects.node (Rejects.append (.behind_next (fun _ _ => behind_of_expect) ?_))
  refine rejects_onlyIf (by rw [Input.isAt, hbehind]; rfl) ?_
  cases r.bound with
  | zero => exact rejects_fail _
  | succ bound => exact Rejects.capture (rejects_tupleTypeElement hr hbehind)

theorem behind_of_primaryType (hr : r.Follows M r') {es : List Element}
    (hbehind : s.behind.kind = .semicolon) (hrun : (primaryType r).run s = .ok (es, t)) :
    t = s.behind := by
  have hname : ∀ es t, (node .identifierType
      (take ++ onlyIf (·.isAtOperator "<") (genericArgumentClause r))).run s = .ok (es, t) →
      t = s.behind := by
    intro es t hrun
    obtain ⟨fs, w, hfs, hemit⟩ := run_capture hrun
    cases hemit
    obtain ⟨_, _, w, htake, harguments, -⟩ := run_append hfs
    obtain rfl := behind_of_take htake
    rw [run_onlyIf_eq (by rw [Input.isAtOperator, hbehind]; rfl)] at harguments
    cases harguments
    rfl
  unfold primaryType peek at hrun
  dsimp only at hrun
  split at hrun
  · exact hname es t hrun
  · exact hname es t hrun
  · have htake : (take ++ r.type).Rejects s :=
      .behind_next (fun _ _ => behind_of_take) (hr.type_rejects hbehind)
    exact absurd hrun (htake.capture es t)
  · exact absurd hrun ((rejects_tupleType hr hbehind).capture es t)
  · cases hrun

/-- A type that starts one token in front of a semicolon is a single name. -/
theorem behind_of_type (hr : r.Follows M r') {es : List Element} (hbehind : s.behind.kind = .semicolon)
    (hrun : (SwiftTidy.Grammar.type r).run s = .ok (es, t)) : t = s.behind := by
  have hattribute : attributeUse.Rejects s := by
    refine Rejects.node (Rejects.append (.behind_next (fun _ _ => behind_of_expect) ?_))
    refine rejects_peek ?_
    rw [Input.isAt, hbehind]
    exact rejects_expected _
  have hinout : (take ++ r.type).Rejects s :=
    .behind_next (fun _ _ => behind_of_take) (hr.type_rejects hbehind)
  have hword : isAtOpaqueType s = false := by
    rw [isAtOpaqueType, show s.kindAt 1 = .semicolon from (s.kindAt_succ 0).trans hbehind]
    exact Bool.and_false _
  unfold SwiftTidy.Grammar.type peek at hrun
  dsimp only at hrun
  rw [hword] at hrun
  split at hrun
  · exact absurd hrun (hattribute.append.node es t)
  split at hrun
  · exact absurd hrun (hinout.node es t)
  obtain ⟨fs, w, hprimary, hsuffixes⟩ := run_capture hrun
  obtain rfl := behind_of_primaryType hr hbehind hprimary
  split at hsuffixes
  · refine (run_suffixes_of_none ?_ hsuffixes).2
    rw [typeSuffix?, hbehind]
  · cases hsuffixes
    rfl

/-! ### Patterns -/

theorem rejects_bindingPattern (hkind : s.kind = .semicolon) :
    (SwiftTidy.Grammar.bindingPattern r).Rejects s := by
  refine rejects_peek ?_
  rw [hkind]
  exact rejects_expected _

theorem follows_bindingPattern (hr : r.Follows M r') (h : s.Enters M b u) :
    Follows M E s.offset s u (SwiftTidy.Grammar.bindingPattern r)
      (SwiftTidy.Grammar.bindingPattern r') := by
  by_cases hkind : s.kind = .semicolon
  · exact (rejects_bindingPattern hkind).follows
  have hmark := mark_of_kind h hkind
  refine follows_peek ?_
  rw [h.kind_eq hmark]
  generalize s.kind = k
  split
  · exact (follows_take h hmark).node
  · exact (follows_take h hmark).node
  · refine Follows.node (Follows.append_due ((follows_take h hmark).append fun t v htv => ?_)
      (fun t hkind => ?_) fun _ _ => follows_expect .rightParen _ (by decide))
    · exact follows_commaSeparatedUntil rfl (by decide) rfl (hr.assembled .bindingPattern) htv
        fun _ _ => hr.bindingPattern
    · exact rejects_expect _ (by rw [Input.isAt, hkind]; rfl)
  · exact (rejects_expected _).follows

theorem rejects_pattern (hr : r.Follows M r') (hkind : s.kind = .semicolon) :
    (SwiftTidy.Grammar.pattern r).Rejects s := by
  refine rejects_peek ?_
  rw [Input.isAtAny, isAtWildcardPattern, Input.isAt, Input.isAt, hkind]
  exact (hr.expression_rejects _ hkind).node

theorem follows_pattern (hr : r.Follows M r') (h : s.Enters M b u) :
    Follows M E s.offset s u (SwiftTidy.Grammar.pattern r) (SwiftTidy.Grammar.pattern r') := by
  by_cases hkind : s.kind = .semicolon
  · exact (rejects_pattern hr hkind).follows
  have hmark := mark_of_kind h hkind
  have htake : ∀ E, Follows M E s.offset s u take take := fun _ => follows_take h hmark
  refine follows_peek (Follows.test ?_ (fun _ => ?_) fun _ => Follows.test ?_ (fun _ => ?_) fun _ =>
    Follows.test ?_ (fun _ => ?_) fun _ => ?_)
  · rw [Input.isAtAny, Input.isAtAny, h.kind_eq hmark]
  · exact ((htake Anywhere).append fun _ _ => hr.pattern).node
  · unfold isAtWildcardPattern
    rw [Input.isAt, Input.isAt, h.kind_eq hmark, h.kindAt_one_beq (k := .colon) hmark rfl
      (by decide),
      h.kindAt_one_beq (k := .comma) hmark rfl (by decide), h.kindAt_one_beq (k := .whereKw) hmark
        rfl (by decide),
      h.kindAt_one_beq (k := .equal) hmark rfl (by decide)]
  · exact (htake E).node
  · rw [Input.isAt, Input.isAt, h.kind_eq hmark, h.kindAt_one_beq (k := .inKw) hmark rfl
      (by decide)]
  · exact (htake E).node
  · exact (hr.expression _ h).node

end Grammar

end SwiftTidy
