import SwiftTidy.Proofs.Parse.Phrases
import SwiftTidy.Proofs.Parse.WellKinded

/-!
# Nodes that are not empty

In a syntax tree a list of arguments may be without tokens, as in `f()`, but no node of another kind may,
and a statement of a block is one declaration, one statement or one expression, with a semicolon behind it
or none.  The cases of a switch stand between its braces, and the items of a label between the keyword and
the colon (`Filled`).

Again there is one statement for each production, in the order in which they are defined: it builds filled
elements, and not all of them are without tokens (`Solid`).  Only the argument of a call asks for a look at
the input: where it is left out, a comma stands behind it.  What kind of node an expression is, is told by a
second run over its productions (`OneOf`).
-/

namespace SwiftTidy

/-- The kinds of declarations. -/
def SyntaxKind.isDeclaration : SyntaxKind → Bool
  | .importDecl | .variableDecl | .functionDecl | .initializerDecl | .structDecl | .classDecl
  | .enumDecl | .protocolDecl | .extensionDecl | .typeAliasDecl | .enumCaseDecl => true
  | _ => false

/-- The kinds of what a keyword of control flow starts, conditionals and switches apart. -/
def SyntaxKind.isControlFlow : SyntaxKind → Bool
  | .guardStmt | .whileStmt | .repeatStmt | .forInStmt | .doStmt | .deferStmt | .returnStmt
  | .throwStmt | .breakStmt | .continueStmt | .fallthroughStmt => true
  | _ => false

/-- The kinds of expressions that stand alone, conditionals and switches among them. -/
def SyntaxKind.isExpression : SyntaxKind → Bool
  | .ifExpr | .switchExpr | .identifierExpr | .literalExpr | .discardExpr | .memberAccessExpr
  | .functionCallExpr | .subscriptExpr | .forceUnwrapExpr | .optionalChainingExpr | .tupleExpr
  | .arrayExpr | .dictionaryExpr | .closureExpr | .sequenceExpr | .prefixOperatorExpr
  | .postfixOperatorExpr | .tryExpr | .awaitExpr => true
  | _ => false

/-- The kinds of statements. -/
def SyntaxKind.isStatement (k : SyntaxKind) : Bool :=
  k.isDeclaration || k.isControlFlow || k.isExpression

/-- The kinds of nodes of which more is told than that they are not empty. -/
def SyntaxKind.isFormed (k : SyntaxKind) : Bool :=
  k == .codeBlockItem || k == .switchExpr || k == .switchCaseLabel

namespace Element

/-- Every node at or below the element has a leaf, unless it is a list of arguments, every item of a block
is one statement, with a semicolon behind it or none, the cases of a switch stand between the braces, and
the items of a label, which start with a pattern, between the keyword and the colon. -/
inductive Filled : Element → Prop
  | token (t : Token) : Filled (.token t)
  | arguments {es : List Element} (hes : ∀ e ∈ es, e.Filled) : Filled (.node .argumentList es)
  | item {j : SyntaxKind} {cs rest : List Element} (hj : j.isStatement = true)
      (hstatement : Filled (.node j cs))
      (hrest : rest = [] ∨ ∃ t : Token, t.kind = .semicolon ∧ rest = [.token t]) :
      Filled (.node .codeBlockItem (.node j cs :: rest))
  | switch {keyword brace close : Token} {j : SyntaxKind} {cs es : List Element}
      (hj : j.isExpression = true) (hsubject : Filled (.node j cs)) (hbrace : brace.kind = .leftBrace)
      (hes : ∀ e ∈ es, e.Filled) (hcases : ∀ e ∈ es, e.kind = .switchCase) :
      Filled (.node .switchExpr (.token keyword :: .node j cs :: .token brace :: (es ++ [.token close])))
  | label {keyword colon : Token} {es : List Element} (hkeyword : keyword.kind = .caseKw)
      (hes : ∀ e ∈ es, e.Filled) (hitems : ∀ e ∈ es, ∃ p fs, e = .node .switchCaseItem (p :: fs)) :
      Filled (.node .switchCaseLabel (.token keyword :: (es ++ [.token colon])))
  | node {k : SyntaxKind} {es : List Element} (hk : k.isFormed = false) (hleaves : leavesAll es ≠ [])
      (hes : ∀ e ∈ es, e.Filled) : Filled (.node k es)

namespace Filled

variable {k : SyntaxKind} {es : List Element}

theorem children (h : (Element.node k es).Filled) : ∀ e ∈ es, e.Filled := by
  cases h with
  | arguments hes => exact hes
  | node _ _ hes => exact hes
  | switch _ hsubject _ hes =>
    simp only [List.forall_mem_cons, List.forall_mem_append]
    exact ⟨.token _, hsubject, .token _, hes, .token _, List.forall_mem_nil _⟩
  | label _ hes =>
    simp only [List.forall_mem_cons, List.forall_mem_append]
    exact ⟨.token _, hes, .token _, List.forall_mem_nil _⟩
  | item _ hstatement hrest =>
    rw [List.forall_mem_cons]
    refine ⟨hstatement, ?_⟩
    rcases hrest with rfl | ⟨t, -, rfl⟩
    · exact List.forall_mem_nil _
    · exact List.forall_mem_singleton.mpr (.token t)

/-- An item of a block is one statement. -/
theorem exists_statement (h : (Element.node .codeBlockItem es).Filled) :
    ∃ j cs, j.isStatement = true ∧
      (es = [.node j cs] ∨ ∃ t : Token, t.kind = .semicolon ∧ es = [.node j cs, .token t]) := by
  cases h with
  | @item j cs rest hj _ hrest =>
    refine ⟨j, cs, hj, ?_⟩
    rcases hrest with rfl | ⟨t, ht, rfl⟩
    · exact .inl rfl
    · exact .inr ⟨t, ht, rfl⟩
  | node hk => cases hk

/-- The cases of a switch stand between the braces. -/
theorem exists_cases (h : (Element.node .switchExpr es).Filled) :
    ∃ keyword brace close j cs fs,
      es = .token keyword :: .node j cs :: .token brace :: (fs ++ [.token close]) ∧
      j.isExpression = true ∧ brace.kind = .leftBrace ∧ ∀ e ∈ fs, e.kind = .switchCase := by
  cases h with
  | @switch keyword brace close j cs fs hj _ hbrace _ hcases =>
    exact ⟨keyword, brace, close, j, cs, fs, rfl, hj, hbrace, hcases⟩
  | node hk => cases hk

/-- The items of a label stand between the keyword and the colon. -/
theorem exists_labelItems (h : (Element.node .switchCaseLabel es).Filled) :
    ∃ keyword colon fs, es = .token keyword :: (fs ++ [.token colon]) ∧ keyword.kind = .caseKw ∧
      ∀ e ∈ fs, ∃ p gs, e = .node .switchCaseItem (p :: gs) := by
  cases h with
  | @label keyword colon fs hkeyword _ hitems => exact ⟨keyword, colon, fs, rfl, hkeyword, hitems⟩
  | node hk => cases hk

/-- Only lists of arguments are without leaves. -/
theorem leavesAll_ne_nil (h : (Element.node k es).Filled) (hk : k ≠ .argumentList) :
    leavesAll es ≠ [] := by
  generalize hx : Element.node k es = x at h
  induction h generalizing k es with
  | token t => cases hx
  | arguments =>
    cases hx
    exact absurd rfl hk
  | node _ hleaves =>
    cases hx
    exact hleaves
  | item hj _ _ ih =>
    cases hx
    -- no list of arguments is a statement
    have hstatement := ih (fun harguments => by rw [harguments] at hj; cases hj) rfl
    simp [hstatement]
  | switch | label =>
    cases hx
    simp

end Filled

/-- Filled elements, not all of them without leaves. -/
def Solid (es : List Element) : Prop := (∀ e ∈ es, e.Filled) ∧ leavesAll es ≠ []

variable {k : SyntaxKind} {es fs : List Element}

theorem solid_token (t : Token) : Solid [.token t] :=
  ⟨List.forall_mem_singleton.mpr (.token t), by simp⟩

theorem Solid.append (hes : Solid es) (hfs : ∀ e ∈ fs, e.Filled) : Solid (es ++ fs) :=
  ⟨List.forall_mem_append.mpr ⟨hes.1, hfs⟩, by simp [hes.2]⟩

theorem Solid.behind (hes : ∀ e ∈ es, e.Filled) (hfs : Solid fs) : Solid (es ++ fs) :=
  ⟨List.forall_mem_append.mpr ⟨hes, hfs.1⟩, by simp [hfs.2]⟩

/-- They make up a node that is filled. -/
theorem Solid.filled (hes : Solid es) (hk : k.isFormed = false) : (Element.node k es).Filled :=
  .node hk hes.2 hes.1

theorem Solid.node (hes : Solid es) (hk : k.isFormed = false) : Solid [.node k es] :=
  ⟨List.forall_mem_singleton.mpr (hes.filled hk), by simp [hes.2]⟩

end Element

namespace Grammar

/-- A grammar that builds one node of one of the kinds. -/
abbrev OneOf (q : SyntaxKind → Bool) : Grammar → Prop :=
  Builds fun es => ∃ k cs, es = [Element.node k cs] ∧ q k = true

namespace OneOf

variable {q : SyntaxKind → Bool} {g h : Grammar} {k : SyntaxKind}

theorem node (hk : q k = true) (g : Grammar) : OneOf q (Grammar.node k g) :=
  Builds.node (P := fun _ => True) (fun _ _ _ _ => trivial) fun es _ => ⟨k, es, rfl, hk⟩

theorem suffixes {next : Input → Element → Option (SyntaxKind × Grammar)}
    (hnext : ∀ s e, ∀ p ∈ next s e, q p.1 = true) (bound : Nat) {cs : List Element} (hk : q k = true) :
    OneOf q (Grammar.suffixes next bound (.node k cs)) := by
  induction bound generalizing k cs with
  | zero => exact Builds.fail _
  | succ bound ih =>
    refine Builds.peek fun s => ?_
    split
    · exact Builds.emit ⟨k, cs, rfl, hk⟩
    · rename_i j g hg
      exact Builds.capture (P := fun _ => True) (fun _ _ _ _ => trivial) fun es _ =>
        ih (hnext s _ (j, g) hg)

theorem withSuffixes {next : Input → Element → Option (SyntaxKind × Grammar)} (hg : OneOf q g)
    (bound : Nat) (hnext : ∀ s e, ∀ p ∈ next s e, q p.1 = true) :
    OneOf q (Grammar.withSuffixes g bound next) := by
  refine Builds.capture hg fun es hes => ?_
  obtain ⟨k, cs, rfl, hk⟩ := hes
  exact suffixes hnext bound hk

theorem nodeUnlessSingle (hk : q k = true) (hg : OneOf q g) :
    OneOf q (Grammar.nodeUnlessSingle k (g ++ h)) := by
  have hfront : Builds (fun es => ∃ j cs fs, es = .node j cs :: fs ∧ q j = true) (g ++ h) := by
    refine Builds.append (Q := fun _ => True) hg (fun _ _ _ _ => trivial) fun es fs hes _ => ?_
    obtain ⟨j, cs, rfl, hj⟩ := hes
    exact ⟨j, cs, fs, rfl, hj⟩
  refine Builds.capture hfront fun es hes => ?_
  obtain ⟨j, cs, fs, rfl, hj⟩ := hes
  cases fs with
  | nil => exact Builds.emit ⟨j, cs, rfl, hj⟩
  | cons f fs => exact Builds.emit ⟨k, _, rfl, hk⟩

end OneOf

end Grammar

/-- Every nonterminal of the level builds filled elements, not all of them without leaves. -/
def Level.Solid (r : Level) : Prop := ∀ p, Grammar.Builds Element.Solid (r.read p)

/-- The nonterminals that are expressions, in a pattern or in front of a block apart. -/
def Nonterminal.isExpression : Nonterminal → Bool
  | .expression ρ | .operand ρ => !ρ.inPattern
  | .ifExpr => true
  | _ => false

/-- The expressions of the level are nodes of the kinds of expressions. -/
def Level.Expresses (r : Level) : Prop :=
  ∀ p, p.isExpression = true → Grammar.OneOf SyntaxKind.isExpression (r.read p)

namespace Grammar

open Element (Filled)

variable {r : Level} {k : SyntaxKind} {g h : Grammar}

/-- A grammar that builds filled elements, not all of them without leaves. -/
abbrev Solid : Grammar → Prop := Builds Element.Solid

namespace Solid

theorem each (hg : Solid g) : Each Filled g := hg.imp fun _ => And.left

theorem append (hg : Solid g) (hh : Each Filled h) : Solid (g ++ h) :=
  Builds.append hg hh fun _ _ => .append

theorem behind (hg : Each Filled g) (hh : Solid h) : Solid (g ++ h) :=
  Builds.append hg hh fun _ _ => .behind

theorem node (hk : k.isFormed = false) (hg : Solid g) : Solid (Grammar.node k g) :=
  Builds.node hg fun _ hes => hes.node hk

theorem take : Solid Grammar.take := Builds.take.imp fun _ ⟨t, hes⟩ => hes ▸ Element.solid_token t

theorem takeAs (k : SyntaxKind) : Solid (Grammar.takeAs k) :=
  Builds.takeAs.imp fun _ ⟨t, hes, _⟩ => hes ▸ Element.solid_token t

theorem expect (k : SyntaxKind) (what : String) : Solid (Grammar.expect k what) :=
  (Builds.expect what).imp fun _ ⟨t, hes, _⟩ => hes ▸ Element.solid_token t

/-- An element with suffixes behind it stands in their nodes. -/
theorem suffixes {next : Input → Element → Option (SyntaxKind × Grammar)}
    (hnext : ∀ s e k g, next s e = some (k, g) → k.isFormed = false ∧ Each Filled g) (bound : Nat)
    {e : Element} (he : Element.Solid [e]) : Solid (Grammar.suffixes next bound e) := by
  induction bound generalizing e with
  | zero => exact Builds.fail _
  | succ bound ih =>
    refine Builds.peek fun s => ?_
    split
    · exact Builds.emit he
    · rename_i k g hg
      obtain ⟨hk, hes⟩ := hnext s e k g hg
      exact Builds.capture hes fun es hes => ih ((he.append hes).node hk)

theorem withSuffixes {next : Input → Element → Option (SyntaxKind × Grammar)} (hg : Solid g)
    (bound : Nat) (hnext : ∀ s e k g, next s e = some (k, g) → k.isFormed = false ∧ Each Filled g) :
    Solid (Grammar.withSuffixes g bound next) := by
  refine Builds.capture hg fun es hes => ?_
  split
  · exact suffixes hnext bound hes
  · exact Builds.emit hes

theorem nodeUnlessSingle (hk : k.isFormed = false) (hg : Solid g) :
    Solid (Grammar.nodeUnlessSingle k g) := by
  refine Builds.capture hg fun es hes => ?_
  split
  · exact Builds.emit hes
  · exact Builds.emit (hes.node hk)

end Solid

/-! ### Tokens and lists -/

theorem filled_take : Each Filled take := Solid.take.each

theorem filled_expect (k : SyntaxKind) (what : String) : Each Filled (expect k what) :=
  (Solid.expect k what).each

theorem filled_takeN (n : Nat) : Each Filled (takeN n) := Each.takeN .token n

/-- At least one token. -/
theorem solid_takeN (n : Nat) : Solid (takeN (n + 1)) := .append .take (filled_takeN n)

theorem filled_eat (k : SyntaxKind) : Each Filled (eat k) := Each.whenAt k filled_take

theorem filled_list {item first : Grammar} (hk : k.isFormed = false) (hitem : Solid item)
    (hfirst : Solid first) (stop : Input → Bool) (bound : Nat) :
    Each Filled (commaList k stop item bound first) :=
  Each.commaList hitem hfirst (fun _ hes => hes.filled hk)
    (fun _ t hes _ => (hes.append (Element.solid_token t).1).filled hk) stop bound

/-! ### Attributes -/

theorem filled_balancedParens : Each Filled balancedParens := by
  refine Builds.peek fun s => ?_
  split
  · exact filled_takeN _
  · exact Builds.fail _

theorem solid_attributeUse : Solid attributeUse :=
  Solid.node (by decide) (.append (.append (.expect _ _)
    (Builds.peek fun _ => Builds.ite filled_take (Builds.expected _)))
    (Each.onlyIf _ filled_balancedParens))

/-! ### Types -/

theorem solid_typeAscription (hr : r.Solid) : Solid (typeAscription r) :=
  Solid.node (by decide) (.append (.expect _ _) (Solid.each (hr .type)))

theorem solid_initializerClause (hr : r.Solid) (ρ : Restrictions) : Solid (initializerClause r ρ) :=
  Solid.node (by decide) (.append (.expect _ _) (Solid.each (hr (.expression ρ))))

theorem solid_returnClause (hr : r.Solid) : Solid (returnClause r) :=
  Solid.node (by decide) (.append (.expect _ _) (Solid.each (hr .type)))

theorem filled_rightAngle : Each Filled rightAngle :=
  Each.append Each.splitRightAngle
    (Builds.peek fun _ => Builds.ite (Solid.takeAs _).each (Builds.expected _))

theorem solid_genericArgumentClause (hr : r.Solid) : Solid (genericArgumentClause r) := by
  have hargument : Solid (r.type ++ splitRightAngle) := .append (hr .type) Each.splitRightAngle
  exact Solid.node (by decide) (.append (.append (.takeAs _)
    (filled_list (by decide) hargument hargument _ _)) filled_rightAngle)

theorem solid_tupleTypeElement (hr : r.Solid) : Solid (tupleTypeElement r) := by
  refine Solid.append (.append (.behind ?_ (hr .type)) (Each.onlyIf _ filled_take))
    (Each.whenAt _ (solid_initializerClause hr _).each)
  exact Builds.peek fun _ => Builds.ite (filled_takeN _) (Builds.ite (filled_takeN _) Each.nothing)

theorem solid_tupleType (hr : r.Solid) : Solid (tupleType r) := by
  have helement := solid_tupleTypeElement hr
  exact Solid.node (by decide) (.append (.append (.expect _ _)
    (Each.onlyIf _ (filled_list (by decide) helement helement _ _))) (filled_expect _ _))

theorem filled_functionTypeRest (hr : r.Solid) : Each Filled (functionTypeRest r) :=
  Each.append (Each.append (filled_eat _) (Each.whenAtAny _ filled_take)) (solid_returnClause hr).each

theorem solid_primaryType (hr : r.Solid) : Solid (primaryType r) := by
  have hname : Solid
      (node .identifierType (take ++ onlyIf (·.isAtOperator "<") (genericArgumentClause r))) :=
    Solid.node (by decide) (.append .take (Each.onlyIf _ (solid_genericArgumentClause hr).each))
  have hfront : Solid (take ++ r.type) := .append .take (Solid.each (hr .type))
  refine Builds.peek fun s => ?_
  split
  · exact hname
  · exact hname
  · refine Builds.capture hfront fun es hes => Builds.peek fun _ => Builds.ite ?_ ?_
    · exact Solid.node (by decide) (.append (.append (.append (Builds.emit hes) filled_take)
        (Solid.each (hr .type))) (filled_expect _ _))
    · exact Solid.node (by decide) (.append (Builds.emit hes) (filled_expect _ _))
  · refine Builds.capture (solid_tupleType hr) fun es hes =>
      Builds.peek fun _ => Builds.ite ?_ (Builds.emit hes)
    exact Solid.node (by decide) (.append (Builds.emit hes) (filled_functionTypeRest hr))
  · exact Builds.expected _

theorem filled_typeSuffix (hr : r.Solid) (s : Input) (e : Element) :
    ∀ k g, typeSuffix? r s e = some (k, g) → k.isFormed = false ∧ Each Filled g := by
  intro k g hg
  unfold typeSuffix? at hg
  split at hg
  · cases hg
    exact ⟨by decide, filled_take⟩
  · cases hg
    exact ⟨by decide, filled_take⟩
  · split at hg <;> cases hg
    exact ⟨by decide, Each.append (filled_takeN _)
      (Each.onlyIf _ (solid_genericArgumentClause hr).each)⟩
  · cases hg

theorem solid_type (hr : r.Solid) : Solid (type r) := by
  have htype : Each Filled r.type := Solid.each (hr .type)
  refine Builds.peek fun s => Builds.ite ?_ (Builds.ite ?_ (Builds.ite ?_ ?_))
  · exact Solid.node (by decide) (.append solid_attributeUse htype)
  · exact Solid.node (by decide) (.append .take htype)
  · exact Solid.node (by decide) (.append .take htype)
  · exact Solid.withSuffixes (solid_primaryType hr) _ (filled_typeSuffix hr)

/-! ### Patterns -/

theorem solid_bindingPattern (hr : r.Solid) : Solid (bindingPattern r) := by
  refine Builds.peek fun s => ?_
  split
  · exact Solid.node (by decide) .take
  · exact Solid.node (by decide) .take
  · exact Solid.node (by decide) (.append (.append .take
      (Each.onlyIf _ (filled_list (by decide) (hr .bindingPattern) (hr .bindingPattern) _ _)))
      (filled_expect _ _))
  · exact Builds.expected _

theorem solid_pattern (hr : r.Solid) : Solid (pattern r) := by
  refine Builds.peek fun s => Builds.ite ?_ (Builds.ite ?_ (Builds.ite ?_ ?_))
  · exact Solid.node (by decide) (.append .take (Solid.each (hr .pattern)))
  · exact Solid.node (by decide) .take
  · exact Solid.node (by decide) .take
  · exact Solid.node (by decide) (hr (.expression _))

/-! ### Blocks and branches -/

theorem filled_blockItems (hr : r.Solid) : Each Filled (blockItems r) := by
  refine Each.repeated (fun s g hg => ?_) _
  split_ifs at hg <;> cases hg
  · exact Builds.expected _
  · exact Solid.each (hr .codeBlockItem)

theorem solid_braced (hk : k.isFormed = false) (hr : r.Solid) : Solid (braced k r) :=
  Solid.node hk (.append (.append (.expect _ _) (filled_blockItems hr)) filled_take)

theorem solid_codeBlock (hr : r.Solid) : Solid (codeBlock r) := solid_braced (by decide) hr

theorem solid_whereClause (hr : r.Solid) : Solid (whereClause r) :=
  Solid.node (by decide) (.append .take (Solid.each (hr (.expression _))))

theorem solid_condition (hr : r.Solid) : Solid (condition r) := by
  have hbinding : Solid (node .optionalBindingCondition <|
      take ++ r.bindingPattern ++ whenAt .colon (typeAscription r) ++
        whenAt .equal (initializerClause r .condition)) :=
    Solid.node (by decide) (.append (.append (.append .take (Solid.each (hr .bindingPattern)))
      (Each.whenAt _ (solid_typeAscription hr).each))
      (Each.whenAt _ (solid_initializerClause hr _).each))
  refine Builds.peek fun s => ?_
  split
  · exact hbinding
  · exact hbinding
  · exact Solid.append (.append .take (Solid.each (hr .pattern))) (solid_initializerClause hr _).each
  · exact hr (.expression _)

theorem filled_conditionList (hr : r.Solid) : Each Filled (conditionList r) :=
  filled_list (by decide) (solid_condition hr) (solid_condition hr) _ _

theorem solid_ifExpr (hr : r.Solid) : Solid (ifExpr r) := by
  refine Solid.node (by decide) (.append (.append (.append .take (filled_conditionList hr))
    (solid_codeBlock hr).each) (Each.whenAt _ (Each.append filled_take ?_)))
  exact Builds.peek fun _ => Builds.ite (Solid.each (hr .ifExpr)) (solid_codeBlock hr).each

/-- The items of a label start with a pattern. -/
theorem filled_labelItems (hr : r.Solid) :
    Each (fun e => e.Filled ∧ ∃ p fs, e = Element.node .switchCaseItem (p :: fs))
      (commaSeparated .switchCaseItem r.bound (r.pattern ++ whenAt .whereKw (whereClause r))) := by
  have hitem : Solid (r.pattern ++ whenAt .whereKw (whereClause r)) :=
    .append (hr .pattern) (Each.whenAt _ (solid_whereClause hr).each)
  have hne : ∀ {es : List Element}, Element.Solid es → ∃ p fs, es = p :: fs := fun {es} hes => by
    cases es with
    | nil => exact absurd Element.leavesAll_nil hes.2
    | cons p fs => exact ⟨p, fs, rfl⟩
  refine Each.commaSeparated hitem (fun es hes => ?_) (fun es t hes _ => ?_) _
  · obtain ⟨p, fs, rfl⟩ := hne hes
    exact ⟨hes.filled (by decide), p, fs, rfl⟩
  · obtain ⟨p, fs, rfl⟩ := hne hes
    exact ⟨(hes.append (Element.solid_token t).1).filled (by decide), p, fs ++ [.token t], rfl⟩

theorem solid_switchCaseLabel (hr : r.Solid) {s : Input} (hs : s.kind = .caseKw) :
    BuildsAt s Element.Solid (switchCaseLabel r) := by
  refine BuildsAt.node (BuildsAt.append (BuildsAt.append BuildsAt.take (filled_labelItems hr)
    (T := fun es => ∃ (t : Token) (fs : List Element), es = .token t :: fs ∧ t.kind = .caseKw ∧
      ∀ e ∈ fs, e.Filled ∧ ∃ p gs, e = Element.node .switchCaseItem (p :: gs)) ?_) (Builds.expect _)
    (T := fun es => (Element.node .switchCaseLabel es).Filled) ?_) fun es hes => ?_
  · rintro es fs ⟨t, rfl, hkind⟩ hfs
    exact ⟨t, fs, rfl, hkind.trans hs, hfs⟩
  · rintro es gs ⟨t, fs, rfl, hkind, hfs⟩ ⟨colon, rfl, -⟩
    exact .label hkind (fun e he => (hfs e he).1) fun e he => (hfs e he).2
  · exact ⟨List.forall_mem_singleton.mpr hes, by
      simpa using hes.leavesAll_ne_nil (by decide)⟩

theorem solid_switchCase (hr : r.Solid) : Solid (switchCase r) := by
  refine Solid.node (by decide) (.append (.behind (Each.onlyIf _ solid_attributeUse.each) ?_) ?_)
  · refine Builds.peekAt fun s => ?_
    split
    · next hs => exact solid_switchCaseLabel hr hs
    · have hlabel : Solid (Grammar.node .switchDefaultLabel (Grammar.take ++ expect .colon "`:`")) :=
        Solid.node (by decide) (.append .take (filled_expect _ _))
      exact fun es s' hrun => hlabel hrun
    · exact fun es s' hrun => Builds.expected _ hrun
  · refine Each.repeated (fun s g hg => ?_) _
    split_ifs at hg <;> cases hg
    · exact Builds.expected _
    · exact Solid.each (hr .codeBlockItem)

theorem filled_cases (hr : r.Solid) : Each (fun e => e.Filled ∧ e.kind = .switchCase)
    (repeated (fun s => if s.isAt .rightBrace then none else some (switchCase r)) r.bound) := by
  refine Each.repeated (fun s g hg => ?_) _
  split_ifs at hg <;> cases hg
  refine ((solid_switchCase hr).both (OneOf.node (q := (· == .switchCase)) rfl _)).imp ?_
  rintro es ⟨hsolid, k, cs, rfl, hk⟩
  exact List.forall_mem_singleton.mpr ⟨List.forall_mem_singleton.mp hsolid.1, eq_of_beq hk⟩

/-- The cases stand between the braces. -/
theorem solid_switchExpr (hr : r.Solid) (he : r.Expresses) : Solid (switchExpr r) := by
  have hsubject : Builds (fun es => ∃ j cs, es = [Element.node j cs] ∧ j.isExpression = true ∧
      (Element.node j cs).Filled) (r.expression .condition) :=
    ((hr (.expression .condition)).both (he (.expression .condition) rfl)).imp
      fun es ⟨hsolid, j, cs, hes, hj⟩ => ⟨j, cs, hes, hj, hsolid.1 _ (hes ▸ List.mem_singleton_self _)⟩
  refine Builds.node (Builds.append (Builds.append (Builds.append (Builds.append Builds.take hsubject
    (T := fun es => ∃ (t : Token) (j : SyntaxKind) (cs : List Element), es = [.token t, .node j cs] ∧
      j.isExpression = true ∧ (Element.node j cs).Filled) ?_) (Builds.expect _)
    (T := fun es => ∃ (t brace : Token) (j : SyntaxKind) (cs : List Element),
      es = [.token t, .node j cs, .token brace] ∧ j.isExpression = true ∧ (Element.node j cs).Filled ∧
        brace.kind = .leftBrace) ?_) (filled_cases hr)
    (T := fun es => ∀ close : Token, (Element.node .switchExpr (es ++ [.token close])).Filled) ?_)
    Builds.take (T := fun es => (Element.node .switchExpr es).Filled) ?_) fun es hes => ?_
  · rintro es fs ⟨t, rfl⟩ ⟨j, cs, rfl, hj, hfilled⟩
    exact ⟨t, j, cs, rfl, hj, hfilled⟩
  · rintro es fs ⟨t, j, cs, rfl, hj, hfilled⟩ ⟨brace, rfl, hbrace⟩
    exact ⟨t, brace, j, cs, rfl, hj, hfilled, hbrace⟩
  · rintro es fs ⟨t, brace, j, cs, rfl, hj, hfilled, hbrace⟩ hfs close
    exact .switch hj hfilled hbrace (fun e he => (hfs e he).1) fun e he => (hfs e he).2
  · rintro es fs hes ⟨close, rfl⟩
    exact hes close
  · exact ⟨List.forall_mem_singleton.mpr hes, by
      simpa using hes.leavesAll_ne_nil (by decide)⟩

/-! ### Expressions -/

/-- An argument may be left out, but only in front of a comma. -/
def LeftOutAtComma (es : List Element) (s : Input) : Prop :=
  (∀ e ∈ es, e.Filled) ∧ (s.isAt .comma = false → Element.leavesAll es ≠ [])

theorem filled_argumentNodes {item : Grammar} {close : SyntaxKind}
    (hitem : ∀ ⦃s es s'⦄, s.isAt close = false → item.run s = .ok (es, s') → LeftOutAtComma es s')
    {bound : Nat} {s s' : Input} {es : List Element} (hs : s.isAt close = false)
    (hrun : (commaList .labeledExpr (·.isAt close) item bound item).run s = .ok (es, s')) :
    ∀ e ∈ es, e.Filled := by
  induction bound generalizing s es with
  | zero => cases hrun
  | succ bound ih =>
    obtain ⟨fs, t, hfs, hrun⟩ := run_capture hrun
    obtain ⟨hfilled, hleaves⟩ := hitem hs hfs
    change (if t.isAt .comma then _ else _ : Grammar).run t = _ at hrun
    split at hrun
    · obtain ⟨gs, hs, u, hgs, hrest, rfl⟩ := run_append hrun
      refine List.forall_mem_append.mpr ⟨?_, ?_⟩
      · -- the comma is a leaf of the node, whether or not the argument is there
        have hnode : Solid (Grammar.node .labeledExpr (emit fs ++ take)) :=
          Solid.node (by decide) (.behind (Builds.emit hfilled) .take)
        exact (hnode hgs).1
      · change (if u.isAt close then _ else _ : Grammar).run u = _ at hrest
        split at hrest
        · exact Each.nothing hrest
        · rename_i hclose
          exact ih (Bool.eq_false_iff.mpr hclose) hrest
    · rename_i hcomma
      cases hrun
      exact List.forall_mem_singleton.mpr
        (.node (by decide) (hleaves (Bool.eq_false_iff.mpr hcomma)) hfilled)

theorem leftOutAtComma_argument (hr : r.Solid) {close : SyntaxKind} {inPattern : Bool} {s s' : Input}
    {es : List Element} (hs : s.isAt close = false)
    (hrun : (onlyIf (fun s => s.kind.isName && s.kindAt 1 == .colon) (takeN 2) ++
      onlyIf (fun s => !s.isAt .comma && !s.isAt close) (r.expression ⟨false, inPattern⟩)).run s =
        .ok (es, s')) : LeftOutAtComma es s' := by
  obtain ⟨fs, gs, t, hfs, hgs, rfl⟩ := run_append hrun
  have hvalue : Each Filled
      (onlyIf (fun s => !s.isAt .comma && !s.isAt close) (r.expression ⟨false, inPattern⟩)) :=
    Each.onlyIf _ (Solid.each (hr (.expression _)))
  change (if _ then _ else _ : Grammar).run s = _ at hfs
  split at hfs
  · -- there is a label
    have hsolid := (solid_takeN 1 hfs).append (hvalue hgs)
    exact ⟨hsolid.1, fun _ => hsolid.2⟩
  · cases hfs
    change (if (!s.isAt .comma && !s.isAt close) = true then _ else _ : Grammar).run s = _ at hgs
    split at hgs
    · have hsolid := hr (.expression _) hgs
      exact ⟨hsolid.1, fun _ => hsolid.2⟩
    · -- neither a label nor a value: the input is at a comma, as it is not at the end of the list
      rename_i hstop
      cases hgs
      refine ⟨List.forall_mem_nil _, fun hcomma => absurd ?_ hstop⟩
      rw [hcomma, hs]
      rfl

theorem filled_argumentList (hr : r.Solid) (close : SyntaxKind) (inPattern : Bool) :
    Each Filled (argumentList r close inPattern) := by
  refine Builds.node (P := fun es => ∀ e ∈ es, e.Filled) ?_ fun es hes =>
    List.forall_mem_singleton.mpr (.arguments hes)
  refine Builds.peekAt fun s => ?_
  split
  · rename_i hclose
    exact fun es s' hrun => filled_argumentNodes (fun s es s' => leftOutAtComma_argument hr)
      (Bool.not_eq_true' _ ▸ hclose) hrun
  · exact fun es s' hrun => Each.nothing hrun

/-- The signature of a closure ends with a keyword. -/
theorem signatureLength?_ne_zero {depth : Nat} {ts : List Token} :
    signatureLength? depth ts ≠ some 0 := by
  cases ts with
  | nil =>
    rw [signatureLength?]
    exact (Option.some_ne_none 0).symm
  | cons t ts =>
    rw [signatureLength?]
    split <;> (try split) <;> simp

theorem solid_closureExpr (hr : r.Solid) : Solid (closureExpr r) := by
  refine Solid.node (by decide) (.append (.append (.append (.expect _ _) ?_)
    (filled_blockItems hr)) filled_take)
  refine Builds.peek fun s => ?_
  split
  · rename_i n hn
    obtain ⟨n, rfl⟩ : ∃ m, n = m + 1 :=
      Nat.exists_eq_succ_of_ne_zero fun hzero => signatureLength?_ne_zero (hzero ▸ hn)
    exact (Solid.node (by decide) (solid_takeN n)).each
  · exact Each.nothing

theorem solid_collectionExpr (hr : r.Solid) : Solid (collectionExpr r) := by
  have hvalue : Solid (r.expression .free) := hr (.expression _)
  have hbehind : Each Filled (expect .colon "`:`" ++ r.expression .free) :=
    Each.append (filled_expect _ _) hvalue.each
  refine Builds.capture Solid.take fun opening hopen => Builds.peek fun s =>
    Builds.ite ?_ (Builds.ite ?_ ?_)
  · exact Solid.node (by decide) (.append (Builds.emit hopen) (filled_takeN _))
  · exact Solid.node (by decide) (.append (Builds.emit hopen) filled_take)
  · refine Builds.capture hvalue fun first hfirst => Builds.peek fun _ => Builds.ite ?_ ?_
    · have hkey : Solid (emit first ++ (expect .colon "`:`" ++ r.expression .free)) :=
        .append (Builds.emit hfirst) hbehind
      exact Solid.node (by decide) (.append (.append (Builds.emit hopen)
        (filled_list (by decide) (.append hvalue hbehind) hkey _ _)) (filled_expect _ _))
    · exact Solid.node (by decide) (.append (.append (Builds.emit hopen)
        (filled_list (by decide) hvalue (Builds.emit hfirst) _ _)) (filled_expect _ _))

theorem filled_memberName : Each Filled memberName :=
  Builds.peek fun _ => Builds.ite filled_take (Builds.expected _)

theorem solid_primaryExpr (hr : r.Solid) (he : r.Expresses) (ρ : Restrictions) : Solid (primaryExpr r ρ) := by
  have htoken : ∀ {k : SyntaxKind}, k.isFormed = false → Solid (node k take) := fun hk => .node hk .take
  refine Builds.peek fun s => ?_
  split
  all_goals try exact htoken (by decide)
  · exact Builds.ite (Builds.fail _) (htoken (by decide))
  · exact Solid.node (by decide) (.append .take filled_memberName)
  · exact Solid.node (by decide) (.append (.append .take (filled_argumentList hr _ _))
      (filled_expect _ _))
  · exact solid_collectionExpr hr
  · exact solid_closureExpr hr
  · exact hr .ifExpr
  · exact solid_switchExpr hr he
  · exact Builds.ite (hr .pattern) (Builds.expected _)
  · exact Builds.ite (hr .pattern) (Builds.expected _)
  · exact Builds.ite (Solid.node (by decide) (.append .take (Solid.each (hr .type))))
      (Builds.expected _)
  · exact Builds.ite (htoken (by decide)) (Builds.ite (htoken (by decide)) (Builds.expected _))

theorem filled_exprSuffix (hr : r.Solid) (ρ : Restrictions) (s : Input) (e : Element) :
    ∀ k g, exprSuffix? r ρ s e = some (k, g) → k.isFormed = false ∧ Each Filled g := by
  intro k g hg
  unfold exprSuffix? at hg
  split at hg
  · cases hg
    exact ⟨by decide, Each.append filled_take filled_memberName⟩
  · split at hg <;> cases hg
    exact ⟨by decide, Each.append (Each.append (Each.append filled_take (filled_argumentList hr _ _))
      (filled_expect _ _)) (Each.onlyIf _ (solid_closureExpr hr).each)⟩
  · split at hg <;> cases hg
    exact ⟨by decide, Each.append (Each.append filled_take (filled_argumentList hr _ _))
      (filled_expect _ _)⟩
  · split at hg <;> cases hg
    exact ⟨by decide, (solid_closureExpr hr).each⟩
  · cases hg
    exact ⟨by decide, filled_take⟩
  · cases hg
    exact ⟨by decide, filled_take⟩
  · cases hg
    exact ⟨by decide, filled_take⟩
  · cases hg

theorem filled_optionalMark : Each Filled optionalMark := Each.whenAtAny _ filled_take

theorem solid_operand (hr : r.Solid) (he : r.Expresses) (ρ : Restrictions) : Solid (operand r ρ) := by
  have hoperand : Each Filled (r.operand ρ) := Solid.each (hr (.operand ρ))
  refine Builds.peek fun s => Builds.ite ?_ (Builds.ite ?_ (Builds.ite ?_ ?_))
  · exact Solid.node (by decide) (.append .take hoperand)
  · exact Solid.node (by decide) (.append (.append .take filled_optionalMark) hoperand)
  · exact Solid.node (by decide) (.append .take hoperand)
  · exact Solid.withSuffixes (solid_primaryExpr hr he ρ) _ (filled_exprSuffix hr ρ)

theorem filled_operatorPart (hr : r.Solid) (ρ : Restrictions) (s : Input) :
    ∀ g ∈ operatorPart? r ρ s, Each Filled g := by
  have hoperand : Each Filled (r.operand ρ) := Solid.each (hr (.operand ρ))
  have htype : Each Filled r.type := Solid.each (hr .type)
  intro g hg
  unfold operatorPart? at hg
  split at hg
  · cases hg
    exact Each.append filled_take hoperand
  · split at hg <;> cases hg
    exact Each.append filled_take hoperand
  · cases hg
    exact Each.append (Solid.node (by decide) (.append (.append .take
      (Solid.each (hr (.expression _)))) (filled_expect _ _))).each hoperand
  · cases hg
    exact (Solid.node (by decide) (.append .take htype)).each
  · cases hg
    exact (Solid.node (by decide) (.append (.append .take filled_optionalMark) htype)).each
  · cases hg

theorem solid_expression (hr : r.Solid) (ρ : Restrictions) : Solid (expression r ρ) :=
  .nodeUnlessSingle (by decide) (.append (hr (.operand ρ)) (Each.repeated (filled_operatorPart hr ρ) _))

/-! ### Declarations -/

theorem filled_declModifiers (r : Level) : Each Filled (declModifiers r) := by
  have hmodifier : Solid declModifier :=
    .node (by decide) (.append .take (Each.onlyIf _ (filled_takeN _)))
  refine Each.repeated (fun s g hg => ?_) _
  split_ifs at hg <;> cases hg
  · exact solid_attributeUse.each
  · exact hmodifier.each

theorem solid_importDecl (r : Level) : Solid (importDecl r) := by
  refine Solid.append (.append (.append .take (Each.whenAtAny _ filled_take)) (filled_expect _ _)) ?_
  refine Each.repeated (fun s g hg => ?_) _
  split_ifs at hg <;> cases hg
  exact Each.append filled_take (Builds.peek fun _ => Builds.ite filled_take (Builds.expected _))

theorem solid_variableDecl (hr : r.Solid) : Solid (variableDecl r) := by
  have hbinding : Solid (patternBinding r) :=
    .append (.append (.append (hr .bindingPattern) (Each.whenAt _ (solid_typeAscription hr).each))
      (Each.whenAt _ (solid_initializerClause hr _).each)) (Each.whenAt _ (solid_codeBlock hr).each)
  exact .append .take (filled_list (by decide) hbinding hbinding _ _)

theorem solid_parameter (hr : r.Solid) : Solid (parameter r) := by
  have hattributes : Each Filled (repeated
      (fun s => if s.isAt .atSign then some attributeUse else none) r.bound) := by
    refine Each.repeated (fun s g hg => ?_) _
    split_ifs at hg <;> cases hg
    exact solid_attributeUse.each
  have hname : Solid (peek fun s => if s.kind.isName then take else expected "parameter name") :=
    Builds.peek fun _ => Builds.ite Solid.take (Builds.expected _)
  exact .append (.append (.append (.append (.append (.behind hattributes hname)
    (Each.onlyIf _ filled_take)) (filled_expect _ _)) (Solid.each (hr .type)))
    (Each.onlyIf _ filled_take)) (Each.whenAt _ (solid_initializerClause hr _).each)

theorem solid_functionSignature (hr : r.Solid) : Solid (functionSignature r) := by
  have hclause : Solid (parameterClause r) :=
    .node (by decide) (.append (.append (.expect _ _) (Each.onlyIf _
      (filled_list (by decide) (solid_parameter hr) (solid_parameter hr) _ _))) (filled_expect _ _))
  exact .node (by decide) (.append (.append (.append hclause (filled_eat _))
    (Each.whenAtAny _ filled_take)) (Each.whenAt _ (solid_returnClause hr).each))

theorem filled_optionalGenericParameters (hr : r.Solid) :
    Each Filled (optionalGenericParameters r) := by
  have hitem : Solid (expect .identifier "generic parameter name" ++
      whenAt .colon (take ++ r.type) ++ splitRightAngle) :=
    .append (.append (.expect _ _) (Each.whenAt _ (Each.append filled_take (Solid.each (hr .type)))))
      Each.splitRightAngle
  have hclause : Solid (genericParameterClause r) :=
    .node (by decide) (.append (.append (.takeAs _) (filled_list (by decide) hitem hitem _ _))
      filled_rightAngle)
  exact Each.onlyIf _ hclause.each

theorem solid_genericWhereClause (hr : r.Solid) : Solid (genericWhereClause r) := by
  have htype : Solid r.type := hr .type
  have hitem : Solid (r.type ++
      (peek fun s => if s.isAt .colon || s.isAtOperator "==" then take else expected "`:` or `==`") ++
      r.type) :=
    .append (.append htype (Builds.peek fun _ => Builds.ite filled_take (Builds.expected _)))
      htype.each
  exact .node (by decide) (.append .take (filled_list (by decide) hitem hitem _ _))

theorem filled_functionRest (hr : r.Solid) : Each Filled (functionRest r) :=
  Each.append (Each.append (Each.append (filled_optionalGenericParameters hr)
    (solid_functionSignature hr).each) (Each.whenAt _ (solid_genericWhereClause hr).each))
    (Each.whenAt _ (solid_codeBlock hr).each)

theorem solid_functionDecl (hr : r.Solid) : Solid (functionDecl r) :=
  .append (.append .take (Builds.peek fun _ => Builds.ite filled_take (Builds.expected _)))
    (filled_functionRest hr)

theorem solid_initializerDecl (hr : r.Solid) : Solid (initializerDecl r) :=
  .append (.append .take filled_optionalMark) (filled_functionRest hr)

theorem solid_typeDecl (hr : r.Solid) (isExtension : Bool) : Solid (typeDecl r isExtension) := by
  have htype : Solid r.type := hr .type
  have hinheritance : Solid (inheritanceClause r) :=
    .node (by decide) (.append .take (filled_list (by decide) htype htype _ _))
  refine .append (.append (.append (.append .take (Builds.ite htype.each ?_))
    (Each.whenAt _ hinheritance.each)) (Each.whenAt _ (solid_genericWhereClause hr).each))
    (solid_braced (by decide) hr).each
  exact Each.append (filled_expect _ _) (filled_optionalGenericParameters hr)

theorem solid_typeAliasDecl (hr : r.Solid) : Solid (typeAliasDecl r) :=
  .append (.append (.append (.append .take (filled_expect _ _))
    (filled_optionalGenericParameters hr)) (filled_expect _ _)) (Solid.each (hr .type))

theorem solid_enumCaseDecl (hr : r.Solid) : Solid (enumCaseDecl r) := by
  have hitem : Solid (expect .identifier "enum case name" ++ whenAt .leftParen (tupleType r) ++
      whenAt .equal (initializerClause r .free)) :=
    .append (.append (.expect _ _) (Each.whenAt _ (solid_tupleType hr).each))
      (Each.whenAt _ (solid_initializerClause hr _).each)
  exact .append .take (filled_list (by decide) hitem hitem _ _)

theorem solid_declaration (hr : r.Solid) : Solid (declaration r) := by
  refine Builds.capture (filled_declModifiers r) fun modifiers hmodifiers => Builds.peek fun s => ?_
  have hdecl : ∀ {k : SyntaxKind} {g : Grammar}, k.isFormed = false → Solid g →
      Solid (node k (emit modifiers ++ g)) :=
    fun hk hg => .node hk (.behind (Builds.emit hmodifiers) hg)
  dsimp only
  split
  · exact hdecl (by decide) (solid_importDecl r)
  · exact hdecl (by decide) (solid_variableDecl hr)
  · exact hdecl (by decide) (solid_variableDecl hr)
  · exact hdecl (by decide) (solid_functionDecl hr)
  · exact hdecl (by decide) (solid_initializerDecl hr)
  · exact hdecl (by decide) (solid_typeDecl hr false)
  · exact hdecl (by decide) (solid_typeDecl hr false)
  · exact hdecl (by decide) (solid_typeDecl hr false)
  · exact hdecl (by decide) (solid_typeDecl hr false)
  · exact hdecl (by decide) (solid_typeDecl hr true)
  · exact hdecl (by decide) (solid_typeAliasDecl hr)
  · exact hdecl (by decide) (solid_enumCaseDecl hr)
  · exact Builds.expected _

/-! ### Statements -/

theorem solid_jump (hk : k.isFormed = false) : Solid (jump k) :=
  .node hk (.append .take (Each.onlyIf _ filled_take))

theorem solid_guardStmt (hr : r.Solid) : Solid (guardStmt r) :=
  .node (by decide) (.append (.append (.append .take (filled_conditionList hr)) (filled_expect _ _))
    (solid_codeBlock hr).each)

theorem solid_whileStmt (hr : r.Solid) : Solid (whileStmt r) :=
  .node (by decide) (.append (.append .take (filled_conditionList hr)) (solid_codeBlock hr).each)

theorem solid_repeatStmt (hr : r.Solid) : Solid (repeatStmt r) :=
  .node (by decide) (.append (.append (.append .take (solid_codeBlock hr).each) (filled_expect _ _))
    (Solid.each (hr (.expression _))))

theorem filled_forPattern (hr : r.Solid) : Each Filled (forPattern r) := by
  have hbinding : Solid (node .valueBindingPattern (take ++ r.bindingPattern)) :=
    .node (by decide) (.append .take (Solid.each (hr .bindingPattern)))
  refine Builds.peek fun s => ?_
  split
  · exact Each.append filled_take (Solid.each (hr .pattern))
  · exact hbinding.each
  · exact hbinding.each
  · exact Solid.each (hr .bindingPattern)

theorem solid_forInStmt (hr : r.Solid) : Solid (forInStmt r) :=
  .node (by decide) (.append (.append (.append (.append (.append (.append (.append (.append .take
    (filled_eat _)) (filled_eat _)) (filled_forPattern hr))
    (Each.whenAt _ (solid_typeAscription hr).each)) (filled_expect _ _))
    (Solid.each (hr (.expression _)))) (Each.whenAt _ (solid_whereClause hr).each))
    (solid_codeBlock hr).each)

theorem solid_doStmt (hr : r.Solid) : Solid (doStmt r) := by
  have hcatch : Solid (catchClause r) :=
    .node (by decide) (.append (.append (.append .take (Each.onlyIf _ (Solid.each (hr .pattern))))
      (Each.whenAt _ (solid_whereClause hr).each)) (solid_codeBlock hr).each)
  refine .node (by decide) (.append (.append .take (solid_codeBlock hr).each) ?_)
  refine Each.repeated (fun s g hg => ?_) _
  split_ifs at hg <;> cases hg
  exact hcatch.each

theorem solid_statement (hr : r.Solid) : Solid (statement r) := by
  refine Builds.peek fun s => Builds.ite (solid_declaration hr) ?_
  split
  · exact solid_guardStmt hr
  · exact solid_whileStmt hr
  · exact solid_repeatStmt hr
  · exact solid_forInStmt hr
  · exact solid_doStmt hr
  · exact Solid.node (by decide) (.append .take (solid_codeBlock hr).each)
  · exact Solid.node (by decide) (.append .take (Each.onlyIf _ (Solid.each (hr (.expression _)))))
  · exact Solid.node (by decide) (.append .take (Solid.each (hr (.expression _))))
  · exact solid_jump (by decide)
  · exact solid_jump (by decide)
  · exact Solid.node (by decide) .take
  · exact Builds.ite (Builds.fail _) (hr (.expression _))

/-! ### Kinds of statements -/

theorem oneOf_collectionExpr (r : Level) : OneOf SyntaxKind.isExpression (collectionExpr r) := by
  refine Builds.capture (P := fun _ => True) (fun _ _ _ _ => trivial) fun opening _ =>
    Builds.peek fun s => Builds.ite (OneOf.node rfl _) (Builds.ite (OneOf.node rfl _) ?_)
  exact Builds.capture (P := fun _ => True) (fun _ _ _ _ => trivial) fun first _ =>
    Builds.peek fun _ => Builds.ite (OneOf.node rfl _) (OneOf.node rfl _)

theorem oneOf_primaryExpr (hr : r.Expresses) {ρ : Restrictions} (hρ : ρ.inPattern = false) :
    OneOf SyntaxKind.isExpression (primaryExpr r ρ) := by
  refine Builds.peek fun s => ?_
  split
  all_goals try exact OneOf.node rfl _
  · exact Builds.ite (Builds.fail _) (OneOf.node rfl _)
  · exact oneOf_collectionExpr r
  · exact hr .ifExpr rfl
  · rw [hρ, if_neg Bool.false_ne_true]
    exact Builds.expected _
  · rw [hρ, if_neg Bool.false_ne_true]
    exact Builds.expected _
  · rw [hρ, if_neg Bool.false_ne_true]
    exact Builds.expected _
  · exact Builds.ite (OneOf.node rfl _) (Builds.ite (OneOf.node rfl _) (Builds.expected _))

theorem isExpression_exprSuffix (r : Level) (ρ : Restrictions) (s : Input) (e : Element) :
    ∀ p ∈ exprSuffix? r ρ s e, p.1.isExpression = true := by
  intro p hp
  unfold exprSuffix? at hp
  split at hp <;> (try split at hp) <;> cases hp <;> rfl

theorem oneOf_operand (hr : r.Expresses) {ρ : Restrictions} (hρ : ρ.inPattern = false) :
    OneOf SyntaxKind.isExpression (operand r ρ) := by
  refine Builds.peek fun s => Builds.ite (OneOf.node rfl _) (Builds.ite (OneOf.node rfl _)
    (Builds.ite (OneOf.node rfl _) ?_))
  exact OneOf.withSuffixes (oneOf_primaryExpr hr hρ) _ (isExpression_exprSuffix r ρ)

theorem expresses_level (depth : Nat) : (level depth).Expresses := by
  induction depth with
  | zero => exact fun _ _ => Builds.fail _
  | succ depth ih =>
    have hunfold : ∀ p : Nonterminal, p.isExpression = true →
        OneOf SyntaxKind.isExpression (unfold (level depth) p) := by
      intro p hp
      cases p with
      | expression ρ => exact OneOf.nodeUnlessSingle rfl (ih (.operand ρ) hp)
      | operand ρ => exact oneOf_operand ih (by simpa [Nonterminal.isExpression] using hp)
      | ifExpr => exact OneOf.node rfl _
      | type | pattern | bindingPattern | codeBlockItem => cases hp
    exact fun p hp s es s' hrun => hunfold p hp hrun

theorem oneOf_declaration (r : Level) : OneOf SyntaxKind.isStatement (declaration r) := by
  refine Builds.capture (P := fun _ => True) (fun _ _ _ _ => trivial) fun modifiers _ =>
    Builds.peek fun s => ?_
  dsimp only
  split
  all_goals first | exact OneOf.node rfl _ | exact Builds.expected _

theorem oneOf_statement (hr : r.Expresses) : OneOf SyntaxKind.isStatement (statement r) := by
  have hexpression : OneOf SyntaxKind.isStatement (r.expression .free) :=
    (hr (.expression .free) rfl).imp fun es ⟨k, cs, hes, hk⟩ =>
      ⟨k, cs, hes, by rw [SyntaxKind.isStatement, hk, Bool.or_true]⟩
  refine Builds.peek fun s => Builds.ite (oneOf_declaration r) ?_
  split
  all_goals try exact OneOf.node rfl _
  exact Builds.ite (Builds.fail _) hexpression

/-! ### Levels -/

theorem solid_codeBlockItem (hr : r.Solid) (he : r.Expresses) : Solid (codeBlockItem r) := by
  have hstatement : Builds (fun es => ∃ j cs, es = [.node j cs] ∧ j.isStatement = true ∧
      Element.Solid [.node j cs]) (statement r) :=
    ((solid_statement hr).both (oneOf_statement he)).imp fun es ⟨hsolid, j, cs, hes, hj⟩ =>
      ⟨j, cs, hes, hj, hes ▸ hsolid⟩
  have heat : Builds (fun es => es = [] ∨ ∃ t : Token, t.kind = .semicolon ∧ es = [.token t])
      (eat .semicolon) :=
    Builds.takeIf (fun s t hat hkind => .inr ⟨t, hkind.trans (eq_of_beq hat), rfl⟩)
      (Builds.emit (.inl rfl))
  refine Builds.node (Builds.append hstatement heat (T := fun es => ∃ j cs rest,
    es = .node j cs :: rest ∧ j.isStatement = true ∧ Element.Solid [.node j cs] ∧
      (rest = [] ∨ ∃ t : Token, t.kind = .semicolon ∧ rest = [.token t])) ?_) ?_
  · rintro es fs ⟨j, cs, rfl, hj, hsolid⟩ hfs
    exact ⟨j, cs, fs, rfl, hj, hsolid, hfs⟩
  · rintro es ⟨j, cs, rest, rfl, hj, ⟨hfilled, hleaves⟩, hrest⟩
    refine ⟨List.forall_mem_singleton.mpr (.item hj (List.forall_mem_singleton.mp hfilled) hrest), ?_⟩
    have hleaves : Element.leavesAll cs ≠ [] := by simpa using hleaves
    simp [hleaves]

theorem solid_unfold (hr : r.Solid) (he : r.Expresses) (p : Nonterminal) : Solid (unfold r p) := by
  cases p with
  | type => exact solid_type hr
  | expression ρ => exact solid_expression hr ρ
  | operand ρ => exact solid_operand hr he ρ
  | ifExpr => exact solid_ifExpr hr
  | pattern => exact solid_pattern hr
  | bindingPattern => exact solid_bindingPattern hr
  | codeBlockItem => exact solid_codeBlockItem hr he

theorem solid_level (depth : Nat) : (level depth).Solid := by
  induction depth with
  | zero => exact fun _ => Builds.fail _
  | succ depth ih => exact fun p s es s' hrun => solid_unfold ih (expresses_level depth) p hrun

theorem filled_fileItems (hr : r.Solid) : Each Filled (fileItems r) := by
  refine Each.repeated (fun s g hg => ?_) _
  split_ifs at hg <;> cases hg
  · exact Builds.fail _
  · exact Solid.each (hr .codeBlockItem)

end Grammar

variable {source : String} {tree : Element}

theorem filled_parse (h : parse source = .ok tree) : tree.Filled := by
  obtain ⟨ts, items, s, -, hitems, rfl⟩ := parse_eq_ok h
  have hfilled := Grammar.filled_fileItems (Grammar.solid_level _) hitems
  exact (Element.Solid.behind hfilled (Element.solid_token s.endOfFile)).filled (by decide)

theorem filled_of_mem_descendants {x : Cursor} (h : parse source = .ok tree)
    (hx : x ∈ (Cursor.root tree).descendants) : x.element.Filled := by
  obtain ⟨hplaced, hroot⟩ := Cursor.isPlaced_of_mem_descendants hx
  exact hplaced.of_rootElement (fun k es hnode => hnode.children) (hroot ▸ filled_parse h)

/-- The statements of a file, and the end of the file behind them. -/
theorem exists_items_of_parse (h : parse source = .ok tree) :
    ∃ items t, tree = .node .sourceFile (items ++ [.token t]) ∧ t.kind = .endOfFile ∧
      ∀ e ∈ items, ∃ es, e = .node .codeBlockItem es := by
  obtain ⟨ts, items, s, hts, hitems, rfl⟩ := parse_eq_ok h
  have hassembled := Grammar.assembled_fileItems (Grammar.assembled_level (depthFor source.utf8ByteSize))
  refine ⟨items, s.endOfFile, rfl, ?_, Grammar.fileItems_codeBlockItem _ hitems⟩
  rw [(hassembled.kept hitems).endOfFile]
  exact (Lexer.tokens_isWord hts).2

/-- **The nodes of a syntax tree.**  Leaves have the kinds of tokens and inner nodes those of nodes.  The
file is made of items and the end of the file.  Wherever an item is, it is one declaration, one statement or
one expression, with a semicolon behind it or none, and no node but a list of arguments is without leaves. -/
theorem nodes_parse (h : parse source = .ok tree) :
    tree.WellKinded ∧
    (∃ items t, tree = .node .sourceFile (items ++ [.token t]) ∧ t.kind = .endOfFile ∧
      ∀ e ∈ items, ∃ es, e = .node .codeBlockItem es) ∧
    ∀ x ∈ (Cursor.root tree).descendants,
      (∀ t, x.element = .token t → t.kind.isToken = true) ∧
      ∀ k es, x.element = .node k es → k.isNode = true ∧
        (k = .codeBlockItem → ∃ j cs, j.isStatement = true ∧
          (es = [.node j cs] ∨ ∃ t : Token, t.kind = .semicolon ∧ es = [.node j cs, .token t])) ∧
        (Element.leavesAll es = [] → k = .argumentList) := by
  refine ⟨wellKinded_parse h, exists_items_of_parse h, fun x hx => ?_⟩
  have hkinded := wellKinded_of_mem_descendants h hx
  have hfilled := filled_of_mem_descendants h hx
  refine ⟨fun t ht => ?_, fun k es hnode => ?_⟩
  · rw [ht, Element.wellKinded_token] at hkinded
    exact hkinded
  · rw [hnode] at hkinded hfilled
    refine ⟨?_, ?_, fun hleaves => ?_⟩
    · exact ((Element.wellKinded_node _ _).mp hkinded).1
    · rintro rfl
      exact hfilled.exists_statement
    · exact Decidable.not_not.mp fun hk => hfilled.leavesAll_ne_nil hk hleaves

/-- A call without arguments, which has a list of arguments without leaves. -/
theorem nodes_parse_noArguments : ∃ tree, parse "f();\n" = .ok tree ∧ tree.WellKinded ∧
    ∃ x ∈ (Cursor.root tree).descendants, x.element = .node .argumentList [] := by
  have hfound : (parse "f();\n").toOption.any (fun tree => (Cursor.root tree).descendants.any fun x =>
      x.element.kind == .argumentList && x.element.children.isEmpty) = true := by decide +kernel
  obtain ⟨tree, htree, hany⟩ := (Option.any_eq_true _ _).mp hfound
  have h := Except.toOption_eq_some.mp htree
  obtain ⟨x, hx, hempty⟩ := List.any_eq_true.mp hany
  rw [Bool.and_eq_true, beq_iff_eq, List.isEmpty_iff] at hempty
  obtain ⟨hkinds, -, hnodes⟩ := nodes_parse h
  refine ⟨tree, h, hkinds, x, hx, ?_⟩
  cases he : x.element with
  | token t =>
    -- no token has this kind
    have htoken := (hnodes x hx).1 t he
    rw [he] at hempty
    rw [show t.kind = .argumentList from hempty.1] at htoken
    cases htoken
  | node k es =>
    rw [he] at hempty
    obtain ⟨hk, hes⟩ := hempty
    rw [show k = .argumentList from hk, show es = [] from hes]

end SwiftTidy
