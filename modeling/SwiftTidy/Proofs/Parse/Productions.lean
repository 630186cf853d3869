import SwiftTidy.Parse.SourceFile
import SwiftTidy.Proofs.Parse.Assembled
import SwiftTidy.Text.Offset

/-!
# Every production is put together from basic steps

One statement for each production, in the order in which they are defined, over a level of which
it is assumed; the levels are then stacked up by induction on the depth (`assembled_level`).
Nothing is said here about what a production accepts: a lookahead chooses between grammars, and
every one of them places what it was given.

So syntax trees are lossless (`parse_lossless`): the tree of a source renders to the source, and the
end-of-file token is its last leaf and the only one of its kind.  The tokens of the source spell it
(`Lexer.spell_tokens`), the statements of a file keep what the tokens spell
(`Grammar.Assembled.kept`), and the loop over them ends only where no token is left
(`run_fileItems`).  Then the end-of-file token is placed, which is the one leaf that no basic step
places.
-/

namespace SwiftTidy

namespace Grammar

variable {r : Level}

/-! ### Attributes -/

theorem assembled_balancedParens : Assembled [] balancedParens := by
  refine .peek fun s => ?_
  split
  · exact .takeN _
  · exact .fail [] _ fun _ => Or.inr rfl

theorem assembled_attributeUse : Assembled [] attributeUse := by
  refine .node rfl (.append (.append (.expect _ _) ?_) (.onlyIf _ assembled_balancedParens))
  exact .peek fun _ => .ite .take (.expected _ _)

/-! ### Types -/

theorem assembled_typeAscription (hr : r.Assembled) : Assembled [] (typeAscription r) :=
  .node rfl (.append (.expect _ _) (hr .type))

theorem assembled_initializerClause (hr : r.Assembled) (ρ : Restrictions) :
    Assembled [] (initializerClause r ρ) :=
  .node rfl (.append (.expect _ _) (hr (.expression ρ)))

theorem assembled_returnClause (hr : r.Assembled) : Assembled [] (returnClause r) :=
  .node rfl (.append (.expect _ _) (hr .type))

theorem assembled_rightAngle : Assembled [] rightAngle :=
  .append .splitRightAngle (.peek fun _ => .ite (.takeAs _ (by decide) (by decide)) (.expected _ _))

theorem assembled_genericArgumentClause (hr : r.Assembled) :
    Assembled [] (genericArgumentClause r) := by
  have hargument : Assembled [] (r.type ++ splitRightAngle) := .append (hr .type) .splitRightAngle
  refine .node rfl (.append (.append ?_ ?_) assembled_rightAngle)
  · exact .takeAs _ (by decide) (by decide)
  · exact .commaSeparated rfl _ hargument

theorem assembled_tupleTypeElement (hr : r.Assembled) : Assembled [] (tupleTypeElement r) := by
  refine .append (.append (.append ?_ (hr .type)) (.onlyIf _ .take)) ?_
  · exact .peek fun _ => .ite (.takeN _) (.ite (.takeN _) .nothing)
  · exact .whenAt _ (assembled_initializerClause hr _)

theorem assembled_tupleType (hr : r.Assembled) : Assembled [] (tupleType r) := by
  refine .node rfl (.append (.append (.expect _ _) ?_) (.expect _ _))
  exact .commaSeparatedUntil _ rfl _ (assembled_tupleTypeElement hr)

theorem assembled_functionTypeRest (hr : r.Assembled) : Assembled [] (functionTypeRest r) :=
  .append (.append (.eat _) (.whenAtAny _ .take)) (assembled_returnClause hr)

theorem assembled_primaryType (hr : r.Assembled) : Assembled [] (primaryType r) := by
  refine .peek fun s => ?_
  split
  · exact .node rfl (.append .take (.onlyIf _ (assembled_genericArgumentClause hr)))
  · exact .node rfl (.append .take (.onlyIf _ (assembled_genericArgumentClause hr)))
  · -- The bracket and the first type are held until what follows tells the kind of the node.
    refine .captured (.append .take (hr .type)) fun es => .peek fun _ => .ite ?_ ?_
    · exact .node rfl (.append (.append (.append (.emit es) .take) (hr .type)) (.expect _ _))
    · exact .node rfl (.append (.emit es) (.expect _ _))
  · refine .captured (assembled_tupleType hr) fun es => .peek fun _ => .ite ?_ (.emit es)
    exact .node rfl (.append (.emit es) (assembled_functionTypeRest hr))
  · exact .expected _ _

theorem assembled_typeSuffix (hr : r.Assembled) (s : Input) (e : Element) :
    ∀ p ∈ typeSuffix? r s e, p.1.isNode = true ∧ Assembled [] p.2 := by
  intro p hp
  unfold typeSuffix? at hp
  split at hp
  · cases hp
    exact ⟨rfl, .take⟩
  · cases hp
    exact ⟨rfl, .take⟩
  · split at hp <;> cases hp
    exact ⟨rfl, .append (.takeN _) (.onlyIf _ (assembled_genericArgumentClause hr))⟩
  · cases hp

theorem assembled_type (hr : r.Assembled) : Assembled [] (type r) := by
  refine .peek fun s => .ite ?_ (.ite ?_ (.ite ?_ ?_))
  · exact .node rfl (.append assembled_attributeUse (hr .type))
  · exact .node rfl (.append .take (hr .type))
  · exact .node rfl (.append .take (hr .type))
  · exact .withSuffixes (assembled_primaryType hr) _ (assembled_typeSuffix hr)

/-! ### Patterns -/

theorem assembled_bindingPattern (hr : r.Assembled) : Assembled [] (bindingPattern r) := by
  refine .peek fun s => ?_
  split
  · exact .node rfl .take
  · exact .node rfl .take
  · refine .node rfl (.append (.append .take ?_) (.expect _ _))
    exact .commaSeparatedUntil _ rfl _ (hr .bindingPattern)
  · exact .expected _ _

theorem assembled_pattern (hr : r.Assembled) : Assembled [] (pattern r) := by
  refine .peek fun s => .ite ?_ (.ite ?_ (.ite ?_ ?_))
  · exact .node rfl (.append .take (hr .pattern))
  · exact .node rfl .take
  · exact .node rfl .take
  · exact .node rfl (hr (.expression _))

/-! ### Blocks and branches -/

theorem assembled_blockItems (hr : r.Assembled) : Assembled [] (blockItems r) := by
  refine .repeated (fun s g hg => ?_) _
  split_ifs at hg <;> cases hg
  · exact .expected _ _
  · exact hr .codeBlockItem

theorem assembled_braced {k : SyntaxKind} (hk : k.isNode = true) (hr : r.Assembled) :
    Assembled [] (braced k r) :=
  .node hk (.append (.append (.expect _ _) (assembled_blockItems hr)) .take)

theorem assembled_codeBlock (hr : r.Assembled) : Assembled [] (codeBlock r) :=
  assembled_braced rfl hr

theorem assembled_whereClause (hr : r.Assembled) : Assembled [] (whereClause r) :=
  .node rfl (.append .take (hr (.expression _)))

theorem assembled_condition (hr : r.Assembled) : Assembled [] (condition r) := by
  have hbinding : Assembled [] (take ++ r.bindingPattern ++ whenAt .colon (typeAscription r) ++
      whenAt .equal (initializerClause r .condition)) := by
    refine .append (.append (.append .take (hr .bindingPattern)) ?_) ?_
    · exact .whenAt _ (assembled_typeAscription hr)
    · exact .whenAt _ (assembled_initializerClause hr _)
  refine .peek fun s => ?_
  split
  · exact .node rfl hbinding
  · exact .node rfl hbinding
  · exact .append (.append .take (hr .pattern)) (assembled_initializerClause hr _)
  · exact hr (.expression _)

theorem assembled_conditionList (hr : r.Assembled) : Assembled [] (conditionList r) :=
  .commaSeparated rfl _ (assembled_condition hr)

theorem assembled_ifExpr (hr : r.Assembled) : Assembled [] (ifExpr r) := by
  refine .node rfl (.append (.append (.append .take ?_) ?_) (.whenAt _ (.append .take ?_)))
  · exact assembled_conditionList hr
  · exact assembled_codeBlock hr
  · exact .peek fun _ => .ite (hr .ifExpr) (assembled_codeBlock hr)

theorem assembled_switchCaseLabel (hr : r.Assembled) : Assembled [] (switchCaseLabel r) := by
  refine .node rfl (.append (.append .take (.commaSeparated rfl _ ?_)) (.expect _ _))
  exact .append (hr .pattern) (.whenAt _ (assembled_whereClause hr))

theorem assembled_switchCase (hr : r.Assembled) : Assembled [] (switchCase r) := by
  refine .node rfl (.append (.append (.onlyIf _ assembled_attributeUse) ?_) ?_)
  · refine .peek fun s => ?_
    split
    · exact assembled_switchCaseLabel hr
    · exact .node rfl (.append .take (.expect _ _))
    · exact .expected _ _
  · refine .repeated (fun s g hg => ?_) _
    split_ifs at hg <;> cases hg
    · exact .expected _ _
    · exact hr .codeBlockItem

theorem assembled_switchExpr (hr : r.Assembled) : Assembled [] (switchExpr r) := by
  refine .node rfl (.append (.append (.append (.append .take ?_) (.expect _ _)) ?_) .take)
  · exact hr (.expression _)
  · refine .repeated (fun s g hg => ?_) _
    split_ifs at hg <;> cases hg
    exact assembled_switchCase hr

/-! ### Expressions -/

theorem assembled_argumentList (hr : r.Assembled) (close : SyntaxKind) (inPattern : Bool) :
    Assembled [] (argumentList r close inPattern) := by
  refine .node rfl (.commaSeparatedUntil _ rfl _ (.append (.onlyIf _ (.takeN _)) ?_))
  exact .onlyIf _ (hr (.expression _))

theorem assembled_closureExpr (hr : r.Assembled) : Assembled [] (closureExpr r) := by
  refine .node rfl (.append (.append (.append (.expect _ _) ?_) (assembled_blockItems hr)) .take)
  refine .peek fun s => ?_
  split
  · exact .node rfl (.takeN _)
  · exact .nothing

/-- The pairs of a dictionary, the key of the first of which waits for them. -/
def pairs (r : Level) (first : List Element) : Grammar :=
  commaList .dictionaryElement (·.isAt .rightBracket)
    (r.expression .free ++ (expect .colon "`:`" ++ r.expression .free)) r.bound
    (emit first ++ (expect .colon "`:`" ++ r.expression .free))

/-- The values of an array, the first of which waits for them. -/
def values (r : Level) (first : List Element) : Grammar :=
  commaList .arrayElement (·.isAt .rightBracket) (r.expression .free) r.bound (emit first)

/-- What stands behind a bracket and a first value, which wait for it. -/
def collectionRest (r : Level) (opening first : List Element) : Grammar :=
  peek fun s =>
    if s.isAt .colon then
      node .dictionaryExpr (emit opening ++ pairs r first ++ expect .rightBracket "`]`")
    else node .arrayExpr (emit opening ++ values r first ++ expect .rightBracket "`]`")

/-- What stands behind a bracket, which waits for it. -/
def collectionBehind (r : Level) (opening : List Element) : Grammar :=
  peek fun s =>
    if s.isAt .colon && s.kindAt 1 == .rightBracket then node .dictionaryExpr (emit opening ++ takeN 2)
    else if s.isAt .rightBracket then node .arrayExpr (emit opening ++ take)
    else (r.expression .free).capture (collectionRest r opening)

theorem collectionExpr_eq : collectionExpr r = take.capture (collectionBehind r) := rfl

theorem assembled_pairs (hr : r.Assembled) (first : List Element) : Assembled first (pairs r first) :=
  have hbehind : Assembled [] (expect .colon "`:`" ++ r.expression .free) :=
    .append (.expect _ _) (hr (.expression _))
  .commaList rfl _ (.append (hr (.expression _)) hbehind) _ (.append (.emit first) hbehind)

theorem assembled_values (hr : r.Assembled) (first : List Element) : Assembled first (values r first) :=
  .commaList rfl _ (hr (.expression _)) _ (.emit first)

theorem assembled_collectionRest (hr : r.Assembled) (opening first : List Element) :
    Assembled (opening ++ first) (collectionRest r opening first) :=
  .peek fun _ => .ite (.node rfl (.append (.emitFront opening (assembled_pairs hr first)) (.expect _ _)))
    (.node rfl (.append (.emitFront opening (assembled_values hr first)) (.expect _ _)))

theorem assembled_collectionBehind (hr : r.Assembled) (opening : List Element) :
    Assembled opening (collectionBehind r opening) :=
  .peek fun _ => .ite (.node rfl (.append (.emit opening) (.takeN _)))
    (.ite (.node rfl (.append (.emit opening) .take))
      (.capturedBehind (hr (.expression _)) (assembled_collectionRest hr opening)))

/-- The bracket is held while the first value is read, and both behind it. -/
theorem assembled_collectionExpr (hr : r.Assembled) : Assembled [] (collectionExpr r) :=
  .captured .take (assembled_collectionBehind hr)

theorem assembled_memberName : Assembled [] memberName :=
  .peek fun _ => .ite .take (.expected _ _)

theorem assembled_conditionalCompilation (held : List Element) :
    Assembled held conditionalCompilation :=
  .fail held _ fun _ => Or.inl rfl

theorem assembled_primaryExpr (hr : r.Assembled) (ρ : Restrictions) :
    Assembled [] (primaryExpr r ρ) := by
  refine .peek fun s => ?_
  split
  all_goals try exact .node rfl .take
  · exact .ite (assembled_conditionalCompilation _) (.node rfl .take)
  · exact .node rfl (.append .take assembled_memberName)
  · refine .node rfl (.append (.append .take ?_) (.expect _ _))
    exact assembled_argumentList hr _ _
  · exact assembled_collectionExpr hr
  · exact assembled_closureExpr hr
  · exact hr .ifExpr
  · exact assembled_switchExpr hr
  · exact .ite (hr .pattern) (.expected _ _)
  · exact .ite (hr .pattern) (.expected _ _)
  · exact .ite (.node rfl (.append .take (hr .type))) (.expected _ _)
  · exact .ite (.node rfl .take) (.ite (.node rfl .take) (.expected _ _))

theorem assembled_exprSuffix (hr : r.Assembled) (ρ : Restrictions) (s : Input) (e : Element) :
    ∀ p ∈ exprSuffix? r ρ s e, p.1.isNode = true ∧ Assembled [] p.2 := by
  intro p hp
  unfold exprSuffix? at hp
  split at hp
  · cases hp
    exact ⟨rfl, .append .take assembled_memberName⟩
  · split at hp <;> cases hp
    refine ⟨rfl, .append (.append (.append .take ?_) (.expect _ _)) (.onlyIf _ ?_)⟩
    · exact assembled_argumentList hr _ _
    · exact assembled_closureExpr hr
  · split at hp <;> cases hp
    exact ⟨rfl, .append (.append .take (assembled_argumentList hr _ _)) (.expect _ _)⟩
  · split at hp <;> cases hp
    exact ⟨rfl, assembled_closureExpr hr⟩
  · cases hp
    exact ⟨rfl, .take⟩
  · cases hp
    exact ⟨rfl, .take⟩
  · cases hp
    exact ⟨rfl, .take⟩
  · cases hp

theorem assembled_optionalMark : Assembled [] optionalMark := .whenAtAny _ .take

theorem assembled_operand (hr : r.Assembled) (ρ : Restrictions) :
    Assembled [] (operand r ρ) := by
  refine .peek fun s => .ite ?_ (.ite ?_ (.ite ?_ ?_))
  · exact .node rfl (.append .take (hr (.operand ρ)))
  · exact .node rfl (.append (.append .take assembled_optionalMark) (hr (.operand ρ)))
  · exact .node rfl (.append .take (hr (.operand ρ)))
  · exact .withSuffixes (assembled_primaryExpr hr ρ) _ (assembled_exprSuffix hr ρ)

theorem assembled_operatorPart (hr : r.Assembled) (ρ : Restrictions) (s : Input) :
    ∀ g ∈ operatorPart? r ρ s, Assembled [] g := by
  intro g hg
  unfold operatorPart? at hg
  split at hg
  · cases hg
    exact .append .take (hr (.operand ρ))
  · split at hg <;> cases hg
    exact .append .take (hr (.operand ρ))
  · cases hg
    refine .append (.node rfl (.append (.append .take ?_) (.expect _ _))) (hr (.operand ρ))
    exact hr (.expression _)
  · cases hg
    exact .node rfl (.append .take (hr .type))
  · cases hg
    exact .node rfl (.append (.append .take assembled_optionalMark) (hr .type))
  · cases hg

theorem assembled_expression (hr : r.Assembled) (ρ : Restrictions) :
    Assembled [] (expression r ρ) :=
  .nodeUnlessSingle rfl (.append (hr (.operand ρ)) (.repeated (assembled_operatorPart hr ρ) _))

/-! ### Declarations -/

theorem assembled_declModifier : Assembled [] declModifier :=
  .node rfl (.append .take (.onlyIf _ (.takeN _)))

theorem assembled_declModifiers (r : Level) : Assembled [] (declModifiers r) := by
  refine .repeated (fun s g hg => ?_) _
  split_ifs at hg <;> cases hg
  · exact assembled_attributeUse
  · exact assembled_declModifier

theorem assembled_importDecl (r : Level) : Assembled [] (importDecl r) := by
  refine .append (.append (.append .take (.whenAtAny _ .take)) (.expect _ _)) ?_
  refine .repeated (fun s g hg => ?_) _
  split_ifs at hg <;> cases hg
  exact .append .take (.peek fun _ => .ite .take (.expected _ _))

theorem assembled_patternBinding (hr : r.Assembled) : Assembled [] (patternBinding r) := by
  refine .append (.append (.append (hr .bindingPattern) ?_) ?_) ?_
  · exact .whenAt _ (assembled_typeAscription hr)
  · exact .whenAt _ (assembled_initializerClause hr _)
  · exact .whenAt _ (assembled_codeBlock hr)

theorem assembled_variableDecl (hr : r.Assembled) : Assembled [] (variableDecl r) :=
  .append .take (.commaSeparated rfl _ (assembled_patternBinding hr))

theorem assembled_parameter (hr : r.Assembled) : Assembled [] (parameter r) := by
  have hattributes : Assembled [] (repeated
      (fun s => if s.isAt .atSign then some attributeUse else none) r.bound) := by
    refine .repeated (fun s g hg => ?_) _
    split_ifs at hg <;> cases hg
    exact assembled_attributeUse
  refine .append (.append (.append (.append (.append (.append hattributes ?_) ?_) (.expect _ _))
    (hr .type)) (.onlyIf _ .take)) ?_
  · exact .peek fun _ => .ite .take (.expected _ _)
  · exact .onlyIf _ .take
  · exact .whenAt _ (assembled_initializerClause hr _)

theorem assembled_parameterClause (hr : r.Assembled) : Assembled [] (parameterClause r) := by
  refine .node rfl (.append (.append (.expect _ _) ?_) (.expect _ _))
  exact .commaSeparatedUntil _ rfl _ (assembled_parameter hr)

theorem assembled_functionSignature (hr : r.Assembled) : Assembled [] (functionSignature r) := by
  refine .node rfl (.append (.append (.append ?_ (.eat _)) (.whenAtAny _ .take)) ?_)
  · exact assembled_parameterClause hr
  · exact .whenAt _ (assembled_returnClause hr)

theorem assembled_genericParameterClause (hr : r.Assembled) :
    Assembled [] (genericParameterClause r) := by
  refine .node rfl (.append (.append (.takeAs _ (by decide) (by decide)) ?_) assembled_rightAngle)
  refine .commaSeparated rfl _ (.append (.append (.expect _ _) ?_) .splitRightAngle)
  exact .whenAt _ (.append .take (hr .type))

theorem assembled_genericWhereClause (hr : r.Assembled) :
    Assembled [] (genericWhereClause r) := by
  refine .node rfl (.append .take (.commaSeparated rfl _ ?_))
  refine .append (.append (hr .type) ?_) (hr .type)
  exact .peek fun _ => .ite .take (.expected _ _)

theorem assembled_optionalGenericParameters (hr : r.Assembled) :
    Assembled [] (optionalGenericParameters r) :=
  .onlyIf _ (assembled_genericParameterClause hr)

theorem assembled_functionRest (hr : r.Assembled) : Assembled [] (functionRest r) := by
  refine .append (.append (.append ?_ ?_) ?_) ?_
  · exact assembled_optionalGenericParameters hr
  · exact assembled_functionSignature hr
  · exact .whenAt _ (assembled_genericWhereClause hr)
  · exact .whenAt _ (assembled_codeBlock hr)

theorem assembled_functionDecl (hr : r.Assembled) : Assembled [] (functionDecl r) := by
  refine .append (.append .take ?_) (assembled_functionRest hr)
  exact .peek fun _ => .ite .take (.expected _ _)

theorem assembled_initializerDecl (hr : r.Assembled) : Assembled [] (initializerDecl r) :=
  .append (.append .take assembled_optionalMark) (assembled_functionRest hr)

theorem assembled_inheritanceClause (hr : r.Assembled) : Assembled [] (inheritanceClause r) :=
  .node rfl (.append .take (.commaSeparated rfl _ (hr .type)))

theorem assembled_typeDecl (hr : r.Assembled) (isExtension : Bool) :
    Assembled [] (typeDecl r isExtension) := by
  refine .append (.append (.append (.append .take (.ite (hr .type) ?_)) ?_) ?_) ?_
  · exact .append (.expect _ _) (assembled_optionalGenericParameters hr)
  · exact .whenAt _ (assembled_inheritanceClause hr)
  · exact .whenAt _ (assembled_genericWhereClause hr)
  · exact assembled_braced rfl hr

theorem assembled_typeAliasDecl (hr : r.Assembled) : Assembled [] (typeAliasDecl r) := by
  refine .append (.append (.append (.append .take (.expect _ _)) ?_) (.expect _ _)) (hr .type)
  exact assembled_optionalGenericParameters hr

theorem assembled_enumCaseDecl (hr : r.Assembled) : Assembled [] (enumCaseDecl r) := by
  refine .append .take (.commaSeparated rfl _ (.append (.append (.expect _ _) ?_) ?_))
  · exact .whenAt _ (assembled_tupleType hr)
  · exact .whenAt _ (assembled_initializerClause hr _)

/-- What stands behind the modifiers of a declaration, which wait for the keyword. -/
def declarationBehind (r : Level) (modifiers : List Element) : Grammar :=
  peek fun s =>
    let decl (k : SyntaxKind) (g : Grammar) : Grammar := node k (emit modifiers ++ g)
    match s.kind with
    | .importKw => decl .importDecl (importDecl r)
    | .letKw | .varKw => decl .variableDecl (variableDecl r)
    | .funcKw => decl .functionDecl (functionDecl r)
    | .initKw => decl .initializerDecl (initializerDecl r)
    | .structKw => decl .structDecl (typeDecl r false)
    | .classKw => decl .classDecl (typeDecl r false)
    | .enumKw => decl .enumDecl (typeDecl r false)
    | .protocolKw => decl .protocolDecl (typeDecl r false)
    | .extensionKw => decl .extensionDecl (typeDecl r true)
    | .typealiasKw => decl .typeAliasDecl (typeAliasDecl r)
    | .caseKw => decl .enumCaseDecl (enumCaseDecl r)
    | _ => expected "declaration"

theorem declaration_eq : declaration r = (declModifiers r).capture (declarationBehind r) := rfl

/-- The modifiers are held until the keyword behind them tells the kind of the declaration. -/
theorem assembled_declarationBehind (hr : r.Assembled) (modifiers : List Element) :
    Assembled modifiers (declarationBehind r modifiers) := by
  have hdecl : ∀ {k : SyntaxKind} {g : Grammar}, k.isNode = true → Assembled [] g →
      Assembled modifiers (node k (emit modifiers ++ g)) :=
    fun hk hg => .node hk (.append (.emit modifiers) hg)
  refine .peek fun s => ?_
  dsimp only
  split
  · exact hdecl rfl (assembled_importDecl r)
  · exact hdecl rfl (assembled_variableDecl hr)
  · exact hdecl rfl (assembled_variableDecl hr)
  · exact hdecl rfl (assembled_functionDecl hr)
  · exact hdecl rfl (assembled_initializerDecl hr)
  · exact hdecl rfl (assembled_typeDecl hr _)
  · exact hdecl rfl (assembled_typeDecl hr _)
  · exact hdecl rfl (assembled_typeDecl hr _)
  · exact hdecl rfl (assembled_typeDecl hr _)
  · exact hdecl rfl (assembled_typeDecl hr _)
  · exact hdecl rfl (assembled_typeAliasDecl hr)
  · exact hdecl rfl (assembled_enumCaseDecl hr)
  · exact .expected _ _

theorem assembled_declaration (hr : r.Assembled) : Assembled [] (declaration r) :=
  .captured (assembled_declModifiers r) (assembled_declarationBehind hr)

/-! ### Statements -/

theorem assembled_jump {k : SyntaxKind} (hk : k.isNode = true) : Assembled [] (jump k) :=
  .node hk (.append .take (.onlyIf _ .take))

theorem assembled_guardStmt (hr : r.Assembled) : Assembled [] (guardStmt r) := by
  refine .node rfl (.append (.append (.append .take ?_) (.expect _ _)) ?_)
  · exact assembled_conditionList hr
  · exact assembled_codeBlock hr

theorem assembled_whileStmt (hr : r.Assembled) : Assembled [] (whileStmt r) :=
  .node rfl (.append (.append .take (assembled_conditionList hr)) (assembled_codeBlock hr))

theorem assembled_repeatStmt (hr : r.Assembled) : Assembled [] (repeatStmt r) := by
  refine .node rfl (.append (.append (.append .take ?_) (.expect _ _)) (hr (.expression _)))
  exact assembled_codeBlock hr

theorem assembled_forPattern (hr : r.Assembled) : Assembled [] (forPattern r) := by
  refine .peek fun s => ?_
  split
  · exact .append .take (hr .pattern)
  · exact .node rfl (.append .take (hr .bindingPattern))
  · exact .node rfl (.append .take (hr .bindingPattern))
  · exact hr .bindingPattern

theorem assembled_forInStmt (hr : r.Assembled) : Assembled [] (forInStmt r) := by
  have hfront : Assembled [] (take ++ eat .tryKw ++ eat .awaitKw ++ forPattern r) :=
    .append (.append (.append .take (.eat _)) (.eat _)) (assembled_forPattern hr)
  refine .node rfl (.append (.append (.append (.append (.append hfront ?_) (.expect _ _))
    (hr (.expression _))) ?_) ?_)
  · exact .whenAt _ (assembled_typeAscription hr)
  · exact .whenAt _ (assembled_whereClause hr)
  · exact assembled_codeBlock hr

theorem assembled_catchClause (hr : r.Assembled) : Assembled [] (catchClause r) := by
  refine .node rfl (.append (.append (.append .take (.onlyIf _ (hr .pattern))) ?_) ?_)
  · exact .whenAt _ (assembled_whereClause hr)
  · exact assembled_codeBlock hr

theorem assembled_doStmt (hr : r.Assembled) : Assembled [] (doStmt r) := by
  refine .node rfl (.append (.append .take (assembled_codeBlock hr)) ?_)
  refine .repeated (fun s g hg => ?_) _
  split_ifs at hg <;> cases hg
  exact assembled_catchClause hr

theorem assembled_statement (hr : r.Assembled) : Assembled [] (statement r) := by
  refine .peek fun s => .ite (assembled_declaration hr) ?_
  split
  · exact assembled_guardStmt hr
  · exact assembled_whileStmt hr
  · exact assembled_repeatStmt hr
  · exact assembled_forInStmt hr
  · exact assembled_doStmt hr
  · exact .node rfl (.append .take (assembled_codeBlock hr))
  · exact .node rfl (.append .take (.onlyIf _ (hr (.expression _))))
  · exact .node rfl (.append .take (hr (.expression _)))
  · exact assembled_jump rfl
  · exact assembled_jump rfl
  · exact .node rfl .take
  · exact .ite (assembled_conditionalCompilation _) (hr (.expression _))

theorem assembled_codeBlockItem (hr : r.Assembled) : Assembled [] (codeBlockItem r) :=
  .node rfl (.append (assembled_statement hr) (.eat _))

/-! ### Levels -/

/-- One unfolding of a nonterminal over a level of basic steps is made of basic steps. -/
theorem assembled_unfold (hr : r.Assembled) (p : Nonterminal) : Assembled [] (unfold r p) := by
  cases p with
  | type => exact assembled_type hr
  | expression ρ => exact assembled_expression hr ρ
  | operand ρ => exact assembled_operand hr ρ
  | ifExpr => exact assembled_ifExpr hr
  | pattern => exact assembled_pattern hr
  | bindingPattern => exact assembled_bindingPattern hr
  | codeBlockItem => exact assembled_codeBlockItem hr

/-- Every level is made of basic steps, however deep it goes. -/
theorem assembled_level (depth : Nat) : (level depth).Assembled := by
  induction depth with
  | zero => exact fun _ => .tooDeep []
  | succ depth ih => exact fun p => assembled_unfold ih p

theorem assembled_fileItems (hr : r.Assembled) : Assembled [] (fileItems r) := by
  refine .repeated (fun s g hg => ?_) _
  split_ifs at hg <;> cases hg
  · exact .fail [] _ fun _ => Or.inl rfl
  · exact hr .codeBlockItem

/-! ### Files -/

/-- A loop ends where there is no further turn. -/
theorem run_repeated {next : Input → Option Grammar} {bound : Nat} {s s' : Input}
    {es : List Element} (h : (repeated next bound).run s = .ok (es, s')) : next s' = none := by
  induction bound generalizing s es with
  | zero => cases h
  | succ bound ih =>
    unfold repeated peek at h
    dsimp only at h
    split at h
    · rename_i hnone
      cases h
      exact hnone
    · obtain ⟨fs, gs, t, -, hgs, -⟩ := run_append h
      exact ih hgs

/-- The statements of a file are read up to its end: of tokens that stand for text none is
left. -/
theorem run_fileItems {r : Level} (hr : r.Assembled) {s s' : Input} {es : List Element}
    (hs : ∀ t ∈ s.pending, t.kind.IsWord) (h : (fileItems r).run s = .ok (es, s')) :
    s'.pending = [] := by
  have hend : s'.kind = .endOfFile := by
    have hnone := run_repeated h
    split_ifs at hnone with hat
    exact eq_of_beq hat
  cases hpending : s'.pending with
  | nil => rfl
  | cons t rest =>
    -- a token that is left would have the kind at which the loop ends
    have hkind : s'.kind = t.kind := by
      unfold Input.kind Input.kindAt Input.nth
      rw [hpending]
      rfl
    have hword := ((assembled_fileItems hr).kept h).isWord (by simpa using hs) t
      (by rw [hpending]; simp)
    exact absurd (hkind.symm.trans hend) hword.2

/-- The node of a file holds its statements and the end-of-file token. -/
theorem run_sourceFile {r : Level} {s s' : Input} {es : List Element}
    (h : (sourceFile r).run s = .ok (es, s')) :
    ∃ items, (fileItems r).run s = .ok (items, s') ∧
      es = [.node .sourceFile (items ++ [.token s'.endOfFile])] := by
  obtain ⟨fs, t, hfs, hes⟩ := run_capture h
  cases hes
  obtain ⟨items, gs, u, hitems, hgs, rfl⟩ := run_append hfs
  cases hgs
  exact ⟨items, hitems, rfl⟩

end Grammar

/-- A source that is read is not too long. -/
theorem utf8ByteSize_le_of_parse {source : String} {tree : Element} (h : parse source = .ok tree) :
    source.utf8ByteSize ≤ maxSourceLength := by
  refine Nat.le_of_not_lt fun hlarge => ?_
  unfold parse at h
  rw [if_pos hlarge] at h
  cases h

theorem utf8ByteSize_lt_of_parse {source : String} {tree : Element} (h : parse source = .ok tree) :
    source.utf8ByteSize < Offset.limit :=
  Nat.lt_succ_of_le (utf8ByteSize_le_of_parse h)

/-- What a source is read into is what the grammar of a file yields of its tokens. -/
theorem exists_tokens_of_parse {source : String} {tree : Element} (h : parse source = .ok tree) :
    ∃ ts s, Lexer.tokens source = .ok ts ∧
      (Grammar.sourceFile (Grammar.level (depthFor source.utf8ByteSize))).run
        ⟨0, ts.pending, ts.endOfFile⟩ = .ok ([tree], s) := by
  unfold parse at h
  split_ifs at h
  · cases h
  obtain ⟨ts, hts, hrun⟩ := Except.bind_eq_ok.mp h
  dsimp only at hrun
  split at hrun
  · cases hrun
  · next es s hes =>
    obtain ⟨items, -, rfl⟩ := Grammar.run_sourceFile hes
    cases hrun
    exact ⟨ts, s, hts, hes⟩

theorem exists_run_of_parse {source : String} {tree : Element} {ts : Lexer.Tokens}
    (h : parse source = .ok tree) (hts : Lexer.tokens source = .ok ts) :
    ∃ s, (Grammar.sourceFile (Grammar.level (depthFor source.utf8ByteSize))).run
      ⟨0, ts.pending, ts.endOfFile⟩ = .ok ([tree], s) := by
  obtain ⟨ts', s, hts', hrun⟩ := exists_tokens_of_parse h
  obtain rfl : ts = ts' := Except.ok.inj (hts.symm.trans hts')
  exact ⟨s, hrun⟩

/-- What the grammar of a file yields of the tokens of a source is what the source is read into. -/
theorem parse_of_run {source : String} {tree : Element} {ts : Lexer.Tokens} {s : Input}
    (hsize : source.utf8ByteSize ≤ maxSourceLength) (hts : Lexer.tokens source = .ok ts)
    (hrun : (Grammar.sourceFile (Grammar.level (depthFor source.utf8ByteSize))).run
      ⟨0, ts.pending, ts.endOfFile⟩ = .ok ([tree], s)) : parse source = .ok tree := by
  unfold parse
  rw [if_neg (Nat.not_lt.mpr hsize), hts]
  dsimp only [bind, Except.bind]
  rw [hrun]
  rfl

/-- A source that is read is cut into tokens, of which the node of a file is made. -/
theorem parse_eq_ok {source : String} {tree : Element} (h : parse source = .ok tree) :
    ∃ ts items s, Lexer.tokens source = .ok ts ∧
      (Grammar.fileItems (Grammar.level (depthFor source.utf8ByteSize))).run
        ⟨0, ts.pending, ts.endOfFile⟩ = .ok (items, s) ∧
      tree = .node .sourceFile (items ++ [.token s.endOfFile]) := by
  obtain ⟨ts, s, hts, hrun⟩ := exists_tokens_of_parse h
  obtain ⟨items, hitems, heq⟩ := Grammar.run_sourceFile hrun
  exact ⟨ts, items, s, hts, hitems, (List.cons.inj heq).1⟩

/-- The leaves of a tree are tokens that stand for text and then the end-of-file token, and
together they spell the source. -/
theorem leaves_parse {source : String} {tree : Element} (h : parse source = .ok tree) :
    ∃ ts t, tree.leaves = ts ++ [t] ∧ (∀ u ∈ ts, u.kind.IsWord) ∧ t.kind = .endOfFile ∧
      Token.spell tree.leaves = source.toList := by
  obtain ⟨ts, items, s, hts, hitems, rfl⟩ := parse_eq_ok h
  obtain ⟨hwords, hend⟩ := Lexer.tokens_isWord hts
  have hlevel := Grammar.assembled_level (depthFor source.utf8ByteSize)
  have hkept := (Grammar.assembled_fileItems hlevel).kept hitems
  have hnil : s.pending = [] := Grammar.run_fileItems hlevel hwords hitems
  have hspell := hkept.spell
  have hisWord := hkept.isWord (by simpa using hwords)
  have hendOfFile : s.endOfFile = ts.endOfFile := hkept.endOfFile
  rw [hnil, List.append_nil, Element.leavesAll_nil, List.nil_append] at hspell
  rw [hnil, List.append_nil] at hisWord
  refine ⟨Element.leavesAll items, s.endOfFile, by simp, hisWord, ?_, ?_⟩
  · rw [hendOfFile, hend]
  · rw [Element.leaves_node, Element.leavesAll_append, Token.spell_append, hspell, hendOfFile,
      Element.leavesAll_cons, Element.leaves_token, Element.leavesAll_nil, List.append_nil,
      ← Token.spell_append]
    exact Lexer.spell_tokens hts

/-- The tree of a source renders to the source. -/
theorem fullText_parse {source : String} {tree : Element} (h : parse source = .ok tree) :
    tree.fullText = source := by
  obtain ⟨-, -, -, -, -, hspell⟩ := leaves_parse h
  rw [← String.toList_inj, Element.toList_fullText, hspell]

/-- **Losslessness**: the tree of a source renders to the source, character by character, and the
end-of-file token occurs exactly once in it, as the last leaf. -/
theorem parse_lossless {source : String} {tree : Element} (h : parse source = .ok tree) :
    tree.fullText = source ∧
    ∃ ts t, tree.leaves = ts ++ [t] ∧ t.kind = .endOfFile ∧ ∀ u ∈ ts, u.kind ≠ .endOfFile := by
  obtain ⟨ts, t, hleaves, hwords, hend, -⟩ := leaves_parse h
  exact ⟨fullText_parse h, ts, t, hleaves, hend, fun u hu => (hwords u hu).2⟩

/-- A source in which one token `>>` closes two lists of types, so that it is split in two while
the tree is built. -/
theorem parse_lossless_nested_arguments : ∃ tree,
    parse "var x: A<A<B>>?\n" = .ok tree ∧ tree.fullText = "var x: A<A<B>>?\n" ∧
    ∃ ts t, tree.leaves = ts ++ [t] ∧ t.kind = .endOfFile ∧ ∀ u ∈ ts, u.kind ≠ .endOfFile := by
  have hsome : (parse "var x: A<A<B>>?\n").toOption.isSome = true := by decide +kernel
  obtain ⟨tree, htree⟩ := Option.isSome_iff_exists.mp hsome
  have h : parse "var x: A<A<B>>?\n" = .ok tree := Except.toOption_eq_some.mp htree
  exact ⟨tree, h, parse_lossless h⟩

end SwiftTidy
