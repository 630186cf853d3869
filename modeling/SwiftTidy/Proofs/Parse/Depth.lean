import SwiftTidy.Proofs.Parse.Reading

/-!
# Declarations, statements and the depth they need

The productions that were left: declarations and statements take a token each, like the types,
patterns, blocks and expressions below them.  With all of them the levels can be stacked up.  A
nonterminal that is entered before a token is taken has a smaller `rank`, and every token that is
taken leaves at least one byte less, so a depth beyond `5 * size + rank` is never used up
(`reads_nonterminal`).  `depthFor` is such a depth, and a whole file is read up to its end or
rejected for a cause of its own (`meets_sourceFile`).
-/

namespace SwiftTidy

namespace Grammar

open Input

variable {r : Level} {s : Input}

/-! ### Declarations -/

theorem lt_length_of_headKind {ts : List Token} {kind : SyntaxKind} (hkind : kind ≠ .endOfFile)
    (h : headKind ts = kind) : 0 < ts.length := by
  cases ts with
  | nil => exact absurd h.symm hkind
  | cons t ts => exact Nat.zero_lt_succ _

/-- A detail is three tokens, of which the last is the closing parenthesis. -/
theorem length_of_startsWithDetail {ts : List Token} (h : startsWithDetail ts = true) :
    3 ≤ ts.length := by
  rw [startsWithDetail, Bool.and_eq_true] at h
  have hclose := lt_length_of_headKind (by decide) (eq_of_beq h.2)
  rw [List.length_drop] at hclose
  omega

theorem kind_ne_endOfFile_of_startsWithModifier
    (h : startsWithModifier s.pending = true) : s.kind ≠ .endOfFile := by
  have hkind : s.kind = (s.pending.getD 0 s.endOfFile).kind := rfl
  cases hpending : s.pending with
  | nil =>
    rw [hpending] at h
    cases h
  | cons t ts =>
    rw [hpending] at h hkind
    rw [hkind]
    intro hend
    rw [List.getD_cons_zero] at hend
    rw [startsWithModifier, hend] at h
    cases h

theorem reads_declModifier (hs : s.Ready) (hkind : s.kind ≠ .endOfFile) : declModifier.Reads s :=
  Meets.node (Reads.append (reads_take hs hkind) fun _ hs' =>
    keeps_onlyIf hs'.ready fun hat => keeps_takeN hs'.ready (length_of_startsWithDetail hat))

theorem keeps_declModifiers (hs : s.Ready) (hbound : s.size < r.bound) :
    (declModifiers r).Keeps s := by
  refine keeps_repeated hs hbound fun s' hs' g hg => ?_
  split_ifs at hg with hat hmodifier <;> cases hg
  · exact reads_attributeUse hs'.ready
  · exact reads_declModifier hs'.ready
      (kind_ne_endOfFile_of_startsWithModifier hmodifier)

theorem reads_importDecl (hr : r.ServesBehind s) (hkind : s.kind ≠ .endOfFile) :
    (importDecl r).Reads s := by
  have hwhat := Reads.append (reads_take hr.ready hkind) fun s' hs' =>
    keeps_takeAny [.structKw, .classKw, .enumKw, .protocolKw, .funcKw, .varKw, .letKw, .typealiasKw]
      hs'.ready (by decide)
  have hname := Reads.append hwhat fun s' hs' =>
    (reads_expect .identifier "module name" hs'.ready (by decide) (by decide)).keeps
  refine Reads.append hname fun s' hs' => ?_
  refine keeps_repeated hs'.ready (hr.serves s' hs').size_lt fun s'' hs'' g hg => ?_
  split_ifs at hg with hat
  cases hg
  rw [Bool.and_eq_true] at hat
  have hperiod := reads_take hs''.ready (ne_endOfFile_of_isAt (by decide) hat.1)
  refine Reads.append hperiod fun t ht =>
    meets_peek (Meets.ite (fun hpart => ?_) fun _ => meets_expected (by decide))
  refine (reads_take ht.ready ?_).keeps
  exact kind_ne_endOfFile (fun k => k == .identifier || k.isKeyword || k.isOperator) hpart
    (by decide)

theorem keeps_optionalBlock (hr : r.ServesBehind s) : (whenAt .leftBrace (codeBlock r)).Keeps s :=
  keeps_whenAt hr.ready fun _ => (reads_codeBlock hr).keeps

theorem reads_patternBinding (hr : r.Serves s) : (patternBinding r).Reads s := by
  have htype := Reads.append hr.bindingPattern fun s' hs' =>
    keeps_optionalAscription (hr.ahead hs'.ahead).behind
  have hvalue := Reads.append htype fun s' hs' =>
    keeps_optionalInitializer (hr.ahead hs'.ahead).behind .free
  exact Reads.append hvalue fun s' hs' => keeps_optionalBlock (hr.ahead hs'.ahead).behind

theorem reads_variableDecl (hr : r.ServesBehind s) (hkind : s.kind ≠ .endOfFile) :
    (variableDecl r).Reads s := by
  refine Reads.append (reads_take hr.ready hkind) fun s' hs' => ?_
  have hr' := hr.serves s' hs'
  exact (reads_commaSeparated (fun s'' hs'' => reads_patternBinding (hr'.ahead hs'')) hs'.ready
    hr'.size_lt).keeps

theorem keeps_parameter (hr : r.Serves s) : (parameter r).Keeps s := by
  have hattributes : (repeated (fun s => if s.isAt .atSign then some attributeUse else none)
      r.bound).Keeps s :=
    keeps_repeated hr.ready hr.size_lt fun s' hs' g hg => by
      split_ifs at hg
      cases hg
      exact reads_attributeUse hs'.ready
  have hlabel : ∀ s', s'.Ready →
      (peek fun s => if s.kind.isName then take else expected "parameter name").Keeps s' :=
    fun s' hs' => meets_peek (Meets.ite
      (fun hat => (reads_take hs' (kind_ne_endOfFile SyntaxKind.isName hat (by decide))).keeps)
      fun _ => meets_expected (by decide))
  have hname : ∀ s', s'.Ready →
      (onlyIf (fun s => s.kind.isName && s.kindAt 1 == .colon) take).Keeps s' :=
    fun s' hs' => keeps_onlyIf hs' fun hat => by
      rw [Bool.and_eq_true] at hat
      exact (reads_take hs' (kind_ne_endOfFile SyntaxKind.isName hat.1 (by decide))).keeps
  have hnames := Keeps.append (Keeps.append hattributes fun s' hs' => hlabel s' hs'.ready)
    fun s' hs' => hname s' hs'.ready
  have hcolon := Keeps.append hnames fun s' hs' =>
    (reads_expect .colon "`:`" hs'.ready (by decide) (by decide)).keeps
  have htype := Keeps.append hcolon fun s' hs' => (hr.ahead hs').type.keeps
  have hdots := Keeps.append htype fun s' hs' => keeps_takeOperator "..." hs'.ready
  exact Keeps.append hdots fun s' hs' => keeps_optionalInitializer (hr.ahead hs').behind .free

theorem reads_parameterClause (hr : r.ServesBehind s) : (parameterClause r).Reads s := by
  refine Meets.node (Reads.append
    (Reads.append (reads_expect _ _ hr.ready (by decide) (by decide)) fun s' hs' => ?_)
    fun s' hs' => (reads_expect _ _ hs'.ready (by decide) (by decide)).keeps)
  have hr' := hr.serves s' hs'
  exact keeps_commaSeparatedUntil (fun s'' hs'' => keeps_parameter (hr'.ahead hs'')) hs'.ready
    hr'.size_lt

theorem reads_functionSignature (hr : r.ServesBehind s) : (functionSignature r).Reads s := by
  have hasync := Reads.append (reads_parameterClause hr) fun s' hs' =>
    keeps_eat .asyncKw hs'.ready (by decide)
  have hthrows := Reads.append hasync fun s' hs' =>
    keeps_takeAny [.throwsKw, .rethrowsKw] hs'.ready (by decide)
  exact Meets.node (Reads.append hthrows fun s' hs' => keeps_whenAt hs'.ready fun _ =>
    (reads_returnClause (hr.serves s' hs').behind).keeps)

theorem reads_genericParameterClause (hr : r.ServesBehind s) (hkind : s.kind ≠ .endOfFile) :
    (genericParameterClause r).Reads s := by
  have hparameter : ∀ s', r.Serves s' → (expect .identifier "generic parameter name" ++
      whenAt .colon (take ++ r.type) ++ splitRightAngle).Reads s' := by
    intro s' hr'
    refine Reads.append
      (Reads.append (reads_expect _ _ hr'.ready (by decide) (by decide)) fun t ht => ?_)
      fun t ht => keeps_splitRightAngle ht.ready
    refine keeps_whenAt ht.ready fun hat => ?_
    have hcolon := reads_take ht.ready (ne_endOfFile_of_isAt (by decide) hat)
    exact (Reads.append hcolon fun t' ht' =>
      (hr'.ahead (ht.trans_ahead ht'.ahead).ahead).type.keeps).keeps
  refine Meets.node (Reads.append (Reads.append (reads_takeAs hr.ready hkind) fun s' hs' => ?_)
    fun s' hs' => (reads_rightAngle hs'.ready).keeps)
  have hr' := hr.serves s' hs'
  exact (reads_commaSeparated (fun s'' hs'' => hparameter s'' (hr'.ahead hs'')) hs'.ready
    hr'.size_lt).keeps

theorem keeps_optionalGenericParameters (hr : r.ServesBehind s) :
    (optionalGenericParameters r).Keeps s :=
  keeps_onlyIf hr.ready fun hat =>
    (reads_genericParameterClause hr (ne_endOfFile_of_isAtOperator hat)).keeps

theorem reads_genericWhereClause (hr : r.ServesBehind s) (hkind : s.kind ≠ .endOfFile) :
    (genericWhereClause r).Reads s := by
  have hrelation : ∀ s', s'.Ready → (peek fun s =>
      if s.isAt .colon || s.isAtOperator "==" then take else expected "`:` or `==`").Keeps s' := by
    intro s' hs'
    refine meets_peek (Meets.ite (fun hat => ?_) fun _ => meets_expected (by decide))
    rcases Bool.or_eq_true_iff.mp hat with hat | hat
    · exact (reads_take hs' (ne_endOfFile_of_isAt (by decide) hat)).keeps
    · exact (reads_take hs' (ne_endOfFile_of_isAtOperator hat)).keeps
  refine Meets.node (Reads.append (reads_take hr.ready hkind) fun s' hs' => ?_)
  have hr' := hr.serves s' hs'
  refine (reads_commaSeparated (fun s'' hs'' => ?_) hs'.ready hr'.size_lt).keeps
  have hr'' := hr'.ahead hs''
  exact Reads.append (Reads.append hr''.type fun t ht => hrelation t ht.ready)
    fun t ht => (hr''.ahead ht.ahead).type.keeps

theorem keeps_optionalRequirements (hr : r.ServesBehind s) :
    (whenAt .whereKw (genericWhereClause r)).Keeps s :=
  keeps_whenAt hr.ready fun hat =>
    (reads_genericWhereClause hr (ne_endOfFile_of_isAt (by decide) hat)).keeps

theorem keeps_functionRest (hr : r.ServesBehind s) : (functionRest r).Keeps s := by
  have hsignature := Keeps.append (keeps_optionalGenericParameters hr) fun s' hs' =>
    (reads_functionSignature (hr.ahead hs')).keeps
  have hwhere := Keeps.append hsignature fun s' hs' => keeps_optionalRequirements (hr.ahead hs')
  exact Keeps.append hwhere fun s' hs' => keeps_optionalBlock (hr.ahead hs')

theorem reads_functionDecl (hr : r.ServesBehind s) (hkind : s.kind ≠ .endOfFile) :
    (functionDecl r).Reads s := by
  refine Reads.append (Reads.append (reads_take hr.ready hkind) fun s' hs' =>
    meets_peek (Meets.ite (fun hat => ?_) fun _ => meets_expected (by decide))) fun s' hs' => ?_
  · refine (reads_take hs'.ready ?_).keeps
    exact kind_ne_endOfFile (fun k => k == .identifier || k.isOperator || k == .equal) hat
      (by decide)
  · exact keeps_functionRest (hr.serves s' hs').behind

theorem reads_initializerDecl (hr : r.ServesBehind s) (hkind : s.kind ≠ .endOfFile) :
    (initializerDecl r).Reads s :=
  Reads.append (Reads.append (reads_take hr.ready hkind) fun _ hs' => keeps_optionalMark hs'.ready)
    fun s' hs' => keeps_functionRest (hr.serves s' hs').behind

theorem keeps_optionalInheritance (hr : r.ServesBehind s) :
    (whenAt .colon (inheritanceClause r)).Keeps s := by
  refine keeps_whenAt hr.ready fun hat => ?_
  have hcolon := reads_take hr.ready (ne_endOfFile_of_isAt (by decide) hat)
  have htypes : (take ++ commaSeparated .inheritedType r.bound r.type).Reads s := by
    refine Reads.append hcolon fun s' hs' => ?_
    have hr' := hr.serves s' hs'
    exact (reads_commaSeparated (fun s'' hs'' => (hr'.ahead hs'').type) hs'.ready
      hr'.size_lt).keeps
  exact htypes.node.keeps

theorem reads_typeDecl (hr : r.ServesBehind s) (hkind : s.kind ≠ .endOfFile) (isExtension : Bool) :
    (typeDecl r isExtension).Reads s := by
  have hname : ∀ s', r.Serves s' → (if isExtension then r.type
      else expect .identifier "type name" ++ optionalGenericParameters r).Keeps s' := by
    intro s' hr'
    refine Meets.ite (fun _ => hr'.type.keeps) fun _ => ?_
    exact (Reads.append (reads_expect _ _ hr'.ready (by decide) (by decide)) fun s'' hs'' =>
      keeps_optionalGenericParameters (hr'.ahead hs''.ahead).behind).keeps
  have hnamed := Reads.append (reads_take hr.ready hkind) fun s' hs' =>
    hname s' (hr.serves s' hs')
  have hinheritance := Reads.append hnamed fun s' hs' =>
    keeps_optionalInheritance (hr.serves s' hs').behind
  have hwhere := Reads.append hinheritance fun s' hs' =>
    keeps_optionalRequirements (hr.serves s' hs').behind
  exact Reads.append hwhere fun s' hs' => (reads_memberBlock (hr.serves s' hs').behind).keeps

theorem reads_typeAliasDecl (hr : r.ServesBehind s) (hkind : s.kind ≠ .endOfFile) :
    (typeAliasDecl r).Reads s := by
  have hname := Reads.append (reads_take hr.ready hkind) fun s' hs' =>
    (reads_expect .identifier "type alias name" hs'.ready (by decide) (by decide)).keeps
  have hparameters := Reads.append hname fun s' hs' =>
    keeps_optionalGenericParameters (hr.serves s' hs').behind
  have hequal := Reads.append hparameters fun s' hs' =>
    (reads_expect .equal "`=`" hs'.ready (by decide) (by decide)).keeps
  exact Reads.append hequal fun s' hs' => (hr.serves s' hs').type.keeps

theorem reads_enumCaseDecl (hr : r.ServesBehind s) (hkind : s.kind ≠ .endOfFile) :
    (enumCaseDecl r).Reads s := by
  refine Reads.append (reads_take hr.ready hkind) fun s' hs' => ?_
  have hr' := hr.serves s' hs'
  refine (reads_commaSeparated (fun s'' hs'' => ?_) hs'.ready hr'.size_lt).keeps
  have hr'' := hr'.ahead hs''
  have hvalues := Reads.append (reads_expect .identifier "enum case name"
    hs''.ready (by decide) (by decide)) fun t ht => keeps_whenAt (k := .leftParen) ht.ready fun _ =>
      (reads_tupleType (hr''.ahead ht.ahead).behind).keeps
  exact Reads.append hvalues fun t ht => keeps_optionalInitializer (hr''.ahead ht.ahead).behind .free

theorem reads_declaration (hr : r.ServesBehind s) : (declaration r).Reads s := by
  refine Keeps.capture_reads (keeps_declModifiers hr.ready hr.size_lt) fun es s' hs' => ?_
  have hr' := hr.ahead hs'
  have hdecl : ∀ {g : Grammar} (kind : SyntaxKind), g.Reads s' → (node kind (emit es ++ g)).Reads s' :=
    fun kind hg => Meets.node (reads_emit_append hg)
  refine meets_peek ?_
  split
  · next hkind => exact hdecl _ (reads_importDecl hr' (ne_endOfFile_of_eq hkind (by decide)))
  · next hkind => exact hdecl _ (reads_variableDecl hr' (ne_endOfFile_of_eq hkind (by decide)))
  · next hkind => exact hdecl _ (reads_variableDecl hr' (ne_endOfFile_of_eq hkind (by decide)))
  · next hkind => exact hdecl _ (reads_functionDecl hr' (ne_endOfFile_of_eq hkind (by decide)))
  · next hkind => exact hdecl _ (reads_initializerDecl hr' (ne_endOfFile_of_eq hkind (by decide)))
  · next hkind => exact hdecl _ (reads_typeDecl hr' (ne_endOfFile_of_eq hkind (by decide)) _)
  · next hkind => exact hdecl _ (reads_typeDecl hr' (ne_endOfFile_of_eq hkind (by decide)) _)
  · next hkind => exact hdecl _ (reads_typeDecl hr' (ne_endOfFile_of_eq hkind (by decide)) _)
  · next hkind => exact hdecl _ (reads_typeDecl hr' (ne_endOfFile_of_eq hkind (by decide)) _)
  · next hkind => exact hdecl _ (reads_typeDecl hr' (ne_endOfFile_of_eq hkind (by decide)) _)
  · next hkind => exact hdecl _ (reads_typeAliasDecl hr' (ne_endOfFile_of_eq hkind (by decide)))
  · next hkind => exact hdecl _ (reads_enumCaseDecl hr' (ne_endOfFile_of_eq hkind (by decide)))
  · exact meets_expected (by decide)

/-! ### Statements -/

theorem reads_jump {kind : SyntaxKind} (hs : s.Ready) (hkind : s.kind ≠ .endOfFile) :
    (jump kind).Reads s :=
  Meets.node (Reads.append (reads_take hs hkind) fun _ hs' => keeps_onlyIf hs'.ready fun hat => by
    rw [Bool.and_eq_true] at hat
    exact (reads_take hs'.ready (ne_endOfFile_of_isAt (by decide) hat.1)).keeps)

theorem reads_takeConditions (hr : r.ServesBehind s) (hkind : s.kind ≠ .endOfFile) :
    (take ++ conditionList r).Reads s :=
  Reads.append (reads_take hr.ready hkind) fun s' hs' =>
    (reads_conditionList (hr.serves s' hs')).keeps

theorem reads_takeBlock (hr : r.ServesBehind s) (hkind : s.kind ≠ .endOfFile) :
    (take ++ codeBlock r).Reads s :=
  Reads.append (reads_take hr.ready hkind) fun s' hs' =>
    (reads_codeBlock (hr.serves s' hs').behind).keeps

theorem reads_guardStmt (hr : r.ServesBehind s) (hkind : s.kind ≠ .endOfFile) :
    (guardStmt r).Reads s := by
  have helse := Reads.append (reads_takeConditions hr hkind) fun s' hs' =>
    (reads_expect .elseKw "`else`" hs'.ready (by decide) (by decide)).keeps
  exact Meets.node (Reads.append helse fun s' hs' =>
    (reads_codeBlock (hr.serves s' hs').behind).keeps)

theorem reads_whileStmt (hr : r.ServesBehind s) (hkind : s.kind ≠ .endOfFile) :
    (whileStmt r).Reads s :=
  Meets.node (Reads.append (reads_takeConditions hr hkind) fun s' hs' =>
    (reads_codeBlock (hr.serves s' hs').behind).keeps)

theorem reads_repeatStmt (hr : r.ServesBehind s) (hkind : s.kind ≠ .endOfFile) :
    (repeatStmt r).Reads s := by
  have hwhile := Reads.append (reads_takeBlock hr hkind) fun s' hs' =>
    (reads_expect .whileKw "`while`" hs'.ready (by decide) (by decide)).keeps
  exact Meets.node (Reads.append hwhile fun s' hs' => ((hr.serves s' hs').expression _).keeps)

theorem reads_forPattern (hr : r.Serves s) : (forPattern r).Reads s := by
  have hbinding : s.kind ≠ .endOfFile →
      (node .valueBindingPattern (take ++ r.bindingPattern)).Reads s :=
    fun hkind => Meets.node (Reads.append (reads_take hr.ready hkind) fun s' hs' =>
      (hr.ahead hs'.ahead).bindingPattern.keeps)
  refine meets_peek ?_
  split
  · next hkind =>
    exact Reads.append (reads_take hr.ready (ne_endOfFile_of_eq hkind (by decide))) fun s' hs' =>
      (hr.ahead hs'.ahead).pattern.keeps
  · next hkind => exact hbinding (ne_endOfFile_of_eq hkind (by decide))
  · next hkind => exact hbinding (ne_endOfFile_of_eq hkind (by decide))
  · exact hr.bindingPattern

theorem reads_forInStmt (hr : r.ServesBehind s) (hkind : s.kind ≠ .endOfFile) :
    (forInStmt r).Reads s := by
  have hmarks := Reads.append (Reads.append (reads_take hr.ready hkind) fun s' hs' =>
    keeps_eat .tryKw hs'.ready (by decide)) fun s' hs' => keeps_eat .awaitKw hs'.ready (by decide)
  have hpattern := Reads.append hmarks fun s' hs' => (reads_forPattern (hr.serves s' hs')).keeps
  have htype := Reads.append hpattern fun s' hs' =>
    keeps_optionalAscription (hr.serves s' hs').behind
  have hin := Reads.append htype fun s' hs' =>
    (reads_expect .inKw "`in`" hs'.ready (by decide) (by decide)).keeps
  have hsequence := Reads.append hin fun s' hs' =>
    ((hr.serves s' hs').expression .condition).keeps
  have hwhere := Reads.append hsequence fun s' hs' =>
    keeps_optionalWhere (hr.serves s' hs').behind
  exact Meets.node (Reads.append hwhere fun s' hs' =>
    (reads_codeBlock (hr.serves s' hs').behind).keeps)

theorem reads_catchClause (hr : r.ServesBehind s) (hkind : s.kind ≠ .endOfFile) :
    (catchClause r).Reads s := by
  have hpattern := Reads.append (reads_take hr.ready hkind) fun s' hs' =>
    keeps_onlyIf (p := fun s => !s.isAtAny [.leftBrace, .whereKw]) hs'.ready fun _ =>
      (hr.serves s' hs').pattern.keeps
  have hwhere := Reads.append hpattern fun s' hs' => keeps_optionalWhere (hr.serves s' hs').behind
  exact Meets.node (Reads.append hwhere fun s' hs' =>
    (reads_codeBlock (hr.serves s' hs').behind).keeps)

theorem reads_doStmt (hr : r.ServesBehind s) (hkind : s.kind ≠ .endOfFile) :
    (doStmt r).Reads s := by
  refine Meets.node (Reads.append (reads_takeBlock hr hkind) fun s' hs' => ?_)
  have hr' := hr.serves s' hs'
  refine keeps_repeated hs'.ready hr'.size_lt fun s'' hs'' g hg => ?_
  split_ifs at hg with hat
  cases hg
  exact reads_catchClause (hr'.ahead hs'').behind (ne_endOfFile_of_isAt (by decide) hat)

/-- A statement that starts with no word of its own is an expression. -/
theorem reads_statement (hr : r.ServesBehind s) (hexpression : (r.expression .free).Reads s) :
    (statement r).Reads s := by
  refine meets_peek (Meets.ite (fun _ => reads_declaration hr) fun _ => ?_)
  split
  · next hkind => exact reads_guardStmt hr (ne_endOfFile_of_eq hkind (by decide))
  · next hkind => exact reads_whileStmt hr (ne_endOfFile_of_eq hkind (by decide))
  · next hkind => exact reads_repeatStmt hr (ne_endOfFile_of_eq hkind (by decide))
  · next hkind => exact reads_forInStmt hr (ne_endOfFile_of_eq hkind (by decide))
  · next hkind => exact reads_doStmt hr (ne_endOfFile_of_eq hkind (by decide))
  · next hkind => exact Meets.node (reads_takeBlock hr (ne_endOfFile_of_eq hkind (by decide)))
  · next hkind =>
    exact Meets.node
      (Reads.append (reads_take hr.ready (ne_endOfFile_of_eq hkind (by decide))) fun s' hs' =>
      keeps_onlyIf hs'.ready fun _ => ((hr.serves s' hs').expression _).keeps)
  · next hkind =>
    exact Meets.node
      (Reads.append (reads_take hr.ready (ne_endOfFile_of_eq hkind (by decide))) fun s' hs' =>
      ((hr.serves s' hs').expression _).keeps)
  · next hkind => exact reads_jump hr.ready (ne_endOfFile_of_eq hkind (by decide))
  · next hkind => exact reads_jump hr.ready (ne_endOfFile_of_eq hkind (by decide))
  · next hkind => exact reads_takeNode hr.ready (ne_endOfFile_of_eq hkind (by decide))
  · refine Meets.ite (fun _ => meets_fail ?_) fun _ => hexpression
    exact ⟨by rintro ⟨⟩, by rintro _ ⟨⟩⟩

theorem reads_codeBlockItem (hr : r.ServesBehind s) (hexpression : (r.expression .free).Reads s) :
    (codeBlockItem r).Reads s :=
  Meets.node (Reads.append (reads_statement hr hexpression) fun _ hs' => keeps_eat _ hs'.ready
    (by decide))

end Grammar

/-! ### Levels stacked up -/

/-- How many nonterminals, this one included, are entered before one takes a token. -/
def Nonterminal.rank : Nonterminal → Input → Nat
  | .type, _ | .ifExpr, _ | .bindingPattern, _ => 1
  | .operand _, _ => 2
  | .expression _, _ => 3
  | .codeBlockItem, _ => 4
  | .pattern, s => if s.isAtAny [.letKw, .varKw] then 1 else 4

namespace Nonterminal

variable {s : Input}

theorem rank_pos (p : Nonterminal) (s : Input) : 0 < p.rank s := by
  cases p <;> simp only [rank] <;> first | decide | (split <;> decide)

theorem rank_le (p : Nonterminal) (s : Input) : p.rank s ≤ 4 := by
  cases p <;> simp only [rank] <;> first | decide | (split <;> decide)

theorem rank_pattern_of_binding (h : s.isAtAny [.letKw, .varKw] = true) :
    Nonterminal.pattern.rank s = 1 :=
  if_pos h

theorem rank_pattern_of_not_binding (h : s.isAtAny [.letKw, .varKw] = false) :
    Nonterminal.pattern.rank s = 4 :=
  if_neg (Bool.eq_false_iff.mp h)

end Nonterminal

namespace Grammar

open Input

variable {s : Input}

/-- One unfolding takes a token if those below it do: behind the next token all of them, and in
front of it those of a smaller rank. -/
theorem reads_unfold {r : Level} {p : Nonterminal} (hr : r.ServesBehind s) (hstart : p.CanStart s)
    (hlower : ∀ q : Nonterminal, q.CanStart s → q.rank s < p.rank s → (r.read q).Reads s) :
    (unfold r p).Reads s := by
  cases p with
  | type => exact reads_type hr
  | bindingPattern => exact reads_bindingPattern hr
  | ifExpr => exact reads_ifExpr hr hstart
  | codeBlockItem =>
    exact reads_codeBlockItem hr (hlower (.expression .free) trivial (Nat.lt_add_one 3))
  | expression ρ =>
    exact reads_expression hr (hlower (.operand ρ) trivial (Nat.lt_add_one 2))
  | operand ρ =>
    refine reads_operand hr (fun hkind => ?_) fun hat => ?_
    · exact hlower .ifExpr (ne_endOfFile_of_eq hkind (by decide)) (Nat.lt_add_one 1)
    · refine hlower .pattern trivial ?_
      rw [Nonterminal.rank_pattern_of_binding hat]
      exact Nat.lt_add_one 1
  | pattern =>
    refine reads_pattern hr fun hat => hlower (.expression .pattern) trivial ?_
    rw [Nonterminal.rank_pattern_of_not_binding hat]
    exact Nat.lt_add_one 3

/-- The depth is not used up: each nonterminal in a row lowers the rank, and each token that is
taken leaves at least a byte less. -/
theorem reads_nonterminal (depth : Nat) (hs : s.Ready) (p : Nonterminal) (hstart : p.CanStart s)
    (hdepth : 5 * s.size + p.rank s < depth) : (nonterminal depth p).Reads s := by
  induction depth generalizing s p with
  | zero => omega
  | succ depth ih =>
    have hpos := p.rank_pos s
    have hserves : ∀ s', s.Past s' → (level depth).Serves s' := by
      intro s' hs'
      have hless := hs'.size_lt
      refine ⟨hs'.ready, ?_, fun s'' hs'' q hq => ih hs''.ready q hq ?_⟩
      · show s'.size < depth
        omega
      · have hle := hs''.size_le
        have hrank := q.rank_le s''
        omega
    have hbehind : (level depth).ServesBehind s := ⟨hs, by show s.size < depth; omega, hserves⟩
    exact meets_peek (f := fun _ => unfold (level depth) p)
      (reads_unfold hbehind hstart fun q hq hlt => ih hs q hq (by omega))

theorem serves_level {depth : Nat} (hs : s.Ready) (hdepth : 5 * (s.size + 1) ≤ depth) :
    (level depth).Serves s := by
  refine ⟨hs, ?_, fun s' hs' p hp => reads_nonterminal depth hs'.ready p hp ?_⟩
  · show s.size < depth
    omega
  · have hle := hs'.size_le
    have hrank := p.rank_le s'
    omega

/-! ### Files -/

theorem meets_fileItems {r : Level} (hr : r.Serves s) :
    (fileItems r).Meets s fun s' => s.Ahead s' ∧ s'.isAt .endOfFile = true := by
  refine (meets_repeated hr.ready hr.size_lt fun s' hs' g hg => ?_).mono fun s' hs' => ?_
  · split_ifs at hg <;> cases hg
    · exact meets_fail ⟨by rintro ⟨⟩, by rintro _ ⟨⟩⟩
    · exact (hr.ahead hs').codeBlockItem
  · obtain ⟨hahead, hend⟩ := hs'
    split_ifs at hend with hat
    exact ⟨hahead, hat⟩

/-- A file is read up to its end, or rejected for a cause of its own. -/
theorem meets_sourceFile {length : Nat} (hs : s.Ready) (hlength : s.size ≤ length) :
    (sourceFile (level (depthFor length))).Meets s fun s' =>
      s.Ahead s' ∧ s'.isAt .endOfFile = true := by
  have hdepth : 5 * (s.size + 1) ≤ depthFor length :=
    Nat.mul_le_mul_left 5 (Nat.succ_le_succ hlength)
  refine Meets.node (Meets.append (meets_fileItems (serves_level hs hdepth)) fun s' hs' => ?_)
  exact meets_peek (meets_emit hs')

end Grammar

end SwiftTidy
