import SwiftTidy.Parse.SourceFile
import SwiftTidy.Proofs.Parse.Progress

/-!
# Every production takes a token

One statement for each production, in the order in which they are defined.  A level `Serves` an
input where each of its nonterminals takes a token or rejects the input, there and anywhere behind
(`Level.Serves`); a production that takes a token before it turns to a nonterminal needs this only
behind its first token (`Level.ServesBehind`).

Not every production takes a token first: a statement may start with an expression, an expression
with an operand, and an operand with a conditional or a pattern.  `Nonterminal.rank` counts how many
nonterminals are entered like this, at most four, so a level of a depth of five for each byte that
is left serves the input (`serves_level`).
-/

namespace SwiftTidy

namespace Input

variable {s : Input}

/-! ### Kinds that are not the end of the file -/

theorem ne_endOfFile_of_eq {kind : SyntaxKind} (h : s.kind = kind)
    (hkind : kind ≠ .endOfFile) : s.kind ≠ .endOfFile := h ▸ hkind

theorem kindAt_ne_endOfFile (test : SyntaxKind → Bool) {n : Nat} (h : test (s.kindAt n) = true)
    (htest : test .endOfFile = false) : s.kindAt n ≠ .endOfFile := by
  intro hend
  rw [hend, htest] at h
  cases h

theorem kind_ne_endOfFile (test : SyntaxKind → Bool) (h : test s.kind = true)
    (htest : test .endOfFile = false) : s.kind ≠ .endOfFile :=
  kindAt_ne_endOfFile _ h htest

theorem ne_endOfFile_of_isAtOperator {text : String} (h : s.isAtOperator text = true) :
    s.kind ≠ .endOfFile := by
  rw [isAtOperator, Bool.and_eq_true] at h
  exact kind_ne_endOfFile SyntaxKind.isOperator h.1 (by decide)

end Input

/-! ### Levels that serve an input -/

/-- A conditional is only looked for where a token is left. -/
def Nonterminal.CanStart : Nonterminal → Input → Prop
  | .ifExpr, s => s.kind ≠ .endOfFile
  | _, _ => True

namespace Level

/-- From the input on, every nonterminal takes a token or rejects what is left, and the bound of the
level is beyond the bytes that are left. -/
structure Serves (r : Level) (s : Input) : Prop where
  ready : s.Ready
  size_lt : s.size < r.bound
  reads : ∀ s', s.Ahead s' → ∀ p : Nonterminal, p.CanStart s' → (r.read p).Reads s'

/-- Behind the next token every nonterminal takes a token or rejects what is left. -/
structure ServesBehind (r : Level) (s : Input) : Prop where
  ready : s.Ready
  size_lt : s.size < r.bound
  serves : ∀ s', s.Past s' → r.Serves s'

variable {r : Level} {s s' : Input}

theorem Serves.ahead (h : r.Serves s) (hs' : s.Ahead s') : r.Serves s' :=
  ⟨hs'.ready, Nat.lt_of_le_of_lt hs'.size_le h.size_lt, fun _ hs'' => h.reads _ (hs'.trans hs'')⟩

theorem Serves.behind (h : r.Serves s) : r.ServesBehind s :=
  ⟨h.ready, h.size_lt, fun _ hs' => h.ahead hs'.ahead⟩

theorem ServesBehind.ahead (h : r.ServesBehind s) (hs' : s.Ahead s') : r.ServesBehind s' :=
  ⟨hs'.ready, Nat.lt_of_le_of_lt hs'.size_le h.size_lt, fun _ hs'' => h.serves _ (hs'.trans_past hs'')⟩

theorem Serves.type (h : r.Serves s) : r.type.Reads s := h.reads s h.ready.ahead .type trivial

theorem Serves.expression (h : r.Serves s) (ρ : Restrictions) : (r.expression ρ).Reads s :=
  h.reads s h.ready.ahead (.expression ρ) trivial

theorem Serves.operand (h : r.Serves s) (ρ : Restrictions) : (r.operand ρ).Reads s :=
  h.reads s h.ready.ahead (.operand ρ) trivial

theorem Serves.ifExpr (h : r.Serves s) (hkind : s.kind ≠ .endOfFile) : r.ifExpr.Reads s :=
  h.reads s h.ready.ahead .ifExpr hkind

theorem Serves.pattern (h : r.Serves s) : r.pattern.Reads s :=
  h.reads s h.ready.ahead .pattern trivial

theorem Serves.bindingPattern (h : r.Serves s) : r.bindingPattern.Reads s :=
  h.reads s h.ready.ahead .bindingPattern trivial

theorem Serves.codeBlockItem (h : r.Serves s) : r.codeBlockItem.Reads s :=
  h.reads s h.ready.ahead .codeBlockItem trivial

end Level

namespace Grammar

open Input

variable {r : Level} {s : Input}

/-! ### Attributes -/

theorem balancedLength?_le {depth n : Nat} {ts : List Token} (h : balancedLength? depth ts = some n) :
    n ≤ ts.length := by
  induction ts generalizing depth n with
  | nil => cases h
  | cons t ts ih =>
    have hlater : ∀ {d}, (balancedLength? d ts).map (· + 1) = some n → n ≤ ts.length + 1 := by
      intro d hd
      obtain ⟨m, hm, rfl⟩ := Option.map_eq_some_iff.mp hd
      exact Nat.succ_le_succ (ih hm)
    rw [balancedLength?] at h
    split_ifs at h
    · exact hlater h
    · cases h
      exact Nat.succ_le_succ (Nat.zero_le _)
    · exact hlater h
    · exact hlater h

theorem keeps_balancedParens (hs : s.Ready) : balancedParens.Keeps s := by
  refine meets_peek ?_
  split
  · next n hn => exact keeps_takeN hs (balancedLength?_le hn)
  · exact meets_fail (isGenuine_expected (by decide))

theorem reads_attributeUse (hs : s.Ready) : attributeUse.Reads s := by
  have hname : ∀ s', s.Past s' →
      (peek fun s =>
        if s.isAt .identifier || s.kind.isKeyword then take else expected "attribute name").Keeps s' := by
    intro s' hs'
    refine meets_peek (Meets.ite (fun hat => ?_) fun _ => meets_expected (by decide))
    refine (reads_take hs'.ready ?_).keeps
    exact kind_ne_endOfFile (fun k => k == .identifier || k.isKeyword) hat (by decide)
  refine Meets.node (Reads.append (Reads.append (reads_expect _ _ hs (by decide) (by decide)) hname)
    fun s' hs' => ?_)
  exact keeps_onlyIf hs'.ready fun _ => keeps_balancedParens hs'.ready

/-! ### Types -/

theorem reads_typeAscription (hr : r.ServesBehind s) : (typeAscription r).Reads s :=
  Meets.node (Reads.append (reads_expect _ _ hr.ready (by decide) (by decide)) fun _ hs' =>
    (hr.serves _ hs').type.keeps)

theorem reads_initializerClause (hr : r.ServesBehind s) (ρ : Restrictions) :
    (initializerClause r ρ).Reads s :=
  Meets.node (Reads.append (reads_expect _ _ hr.ready (by decide) (by decide)) fun _ hs' =>
    ((hr.serves _ hs').expression ρ).keeps)

theorem reads_returnClause (hr : r.ServesBehind s) : (returnClause r).Reads s :=
  Meets.node (Reads.append (reads_expect _ _ hr.ready (by decide) (by decide)) fun _ hs' =>
    (hr.serves _ hs').type.keeps)

theorem reads_rightAngle (hs : s.Ready) : rightAngle.Reads s := by
  refine Keeps.append_reads (keeps_splitRightAngle hs) fun s' hs' => meets_peek (Meets.ite ?_ ?_)
  · exact fun hat => reads_takeAs hs'.ready (ne_endOfFile_of_isAtOperator hat)
  · exact fun _ => meets_expected (by decide)

theorem reads_genericArgumentClause (hr : r.ServesBehind s) (hkind : s.kind ≠ .endOfFile) :
    (genericArgumentClause r).Reads s := by
  have hargument : ∀ s', r.Serves s' → (r.type ++ splitRightAngle).Reads s' := fun s' hr' =>
    Reads.append hr'.type fun s'' hs'' => keeps_splitRightAngle hs''.ready
  refine Meets.node (Reads.append (Reads.append (reads_takeAs hr.ready hkind) fun s' hs' => ?_)
    fun s' hs' => (reads_rightAngle hs'.ready).keeps)
  have hr' := hr.serves s' hs'
  exact (reads_commaSeparated (fun s'' hs'' => hargument s'' (hr'.ahead hs'')) hs'.ready
    hr'.size_lt).keeps

theorem keeps_optionalArguments (hr : r.ServesBehind s) :
    (onlyIf (·.isAtOperator "<") (genericArgumentClause r)).Keeps s :=
  keeps_onlyIf hr.ready fun hat =>
    (reads_genericArgumentClause hr (ne_endOfFile_of_isAtOperator hat)).keeps

theorem keeps_optionalInitializer (hr : r.ServesBehind s) (ρ : Restrictions) :
    (whenAt .equal (initializerClause r ρ)).Keeps s :=
  keeps_whenAt hr.ready fun _ => (reads_initializerClause hr ρ).keeps

theorem keeps_takeOperator (text : String) (hs : s.Ready) :
    (onlyIf (·.isAtOperator text) take).Keeps s :=
  keeps_onlyIf hs fun hat => (reads_take hs (ne_endOfFile_of_isAtOperator hat)).keeps

theorem keeps_takeAny (kinds : List SyntaxKind) (hs : s.Ready)
    (hkinds : SyntaxKind.endOfFile ∉ kinds) : (whenAtAny kinds take).Keeps s :=
  keeps_whenAtAny hs fun hat => (reads_take hs (ne_endOfFile_of_isAtAny hkinds hat)).keeps

/-- Two tokens are left where the second has a kind that is not that of the end of the file. -/
theorem reads_takeTwo (hs : s.Ready) (hkind : s.kindAt 1 ≠ .endOfFile) : (takeN 2).Reads s :=
  reads_takeN hs Nat.two_pos (hs.lt_length hkind)

theorem reads_tupleTypeElement (hr : r.Serves s) : (tupleTypeElement r).Reads s := by
  have hlabels : (peek fun s =>
      if s.kind.isName && s.kindAt 1 == .colon then takeN 2
      else if s.kind.isName && (s.kindAt 1).isName && s.kindAt 2 == .colon then takeN 3
      else nothing).Keeps s := by
    refine meets_peek (Meets.ite (fun hat => ?_) fun _ => Meets.ite (fun hat => ?_) fun _ => ?_)
    · rw [Bool.and_eq_true] at hat
      exact (reads_takeTwo hr.ready (kindAt_ne_endOfFile (· == .colon) hat.2 (by decide))).keeps
    · rw [Bool.and_eq_true] at hat
      exact keeps_takeN hr.ready
        (hr.ready.lt_length (kindAt_ne_endOfFile (· == .colon) hat.2 (by decide)))
    · exact keeps_nothing hr.ready
  have htype := Keeps.append_reads hlabels fun s' hs' => (hr.ahead hs').type
  refine Reads.append (Reads.append htype fun s' hs' => keeps_takeOperator _ hs'.ready)
    fun s' hs' => ?_
  exact keeps_optionalInitializer (hr.ahead hs'.ahead).behind _

theorem reads_tupleType (hr : r.ServesBehind s) : (tupleType r).Reads s := by
  refine Meets.node (Reads.append
    (Reads.append (reads_expect _ _ hr.ready (by decide) (by decide)) fun s' hs' => ?_)
    fun s' hs' => (reads_expect _ _ hs'.ready (by decide) (by decide)).keeps)
  have hr' := hr.serves s' hs'
  exact keeps_commaSeparatedUntil (fun s'' hs'' => (reads_tupleTypeElement (hr'.ahead hs'')).keeps)
    hs'.ready hr'.size_lt

theorem reads_functionTypeRest (hr : r.Serves s) : (functionTypeRest r).Reads s := by
  have hthrows := Keeps.append (keeps_eat .asyncKw hr.ready (by decide)) fun s' hs' =>
    keeps_takeAny [.throwsKw, .rethrowsKw] hs'.ready (by decide)
  refine Keeps.append_reads hthrows fun s' hs' => ?_
  exact reads_returnClause (hr.ahead hs').behind

theorem reads_primaryType (hr : r.ServesBehind s) : (primaryType r).Reads s := by
  have hname : s.kind ≠ .endOfFile →
      (node .identifierType (take ++ onlyIf (·.isAtOperator "<") (genericArgumentClause r))).Reads s :=
    fun hkind => Meets.node (Reads.append (reads_take hr.ready hkind) fun s' hs' =>
      keeps_optionalArguments (hr.serves s' hs').behind)
  refine meets_peek ?_
  split
  · next hkind => exact hname (ne_endOfFile_of_eq hkind (by decide))
  · next hkind => exact hname (ne_endOfFile_of_eq hkind (by decide))
  · next hkind =>
    have hopen : (take ++ r.type).Reads s :=
      Reads.append (reads_take hr.ready (ne_endOfFile_of_eq hkind (by decide))) fun s' hs' =>
        (hr.serves s' hs').type.keeps
    refine Reads.capture hopen fun es s' hs' => meets_peek (Meets.ite (fun hat => ?_) fun _ => ?_)
    · have hcolon : (emit es ++ take).Reads s' :=
        reads_emit_append (reads_take hs'.ready (ne_endOfFile_of_isAt (by decide) hat))
      have hvalue : (emit es ++ take ++ r.type).Reads s' := Reads.append hcolon fun s'' hs'' =>
        (hr.serves s'' (hs'.trans_ahead hs''.ahead)).type.keeps
      have hpair := Reads.append hvalue fun s'' hs'' =>
        (reads_expect .rightBracket "`]`" hs''.ready (by decide) (by decide)).keeps
      exact Meets.node hpair.keeps
    · exact Meets.node
        (keeps_emit_append (reads_expect _ _ hs'.ready (by decide) (by decide)).keeps)
  · refine Reads.capture (reads_tupleType hr) fun es s' hs' => meets_peek (Meets.ite (fun _ => ?_) ?_)
    · exact Meets.node (keeps_emit_append (reads_functionTypeRest (hr.serves s' hs')).keeps)
    · exact fun _ => keeps_emit hs'.ready
  · exact meets_expected (by decide)

theorem reads_typeSuffix (hr : r.ServesBehind s) (e : Element) (p : SyntaxKind × Grammar)
    (hp : typeSuffix? r s e = some p) : p.2.Reads s := by
  unfold typeSuffix? at hp
  split at hp
  · next hkind =>
    cases hp
    exact reads_take hr.ready (ne_endOfFile_of_eq hkind (by decide))
  · next hkind =>
    cases hp
    exact reads_take hr.ready (ne_endOfFile_of_eq hkind (by decide))
  · split at hp <;> cases hp
    next hat =>
    rw [Bool.and_eq_true] at hat
    exact Reads.append
      (reads_takeTwo hr.ready (kindAt_ne_endOfFile SyntaxKind.isName hat.2 (by decide)))
      fun s' hs' => keeps_optionalArguments (hr.serves s' hs').behind
  · cases hp

theorem reads_type (hr : r.ServesBehind s) : (type r).Reads s := by
  have hword : s.kind ≠ .endOfFile → ∀ kind, (node kind (take ++ r.type)).Reads s :=
    fun hkind kind => Meets.node (Reads.append (reads_take hr.ready hkind) fun s' hs' =>
      (hr.serves s' hs').type.keeps)
  refine meets_peek (Meets.ite ?_ fun _ => Meets.ite ?_ fun _ => Meets.ite ?_ fun _ => ?_)
  · intro _
    exact Meets.node (Reads.append (reads_attributeUse hr.ready) fun s' hs' =>
      (hr.serves s' hs').type.keeps)
  · exact fun hat => hword (ne_endOfFile_of_isAt (by decide) hat) _
  · intro hat
    rw [isAtOpaqueType, Bool.and_eq_true, Bool.and_eq_true] at hat
    exact hword (ne_endOfFile_of_isAt (by decide) hat.1.1) _
  · exact reads_withSuffixes (reads_primaryType hr) (Nat.le_of_lt hr.size_lt) fun s' hs' =>
      reads_typeSuffix (hr.serves s' hs').behind

/-! ### Patterns -/

theorem reads_takeNode {kind : SyntaxKind} (hs : s.Ready) (hkind : s.kind ≠ .endOfFile) :
    (node kind take).Reads s :=
  Meets.node (reads_take hs hkind)

theorem reads_bindingPattern (hr : r.ServesBehind s) : (bindingPattern r).Reads s := by
  refine meets_peek ?_
  split
  · next hkind => exact reads_takeNode hr.ready (ne_endOfFile_of_eq hkind (by decide))
  · next hkind => exact reads_takeNode hr.ready (ne_endOfFile_of_eq hkind (by decide))
  · next hkind =>
    refine Meets.node (Reads.append (Reads.append
      (reads_take hr.ready (ne_endOfFile_of_eq hkind (by decide))) fun s' hs' => ?_)
      fun s' hs' => (reads_expect _ _ hs'.ready (by decide) (by decide)).keeps)
    have hr' := hr.serves s' hs'
    exact keeps_commaSeparatedUntil (fun s'' hs'' => (hr'.ahead hs'').bindingPattern.keeps)
      hs'.ready hr'.size_lt
  · exact meets_expected (by decide)

/-- A pattern that introduces no names is an expression. -/
theorem reads_pattern (hr : r.ServesBehind s)
    (hexpression : s.isAtAny [.letKw, .varKw] = false → (r.expression .pattern).Reads s) :
    (pattern r).Reads s := by
  refine meets_peek (Meets.ite ?_ fun hat => Meets.ite ?_ fun _ => Meets.ite ?_ fun _ => ?_)
  · intro hat
    exact Meets.node (Reads.append (reads_take hr.ready (ne_endOfFile_of_isAtAny (by decide) hat))
      fun s' hs' => (hr.serves s' hs').pattern.keeps)
  · intro hat
    rw [isAtWildcardPattern, Bool.and_eq_true] at hat
    exact reads_takeNode hr.ready (ne_endOfFile_of_isAt (by decide) hat.1)
  · intro hat
    rw [Bool.and_eq_true] at hat
    exact reads_takeNode hr.ready (ne_endOfFile_of_isAt (by decide) hat.1)
  · exact Meets.node (hexpression (Bool.eq_false_iff.mpr hat))

/-! ### Blocks -/

/-- The statements of a block end in front of the brace that closes it. -/
theorem meets_blockItems (hr : r.Serves s) :
    (blockItems r).Meets s fun s' => s.Ahead s' ∧ s'.isAt .rightBrace = true := by
  refine (meets_repeated hr.ready hr.size_lt fun s' hs' g hg => ?_).mono fun s' hs' => ?_
  · split_ifs at hg <;> cases hg
    · exact meets_expected (by decide)
    · exact (hr.ahead hs').codeBlockItem
  · obtain ⟨hahead, hend⟩ := hs'
    split_ifs at hend with hat
    exact ⟨hahead, hat⟩

/-- What stops in front of a brace is followed by one. -/
theorem reads_upToBrace {g items : Grammar} (hg : g.Reads s)
    (hitems : ∀ s', s.Past s' →
      items.Meets s' fun s'' => s'.Ahead s'' ∧ s''.isAt .rightBrace = true) :
    (g ++ items ++ take).Reads s := by
  have hstop : (g ++ items).Meets s fun s' => s.Past s' ∧ s'.isAt .rightBrace = true :=
    Meets.append hg fun s' hs' => (hitems s' hs').mono fun _ hs'' =>
      ⟨hs'.trans_ahead hs''.1, hs''.2⟩
  refine Meets.append hstop fun s' hs' => ?_
  have hbrace := reads_take hs'.1.ready (ne_endOfFile_of_isAt (by decide) hs'.2)
  exact hbrace.mono fun _ hs'' => hs'.1.trans_ahead hs''.ahead

theorem reads_braced (kind : SyntaxKind) (hr : r.ServesBehind s) : (braced kind r).Reads s :=
  Meets.node (reads_upToBrace (reads_expect _ _ hr.ready (by decide) (by decide)) fun s' hs' =>
    meets_blockItems (hr.serves s' hs'))

theorem reads_codeBlock (hr : r.ServesBehind s) : (codeBlock r).Reads s := reads_braced _ hr

theorem reads_memberBlock (hr : r.ServesBehind s) : (memberBlock r).Reads s := reads_braced _ hr

theorem reads_whereClause (hr : r.ServesBehind s) (hkind : s.kind ≠ .endOfFile) :
    (whereClause r).Reads s :=
  Meets.node (Reads.append (reads_take hr.ready hkind) fun s' hs' =>
    ((hr.serves s' hs').expression _).keeps)

theorem keeps_optionalWhere (hr : r.ServesBehind s) : (whenAt .whereKw (whereClause r)).Keeps s :=
  keeps_whenAt hr.ready fun hat =>
    (reads_whereClause hr (ne_endOfFile_of_isAt (by decide) hat)).keeps

theorem keeps_optionalAscription (hr : r.ServesBehind s) :
    (whenAt .colon (typeAscription r)).Keeps s :=
  keeps_whenAt hr.ready fun _ => (reads_typeAscription hr).keeps

theorem reads_condition (hr : r.Serves s) : (condition r).Reads s := by
  have hbinding : s.kind ≠ .endOfFile →
      (node .optionalBindingCondition (take ++ r.bindingPattern ++
        whenAt .colon (typeAscription r) ++
        whenAt .equal (initializerClause r .condition))).Reads s := by
    intro hkind
    have hname : (take ++ r.bindingPattern).Reads s :=
      Reads.append (reads_take hr.ready hkind) fun s' hs' =>
        (hr.ahead hs'.ahead).bindingPattern.keeps
    have htype := Reads.append hname fun s' hs' =>
      keeps_optionalAscription (hr.ahead hs'.ahead).behind
    exact Meets.node (Reads.append htype fun s' hs' =>
      keeps_optionalInitializer (hr.ahead hs'.ahead).behind _)
  refine meets_peek ?_
  split
  · next hkind => exact hbinding (ne_endOfFile_of_eq hkind (by decide))
  · next hkind => exact hbinding (ne_endOfFile_of_eq hkind (by decide))
  · next hkind =>
    have hpattern : (take ++ r.pattern).Reads s :=
      Reads.append (reads_take hr.ready (ne_endOfFile_of_eq hkind (by decide))) fun s' hs' =>
        (hr.ahead hs'.ahead).pattern.keeps
    exact Reads.append hpattern fun s' hs' =>
      (reads_initializerClause (hr.ahead hs'.ahead).behind _).keeps
  · exact hr.expression _

theorem reads_conditionList (hr : r.Serves s) : (conditionList r).Reads s :=
  reads_commaSeparated (fun _ hs' => reads_condition (hr.ahead hs')) hr.ready hr.size_lt

theorem reads_ifExpr (hr : r.ServesBehind s) (hkind : s.kind ≠ .endOfFile) :
    (ifExpr r).Reads s := by
  have hcondition : (take ++ conditionList r).Reads s :=
    Reads.append (reads_take hr.ready hkind) fun s' hs' =>
      (reads_conditionList (hr.serves s' hs')).keeps
  have hblock := Reads.append hcondition fun s' hs' =>
    (reads_codeBlock (hr.serves s' hs').behind).keeps
  refine Meets.node (Reads.append hblock fun s' hs' => keeps_whenAt hs'.ready fun hat => ?_)
  have helse := reads_take hs'.ready (ne_endOfFile_of_isAt (by decide) hat)
  refine (Reads.append helse fun s'' hs'' => meets_peek (Meets.ite (fun hif => ?_) fun _ => ?_)).keeps
  · have hr'' := hr.serves s'' (hs'.trans_ahead hs''.ahead)
    exact (hr''.ifExpr (ne_endOfFile_of_isAt (by decide) hif)).keeps
  · exact (reads_codeBlock (hr.serves s'' (hs'.trans_ahead hs''.ahead)).behind).keeps

theorem reads_switchCaseLabel (hr : r.ServesBehind s) (hkind : s.kind ≠ .endOfFile) :
    (switchCaseLabel r).Reads s := by
  have hitem : ∀ s', r.Serves s' → (r.pattern ++ whenAt .whereKw (whereClause r)).Reads s' :=
    fun s' hr' => Reads.append hr'.pattern fun s'' hs'' =>
      keeps_optionalWhere (hr'.ahead hs''.ahead).behind
  have hitems : (take ++ commaSeparated .switchCaseItem r.bound
      (r.pattern ++ whenAt .whereKw (whereClause r))).Reads s := by
    refine Reads.append (reads_take hr.ready hkind) fun s' hs' => ?_
    have hr' := hr.serves s' hs'
    exact (reads_commaSeparated (fun s'' hs'' => hitem s'' (hr'.ahead hs'')) hs'.ready
      hr'.size_lt).keeps
  exact Meets.node
    (Reads.append hitems fun s' hs' => (reads_expect _ _ hs'.ready (by decide) (by decide)).keeps)

/-- The label of a case, or what stands for it in the last one. -/
theorem reads_caseLabel (hr : r.ServesBehind s) :
    (peek fun s =>
      match s.kind with
      | .caseKw => switchCaseLabel r
      | .defaultKw => node .switchDefaultLabel (take ++ expect .colon "`:`")
      | _ => expected "`case` or `default`").Reads s := by
  refine meets_peek ?_
  split
  · next hkind => exact reads_switchCaseLabel hr (ne_endOfFile_of_eq hkind (by decide))
  · next hkind =>
    exact Meets.node (Reads.append (reads_take hr.ready (ne_endOfFile_of_eq hkind (by decide)))
      fun s' hs' => (reads_expect _ _ hs'.ready (by decide) (by decide)).keeps)
  · exact meets_expected (by decide)

theorem reads_switchCase (hr : r.ServesBehind s) : (switchCase r).Reads s := by
  have hattribute := keeps_onlyIf (p := isAtUnknownAttribute) hr.ready fun _ =>
    (reads_attributeUse hr.ready).keeps
  have hhead := Keeps.append_reads hattribute fun s' hs' => reads_caseLabel (hr.ahead hs')
  refine Meets.node (Reads.append hhead fun s' hs' => ?_)
  have hr' := hr.serves s' hs'
  refine keeps_repeated hs'.ready hr'.size_lt fun s'' hs'' g hg => ?_
  split_ifs at hg <;> cases hg
  · exact meets_expected (by decide)
  · exact (hr'.ahead hs'').codeBlockItem

theorem reads_switchExpr (hr : r.ServesBehind s) (hkind : s.kind ≠ .endOfFile) :
    (switchExpr r).Reads s := by
  have hsubject : (take ++ r.expression .condition).Reads s :=
    Reads.append (reads_take hr.ready hkind) fun s' hs' =>
      ((hr.serves s' hs').expression _).keeps
  have hopen := Reads.append hsubject fun s' hs' =>
    (reads_expect .leftBrace "`\x7b`" hs'.ready (by decide) (by decide)).keeps
  refine Meets.node (reads_upToBrace hopen fun s' hs' => ?_)
  have hr' := hr.serves s' hs'
  refine (meets_repeated hs'.ready hr'.size_lt fun s'' hs'' g hg => ?_).mono fun s'' hs'' => ?_
  · split_ifs at hg
    cases hg
    exact reads_switchCase (hr'.ahead hs'').behind
  · obtain ⟨hahead, hend⟩ := hs''
    split_ifs at hend with hat
    exact ⟨hahead, hat⟩

/-! ### Expressions -/

theorem keeps_argumentList (hr : r.Serves s) (close : SyntaxKind) (inPattern : Bool) :
    (argumentList r close inPattern).Keeps s := by
  refine Meets.node (keeps_commaSeparatedUntil (fun s' hs' => ?_) hr.ready hr.size_lt)
  have hlabel := keeps_onlyIf (p := fun s => s.kind.isName && s.kindAt 1 == .colon)
    (g := takeN 2) hs'.ready fun hat => by
      rw [Bool.and_eq_true] at hat
      exact (reads_takeTwo hs'.ready (kindAt_ne_endOfFile (· == .colon) hat.2 (by decide))).keeps
  exact Keeps.append hlabel fun s'' hs'' => keeps_onlyIf hs''.ready fun _ =>
    ((hr.ahead (hs'.trans hs'')).expression _).keeps

theorem signatureLength?_le {depth n : Nat} {ts : List Token}
    (h : signatureLength? depth ts = some n) : n ≤ ts.length := by
  induction ts generalizing depth n with
  | nil => cases h
  | cons t ts ih =>
    have hlater : ∀ {d}, (signatureLength? d ts).map (· + 1) = some n → n ≤ ts.length + 1 := by
      intro d hd
      obtain ⟨m, hm, rfl⟩ := Option.map_eq_some_iff.mp hd
      exact Nat.succ_le_succ (ih hm)
    rw [signatureLength?] at h
    split at h
    · split_ifs at h
      cases h
      exact Nat.succ_le_succ (Nat.zero_le _)
    · exact hlater h
    · exact hlater h
    · split_ifs at h
      exact hlater h
    · split_ifs at h
      exact hlater h
    · split_ifs at h
      exact hlater h
    · split_ifs at h
      exact hlater h

theorem keeps_closureSignature (hs : s.Ready) :
    (peek fun s =>
      match signatureLength? 0 s.pending with
      | some n => node .closureSignature (takeN n)
      | none => nothing).Keeps s := by
  refine meets_peek ?_
  split
  · next n hn => exact Meets.node (keeps_takeN hs (signatureLength?_le hn))
  · exact keeps_nothing hs

theorem reads_closureExpr (hr : r.ServesBehind s) : (closureExpr r).Reads s := by
  refine Meets.node (reads_upToBrace (Reads.append
    (reads_expect _ _ hr.ready (by decide) (by decide)) fun s' hs' =>
      keeps_closureSignature hs'.ready) ?_)
  exact fun s' hs' => meets_blockItems (hr.serves s' hs')

theorem reads_collectionExpr (hr : r.ServesBehind s) (hkind : s.kind ≠ .endOfFile) :
    (collectionExpr r).Reads s := by
  refine Reads.capture (reads_take hr.ready hkind) fun opening s' hs' => meets_peek ?_
  have hr' := hr.serves s' hs'
  refine Meets.ite (fun hat => ?_) fun _ => Meets.ite (fun hat => ?_) fun _ => ?_
  · rw [Bool.and_eq_true] at hat
    have htwo := reads_takeTwo hs'.ready
      (kindAt_ne_endOfFile (· == .rightBracket) hat.2 (by decide))
    exact Meets.node (keeps_emit_append htwo.keeps)
  · have hclose := reads_take hs'.ready (ne_endOfFile_of_isAt (by decide) hat)
    exact Meets.node (keeps_emit_append hclose.keeps)
  refine (Reads.capture (hr'.expression .free) fun first s'' hs'' => meets_peek ?_).keeps
  have hr'' := hr'.ahead hs''.ahead
  have hbehindKey : ∀ t, r.Serves t → (expect .colon "`:`" ++ r.expression .free).Reads t :=
    fun t ht => Reads.append (reads_expect _ _ ht.ready (by decide) (by decide)) fun t' ht' =>
      ((ht.ahead ht'.ahead).expression .free).keeps
  refine Meets.ite (fun _ => ?_) fun _ => ?_
  · have helements : (commaList .dictionaryElement (·.isAt .rightBracket)
        (r.expression .free ++ (expect .colon "`:`" ++ r.expression .free)) r.bound
        (emit first ++ (expect .colon "`:`" ++ r.expression .free))).Keeps s'' :=
      keeps_commaList (keeps_emit_append (hbehindKey s'' hr'').keeps) hr''.ready hr''.size_lt
        fun t ht => Keeps.append ((hr''.ahead ht.ahead).expression .free).keeps fun t' ht' =>
          (hbehindKey t' (hr''.ahead (ht.ahead.trans ht'))).keeps
    exact Meets.node (Keeps.append (keeps_emit_append helements) fun t ht =>
      (reads_expect _ _ ht.ready (by decide) (by decide)).keeps)
  · have helements : (commaList .arrayElement (·.isAt .rightBracket) (r.expression .free) r.bound
        (emit first)).Keeps s'' :=
      keeps_commaList (keeps_emit hr''.ready) hr''.ready hr''.size_lt fun t ht =>
        ((hr''.ahead ht.ahead).expression .free).keeps
    exact Meets.node (Keeps.append (keeps_emit_append helements) fun t ht =>
      (reads_expect _ _ ht.ready (by decide) (by decide)).keeps)

theorem reads_memberName (hs : s.Ready) : memberName.Reads s := by
  refine meets_peek (Meets.ite (fun hat => reads_take hs ?_) fun _ => meets_expected (by decide))
  exact kind_ne_endOfFile
    (fun k => k.isName || k == .integerLiteral || k == .dollarIdentifier) hat (by decide)

theorem reads_takeMember (hs : s.Ready) (hkind : s.kind ≠ .endOfFile) :
    (take ++ memberName).Reads s :=
  Reads.append (reads_take hs hkind) fun _ hs' => (reads_memberName hs'.ready).keeps

/-- A bracket, the values behind it and the bracket that closes it. -/
theorem reads_takeArguments {close : SyntaxKind} {what : String} (hr : r.ServesBehind s)
    (hkind : s.kind ≠ .endOfFile) (inPattern : Bool) (hclose : close ≠ .endOfFile)
    (hwhat : what ≠ "token") :
    (take ++ argumentList r close inPattern ++ expect close what).Reads s := by
  have hvalues : (take ++ argumentList r close inPattern).Reads s :=
    Reads.append (reads_take hr.ready hkind) fun s' hs' =>
      keeps_argumentList (hr.serves s' hs') close inPattern
  exact Reads.append hvalues fun s' hs' => (reads_expect _ _ hs'.ready hclose hwhat).keeps

/-- An operand may start with a conditional or a pattern; anything else takes a token first. -/
theorem reads_primaryExpr {ρ : Restrictions} (hr : r.ServesBehind s)
    (hif : s.kind = .ifKw → r.ifExpr.Reads s)
    (hpattern : s.isAtAny [.letKw, .varKw] = true → r.pattern.Reads s) :
    (primaryExpr r ρ).Reads s := by
  have hbinding : s.isAtAny [.letKw, .varKw] = true →
      (if ρ.inPattern = true then r.pattern else expected "expression").Reads s :=
    fun hat => Meets.ite (fun _ => hpattern hat) fun _ => meets_expected (by decide)
  refine meets_peek ?_
  split
  case h_1 hkind | h_2 hkind | h_3 hkind | h_4 hkind | h_5 hkind | h_6 hkind =>
    exact reads_takeNode hr.ready (ne_endOfFile_of_eq hkind (by decide))
  case h_7 hkind =>
    refine Meets.ite (fun _ => meets_fail ?_) fun _ => ?_
    · exact ⟨by rintro ⟨⟩, by rintro _ ⟨⟩⟩
    · exact reads_takeNode hr.ready (ne_endOfFile_of_eq hkind (by decide))
  case h_8 hkind => exact reads_takeNode hr.ready (ne_endOfFile_of_eq hkind (by decide))
  case h_9 hkind =>
    exact Meets.node (reads_takeMember hr.ready (ne_endOfFile_of_eq hkind (by decide)))
  case h_10 hkind =>
    exact Meets.node (reads_takeArguments hr (ne_endOfFile_of_eq hkind (by decide)) _ (by decide) (by decide))
  case h_11 hkind => exact reads_collectionExpr hr (ne_endOfFile_of_eq hkind (by decide))
  case h_12 => exact reads_closureExpr hr
  case h_13 hkind => exact hif hkind
  case h_14 hkind => exact reads_switchExpr hr (ne_endOfFile_of_eq hkind (by decide))
  case h_15 hkind => exact hbinding (by rw [isAtAny, hkind]; rfl)
  case h_16 hkind => exact hbinding (by rw [isAtAny, hkind]; rfl)
  case h_17 hkind =>
    refine Meets.ite (fun _ => ?_) fun _ => meets_expected (by decide)
    exact Meets.node (Reads.append (reads_take hr.ready (ne_endOfFile_of_eq hkind (by decide)))
      fun s' hs' => (hr.serves s' hs').type.keeps)
  case h_18 =>
    refine Meets.ite (fun hat => ?_) fun _ => Meets.ite (fun hat => ?_) fun _ => meets_expected
      (by decide)
    · exact reads_takeNode hr.ready (kind_ne_endOfFile SyntaxKind.isLiteralToken hat (by decide))
    · rw [isAtOperatorValue, Bool.and_eq_true] at hat
      exact reads_takeNode hr.ready (kind_ne_endOfFile SyntaxKind.isOperator hat.1 (by decide))

theorem reads_exprSuffix {ρ : Restrictions} (hr : r.ServesBehind s) (e : Element)
    (p : SyntaxKind × Grammar) (hp : exprSuffix? r ρ s e = some p) : p.2.Reads s := by
  unfold exprSuffix? at hp
  split at hp
  · next hkind =>
    cases hp
    exact reads_takeMember hr.ready (ne_endOfFile_of_eq hkind (by decide))
  · next hkind =>
    split_ifs at hp
    cases hp
    refine Reads.append (reads_takeArguments hr (ne_endOfFile_of_eq hkind (by decide)) _ (by decide)
      (by decide)) fun s' hs' => ?_
    exact keeps_onlyIf hs'.ready fun _ => (reads_closureExpr (hr.serves s' hs').behind).keeps
  · next hkind =>
    split_ifs at hp
    cases hp
    exact reads_takeArguments hr (ne_endOfFile_of_eq hkind (by decide)) _ (by decide) (by decide)
  · split_ifs at hp
    cases hp
    exact reads_closureExpr hr
  · next hkind =>
    cases hp
    exact reads_take hr.ready (ne_endOfFile_of_eq hkind (by decide))
  · next hkind =>
    cases hp
    exact reads_take hr.ready (ne_endOfFile_of_eq hkind (by decide))
  · next hkind =>
    cases hp
    exact reads_take hr.ready (ne_endOfFile_of_eq hkind (by decide))
  · cases hp

theorem keeps_optionalMark (hs : s.Ready) : optionalMark.Keeps s := keeps_takeAny _ hs (by decide)

theorem reads_operand {ρ : Restrictions} (hr : r.ServesBehind s)
    (hif : s.kind = .ifKw → r.ifExpr.Reads s)
    (hpattern : s.isAtAny [.letKw, .varKw] = true → r.pattern.Reads s) :
    (operand r ρ).Reads s := by
  have hword : s.kind ≠ .endOfFile → ∀ kind, (node kind (take ++ r.operand ρ)).Reads s :=
    fun hkind kind => Meets.node (Reads.append (reads_take hr.ready hkind) fun s' hs' =>
      ((hr.serves s' hs').operand ρ).keeps)
  refine meets_peek (Meets.ite (fun hat => ?_) fun _ => Meets.ite (fun hat => ?_) fun _ =>
    Meets.ite (fun hat => ?_) fun _ => ?_)
  · rw [Bool.and_eq_true] at hat
    exact hword (ne_endOfFile_of_isAt (by decide) hat.1) _
  · have hmark : (take ++ optionalMark).Reads s :=
      Reads.append (reads_take hr.ready (ne_endOfFile_of_isAt (by decide) hat)) fun s' hs' =>
        keeps_optionalMark hs'.ready
    exact Meets.node (Reads.append hmark fun s' hs' => ((hr.serves s' hs').operand ρ).keeps)
  · exact hword (ne_endOfFile_of_isAt (by decide) hat) _
  · exact reads_withSuffixes (reads_primaryExpr hr hif hpattern) (Nat.le_of_lt hr.size_lt)
      fun s' hs' => reads_exprSuffix (hr.serves s' hs').behind

theorem reads_operatorPart {ρ : Restrictions} (hr : r.ServesBehind s) (g : Grammar)
    (hg : operatorPart? r ρ s = some g) : g.Reads s := by
  have hoperator : s.kind ≠ .endOfFile → (take ++ r.operand ρ).Reads s :=
    fun hkind => Reads.append (reads_take hr.ready hkind) fun s' hs' =>
      ((hr.serves s' hs').operand ρ).keeps
  unfold operatorPart? at hg
  split at hg
  · next hkind =>
    cases hg
    exact hoperator (ne_endOfFile_of_eq hkind (by decide))
  · next hkind =>
    split_ifs at hg
    cases hg
    exact hoperator (ne_endOfFile_of_eq hkind (by decide))
  · next hkind =>
    cases hg
    have hmiddle : (take ++ r.expression { ρ with inPattern := false }).Reads s :=
      Reads.append (reads_take hr.ready (ne_endOfFile_of_eq hkind (by decide))) fun s' hs' =>
        ((hr.serves s' hs').expression _).keeps
    have hcolon := Reads.append hmiddle fun s' hs' =>
      (reads_expect .colon "`:`" hs'.ready (by decide) (by decide)).keeps
    exact Reads.append hcolon.node fun s' hs' => ((hr.serves s' hs').operand ρ).keeps
  · next hkind =>
    cases hg
    exact Meets.node (Reads.append (reads_take hr.ready (ne_endOfFile_of_eq hkind (by decide)))
      fun s' hs' => (hr.serves s' hs').type.keeps)
  · next hkind =>
    cases hg
    have hmark : (take ++ optionalMark).Reads s :=
      Reads.append (reads_take hr.ready (ne_endOfFile_of_eq hkind (by decide))) fun s' hs' =>
        keeps_optionalMark hs'.ready
    exact Meets.node (Reads.append hmark fun s' hs' => (hr.serves s' hs').type.keeps)
  · cases hg

theorem reads_expression {ρ : Restrictions} (hr : r.ServesBehind s)
    (hoperand : (r.operand ρ).Reads s) : (expression r ρ).Reads s := by
  refine reads_nodeUnlessSingle (Reads.append hoperand fun s' hs' => ?_)
  have hr' := hr.serves s' hs'
  exact keeps_repeated hs'.ready hr'.size_lt fun s'' hs'' =>
    reads_operatorPart (hr'.ahead hs'').behind

end Grammar

end SwiftTidy
