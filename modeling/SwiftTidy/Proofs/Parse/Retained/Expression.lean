import SwiftTidy.Proofs.Parse.Productions
import SwiftTidy.Proofs.Parse.Retaining
import SwiftTidy.Proofs.Parse.Without.Expression

/-!
# Types, patterns and expressions with operators that loosen

One statement for each production: what it builds it builds where operators loosen too, and it ends where
nothing loosens, or a colon keeps it from ending there (`Nonterminal.ends`).

The statements are about any relation of inputs that reads on (`ReadsOn`).  It is `Input.Loosens M` in the
end.  But a signature may come up in a closure behind whose brace there was none.  So the statements are
used before for a relation that holds of no other inputs than those in front of such a signature
(`Token.Penned`): from there no closing brace is reached.  These inputs hold no keyword, and what a keyword
starts need not be read on from them.  `Level.Reads` is what is assumed of a level for such a relation, and
`Level.ReadsAll` behind a keyword.
-/

namespace SwiftTidy

open Element Grammar

/-- Where a nonterminal does not end. -/
def Nonterminal.ends (M : Nat → Prop) : Nonterminal → Input → Prop
  | .type | .bindingPattern | .ifExpr => Never
  | .expression _ | .operand _ | .pattern => (·.MayLoosen M)
  | .codeBlockItem => (·.IsAstray M)

/-- The nonterminals that no keyword stands in front of. -/
def Nonterminal.isQuiet : Nonterminal → Bool
  | .expression _ | .operand _ | .codeBlockItem => true
  | _ => false

/-- What every level has. -/
structure Level.Knows (M : Nat → Prop) (R : Input → Input → Prop) (r : Level) : Prop where
  assembled : r.Assembled
  on : ReadsOn M R
  /-- Nothing starts at a colon or in front of one. -/
  rejects : ∀ p s, p ≠ .ifExpr → s.IsAstray M → (r.read p).Rejects s

/-- All nonterminals of a level build the same from related inputs. -/
structure Level.ReadsAll (M : Nat → Prop) (R : Input → Input → Prop) (r : Level) : Prop
    extends r.Knows M R where
  behind : ∀ {s u}, R s u → R s.behind u.behind
  splitRightAngle : ∀ {s u}, R s u → R s.splitRightAngle u.splitRightAngle
  reads : ∀ p s u, R s u → (p = .ifExpr → s.kind = .ifKw) → Retains M R (p.ends M) s.offset s u (r.read p)
  penned : ∀ (s : Input) es t, Token.Penned M s.offset s.pending → (blockItems r).run s = .ok (es, t) →
    ¬ ClearsAll M s.offset es

/-- The nonterminals of a level that no keyword stands in front of build the same from related inputs, and
behind a keyword all of them do. -/
structure Level.Reads (M : Nat → Prop) (R : Input → Input → Prop) (r : Level) : Prop
    extends r.Knows M R where
  reads : ∀ p s u, p.isQuiet = true → R s u → Retains M R (p.ends M) s.offset s u (r.read p)
  all : ∀ {s u}, R s u → s.kind.isQuiet = false → r.ReadsAll M R

namespace Level

variable {M : Nat → Prop} {R : Input → Input → Prop} {B : Input → Prop} {r : Level} {s u : Input}

theorem ReadsAll.toReads (hr : r.ReadsAll M R) : r.Reads M R where
  toKnows := hr.toKnows
  reads p s u hp h := hr.reads p s u h fun hif => by
    subst hif
    cases hp
  all _ _ := hr

theorem ReadsAll.type (hr : r.ReadsAll M R) (h : R s u) : Retains M R B s.offset s u r.type :=
  (hr.reads .type s u h (fun h => by cases h)).anywhere

theorem ReadsAll.bindingPattern (hr : r.ReadsAll M R) (h : R s u) :
    Retains M R B s.offset s u r.bindingPattern :=
  (hr.reads .bindingPattern s u h (fun h => by cases h)).anywhere

theorem ReadsAll.ifExpr (hr : r.ReadsAll M R) (h : R s u) (hkind : s.kind = .ifKw) :
    Retains M R B s.offset s u r.ifExpr :=
  (hr.reads .ifExpr s u h (fun _ => hkind)).anywhere

theorem ReadsAll.pattern (hr : r.ReadsAll M R) (h : R s u) :
    Retains M R (·.MayLoosen M) s.offset s u r.pattern :=
  hr.reads .pattern s u h (fun h => by cases h)

theorem Reads.expression (hr : r.Reads M R) (ρ : Restrictions) (h : R s u) :
    Retains M R (·.MayLoosen M) s.offset s u (r.expression ρ) :=
  hr.reads (.expression ρ) s u rfl h

theorem Reads.operand (hr : r.Reads M R) (ρ : Restrictions) (h : R s u) :
    Retains M R (·.MayLoosen M) s.offset s u (r.operand ρ) :=
  hr.reads (.operand ρ) s u rfl h

theorem Reads.codeBlockItem (hr : r.Reads M R) (h : R s u) :
    Retains M R (·.IsAstray M) s.offset s u r.codeBlockItem :=
  hr.reads .codeBlockItem s u rfl h

theorem ReadsAll.expression (hr : r.ReadsAll M R) (ρ : Restrictions) (h : R s u) :
    Retains M R (·.MayLoosen M) s.offset s u (r.expression ρ) :=
  hr.toReads.expression ρ h

theorem Knows.type_rejects (hr : r.Knows M R) (hs : s.IsAstray M) : r.type.Rejects s :=
  hr.rejects .type s (fun h => by cases h) hs

theorem Knows.expression_rejects (hr : r.Knows M R) (ρ : Restrictions) (hs : s.IsAstray M) :
    (r.expression ρ).Rejects s :=
  hr.rejects (.expression ρ) s (fun h => by cases h) hs

theorem Knows.operand_rejects (hr : r.Knows M R) (ρ : Restrictions) (hs : s.IsAstray M) :
    (r.operand ρ).Rejects s :=
  hr.rejects (.operand ρ) s (fun h => by cases h) hs

end Level

namespace Grammar

variable {M : Nat → Prop} {R : Input → Input → Prop} {B : Input → Prop} {r : Level} {s t u v : Input}
  {k : SyntaxKind} {o : Nat}

/-! ### Inputs at which nothing starts -/

theorem rejects_expect_of_mayLoosen (hk : k.isOperator = false) (what : String) (hs : s.MayLoosen M) :
    (expect k what).Rejects s :=
  rejects_expect what (hs.isAt hk)

theorem rejects_expect_of_astray (hk : k.isOperator = false) (hcolon : k ≠ .colon) (what : String)
    (hs : s.IsAstray M) : (expect k what).Rejects s :=
  rejects_expect what (hs.isAt hk hcolon)

theorem idle_whenAt_of_mayLoosen {g : Grammar} (hk : k.isOperator = false) (hs : s.MayLoosen M) :
    (whenAt k g).Idle s :=
  idle_onlyIf (hs.isAt hk)

theorem idle_whenAt_of_astray {g : Grammar} (hk : k.isOperator = false) (hcolon : k ≠ .colon)
    (hs : s.IsAstray M) : (whenAt k g).Idle s :=
  idle_onlyIf (hs.isAt hk hcolon)

/-! ### Attributes -/

/-- The arguments of an attribute are read as they are. -/
theorem run_attributeArguments (hon : ReadsOn M R) (h : R s u) {es : List Element}
    (hrun : (onlyIf (fun s => s.isAt .leftParen && !s.isAfterNewline) balancedParens).run s = .ok (es, t))
    (hspares : Spares M s.offset es) (hclears : ClearsAll M s.offset es) :
    ∃ v, (onlyIf (fun s => s.isAt .leftParen && !s.isAfterNewline) balancedParens).run u = .ok (es, v) ∧
      R t v ∧ t.offset = s.offset + fullLenAll es := by
  have hloosens := hon.loosens h
  refine retains_onlyIf (B := Never) h (by rw [hloosens.isAt_eq rfl, hloosens.isAfterNewline_eq])
    (fun htest => ?_) es t hrun hclears id
  rw [run_onlyIf_of_test htest] at hrun
  refine retains_peek (by rw [balancedLength?_eq hloosens]) ?_
  unfold balancedParens peek at hrun
  dsimp only at hrun
  split at hrun
  · next n hn =>
    refine hon.takeN h fun i hi => not_mayLoosen_of_spares hrun hspares (fun m hm => ?_) hi
    obtain ⟨m', hm', hkind⟩ := exists_of_balancedLength? s.endOfFile hn
    obtain rfl : m' = m := by omega
    rw [Input.kindAt, Input.nth, hkind]
    rfl
  · cases hrun

theorem retains_attributeUse (hon : ReadsOn M R) (h : R s u) : Retains M R B s.offset s u attributeUse := by
  intro es t hrun hclears _
  obtain ⟨fs, w, hfs, hemit⟩ := run_capture hrun
  cases hemit
  obtain ⟨front, back, w, hfront, hback, rfl⟩ := run_append hfs
  have hspares := hclears.spares rfl
  have hparts := clearsAll_append.mp hclears.of_node
  have hname : Retains M R Never s.offset s u (expect .atSign "`@`" ++ peek fun s =>
      if s.isAt .identifier || s.kind.isKeyword then take else expected "attribute name") := by
    refine (hon.expect h rfl _).append fun t v h => ?_
    refine retains_test ?_ (fun htest => hon.take h ?_) fun _ => (rejects_expected _).retains
    · rw [hon.isAt_eq h rfl, (hon.loosens h).kind_eq_of SyntaxKind.isKeyword rfl rfl]
    · intro hloose
      rw [hloose.isAt rfl] at htest
      rcases hloose.1 with hkind | hkind <;> rw [hkind] at htest <;> cases htest
  obtain ⟨v, hv, hR, hoffset⟩ := hname front w hfront hparts.1 id
  rw [← hoffset] at hparts
  obtain ⟨v', hv', hR', hoffset'⟩ := run_attributeArguments hon hR hback (fun front' c back' hsplit => by
    rw [hoffset, Nat.add_assoc, ← fullLenAll_append]
    exact hspares (front ++ front') c back' (by rw [hsplit, List.append_assoc])) hparts.2
  refine ⟨v', run_capture_eq (run_append_eq hv hv') rfl, hR', ?_⟩
  rw [hoffset', hoffset, fullLenAll_single, fullLen, fullLenAll_append, Nat.add_assoc]

/-! ### Types -/

theorem retains_typeAscription (hr : r.ReadsAll M R) (h : R s u) :
    Retains M R B s.offset s u (typeAscription r) :=
  ((hr.on.expect h rfl _).append fun _ _ => hr.type).node

theorem retains_initializerClause (hr : r.ReadsAll M R) (ρ : Restrictions) (h : R s u) :
    Retains M R (·.MayLoosen M) s.offset s u (initializerClause r ρ) :=
  ((hr.on.expect h rfl _).append fun _ _ => hr.expression ρ).node

theorem retains_returnClause (hr : r.ReadsAll M R) (h : R s u) :
    Retains M R B s.offset s u (returnClause r) :=
  ((hr.on.expect h rfl _).append fun _ _ => hr.type).node

theorem retains_optionalAscription (hr : r.ReadsAll M R) (h : R s u) :
    Retains M R B s.offset s u (whenAt .colon (typeAscription r)) :=
  hr.on.whenAt h rfl fun _ => retains_typeAscription hr h

theorem retains_optionalInitializer (hr : r.ReadsAll M R) (ρ : Restrictions) (h : R s u) :
    Retains M R (·.MayLoosen M) s.offset s u (whenAt .equal (initializerClause r ρ)) :=
  hr.on.whenAt h rfl fun _ => retains_initializerClause hr ρ h

theorem retains_takeAs (hr : r.ReadsAll M R) (k : SyntaxKind) (h : R s u) :
    Retains M R B s.offset s u (takeAs k) :=
  ReadsOn.takeAs_of (hr.behind h) (hr.on.loosens h) k

theorem retains_splitRightAngle (hr : r.ReadsAll M R) (h : R s u) :
    Retains M R B s.offset s u splitRightAngle := by
  intro es t hrun _ _
  cases hrun
  exact ⟨_, rfl, hr.splitRightAngle h, s.offset_splitRightAngle⟩

theorem retains_rightAngle (hr : r.ReadsAll M R) (h : R s u) : Retains M R B s.offset s u rightAngle := by
  refine (retains_splitRightAngle hr h).append fun t v h => ?_
  exact retains_test ((hr.on.loosens h).isAtOperator_eq _) (fun _ => retains_takeAs hr _ h) fun _ =>
    (rejects_expected _).retains

theorem retains_genericArgumentClause (hr : r.ReadsAll M R) (h : R s u) :
    Retains M R B s.offset s u (genericArgumentClause r) := by
  have hitem : ∀ t v, R t v → Retains M R Never t.offset t v (r.type ++ splitRightAngle) :=
    fun t v h => (hr.type h).append fun _ _ => retains_splitRightAngle hr
  refine Retains.node (Retains.append ?_ fun _ _ => retains_rightAngle hr)
  refine (retains_takeAs hr _ h).append fun t v h => ?_
  exact hr.on.commaSeparated rfl (.append (hr.assembled .type) .splitRightAngle) (fun _ _ => id) h hitem

theorem retains_optionalArguments (hr : r.ReadsAll M R) (h : R s u) :
    Retains M R B s.offset s u (onlyIf (·.isAtOperator "<") (genericArgumentClause r)) :=
  retains_onlyIf h ((hr.on.loosens h).isAtOperator_eq _) fun _ => retains_genericArgumentClause hr h

/-- What an operator that loosens is taken for may not end in front of the colon behind it. -/
theorem retains_ellipsis (hon : ReadsOn M R) (h : R s u) :
    Retains M R (·.IsAstray M) s.offset s u (onlyIf (·.isAtOperator "...") take) :=
  retains_onlyIf h ((hon.loosens h).isAtOperator_eq _) fun _ => hon.take_astray h

theorem not_isOperator_of_isName (hk : k.isName = true) : k.isOperator = false := by
  refine Bool.eq_false_iff.mpr fun hoperator => ?_
  unfold SyntaxKind.isOperator at hoperator
  split at hoperator
  · exact absurd hk (by decide)
  · exact absurd hk (by decide)
  · exact absurd hk (by decide)
  · cases hoperator

theorem retains_tupleTypeElement (hr : r.ReadsAll M R) (h : R s u) :
    Retains M R (·.IsAstray M) s.offset s u (tupleTypeElement r) := by
  have hname : ∀ n, (u.kindAt n).isName = (s.kindAt n).isName :=
    (hr.on.loosens h).kindAt_eq_of SyntaxKind.isName rfl rfl
  have hcolon : ∀ n, (u.kindAt n == .colon) = (s.kindAt n == .colon) :=
    fun n => (hr.on.loosens h).kindAt_beq n rfl
  refine Retains.append_idle (Retains.append (Retains.append ?_ fun _ _ => hr.type) fun _ _ =>
    retains_ellipsis hr.on) (fun t ht => idle_whenAt_of_astray rfl (by decide) ht) fun _ _ h =>
    (retains_optionalInitializer hr _ h).settled
  refine retains_test (by rw [hcolon, show u.kind.isName = s.kind.isName from hname 0]) (fun htest => ?_)
    fun _ => retains_test (by rw [hcolon, hname, show u.kind.isName = s.kind.isName from hname 0])
      (fun htest => ?_) fun _ => retains_nothing h
  · rw [Bool.and_eq_true] at htest
    exact hr.on.takeTwo h (not_isOperator_of_isName htest.1) (by rw [eq_of_beq htest.2]; rfl)
  · rw [Bool.and_eq_true, Bool.and_eq_true] at htest
    refine hr.on.take_append h (Input.not_mayLoosen_of_kind (not_isOperator_of_isName htest.1.1) rfl)
      fun h => ?_
    refine hr.on.takeTwo h ?_ ?_
    · rw [show s.behind.kind = s.kindAt 1 from (s.kindAt_succ 0).symm]
      exact not_isOperator_of_isName htest.1.2
    · rw [← s.kindAt_succ, eq_of_beq htest.2]
      rfl

theorem retains_tupleType (hr : r.ReadsAll M R) (h : R s u) : Retains M R B s.offset s u (tupleType r) := by
  refine Retains.node (Retains.append_due ((hr.on.expect h rfl _).append fun t v h => ?_)
    (fun t (ht : t.IsAstray M) => rejects_expect_of_astray rfl (by decide) _ ht) fun _ _ h =>
      hr.on.expect h rfl _)
  exact hr.on.commaSeparatedUntil rfl rfl (assembled_tupleTypeElement hr.assembled)
    (fun t hat => Input.not_isAstray_of_isAt rfl (by decide) hat) h fun _ _ => retains_tupleTypeElement hr

theorem retains_functionTypeRest (hr : r.ReadsAll M R) (h : R s u) :
    Retains M R B s.offset s u (functionTypeRest r) := by
  refine Retains.append (Retains.append (hr.on.eat h rfl) fun t v h => ?_) fun _ _ => retains_returnClause hr
  exact hr.on.takeAny h (by decide)

theorem rejects_primaryType (hs : s.IsAstray M) : (primaryType r).Rejects s := by
  refine rejects_peek ?_
  rcases hs with ⟨hkind | hkind, -⟩ | hkind <;> rw [hkind] <;> exact rejects_expected _

theorem retains_primaryType (hr : r.ReadsAll M R) (h : R s u) :
    Retains M R B s.offset s u (primaryType r) := by
  by_cases hloose : s.MayLoosen M
  · exact (rejects_primaryType (.inl hloose)).retains
  have htake : Retains M R Never s.offset s u take := hr.on.take h hloose
  have hname : Retains M R B s.offset s u
      (node .identifierType (take ++ onlyIf (·.isAtOperator "<") (genericArgumentClause r))) :=
    (htake.append fun _ _ => retains_optionalArguments hr).node
  refine retains_peek (by rw [(hr.on.loosens h).kind_eq hloose]) ?_
  split
  · exact hname
  · exact hname
  · -- a colon behind the first type makes it a dictionary
    refine (htake.append fun _ _ => hr.type (B := Never)).capture (fun es => ?_) (fun _ _ _ _ _ _ => id)
      fun es t v h ho => ?_
    · refine .peek fun _ => .ite (.node rfl ?_) (.node rfl (.append (.emit es) (.expect _ _)))
      exact .append (.append (.append (.emit es) .take) (hr.assembled .type)) (.expect _ _)
    · refine retains_test (hr.on.isAt_eq h rfl) (fun hat => ?_) fun _ => ?_
      · have hcolon : Retains M R Never s.offset t v (emit es ++ take) :=
          (hr.on.take_of_isAt h rfl hat).emit_append ho
        exact ((hcolon.append fun _ _ => hr.type).append fun _ _ h => hr.on.expect h rfl _).node
      · exact ((hr.on.expect h rfl _).emit_append ho).node
  · refine (retains_tupleType (B := Never) hr h).capture (fun es => ?_) (fun _ _ _ _ _ _ => id)
      fun es t v h ho => ?_
    · refine .peek fun _ => .ite (.node rfl (.append (.emit es) ?_)) (.emit es)
      exact assembled_functionTypeRest hr.assembled
    · refine retains_test ((hr.on.loosens h).isAtAny_eq (by decide)) (fun _ => ?_) fun _ => retains_emit h ho
      exact ((retains_functionTypeRest hr h).emit_append ho).node
  · exact (rejects_expected _).retains

theorem typeSuffix?_eq (h : s.Loosens M u) (e : Element) : typeSuffix? r u e = typeSuffix? r s e := by
  unfold typeSuffix?
  rw [h.isAfterNewline_eq, h.kindAt_eq_of SyntaxKind.isName rfl rfl 1]
  rcases h.nth 0 with heq | ⟨k, hloosens, heq⟩
  · rw [show u.kind = s.kind from congrArg Token.kind heq]
  · rw [show u.kind = k from congrArg Token.kind heq]
    change s.kind.Loosens k at hloosens
    generalize s.kind = j at hloosens
    cases hloosens <;> rfl

theorem retains_typeSuffix (hr : r.ReadsAll M R) (h : R s u) {e : Element} {p : SyntaxKind × Grammar}
    (hp : typeSuffix? r s e = some p) : Retains M R B s.offset s u p.2 := by
  have htake : s.kind.isOperator = false → Retains M R B s.offset s u take :=
    fun hkind => hr.on.take h (Input.not_mayLoosen_of_kind hkind rfl)
  unfold typeSuffix? at hp
  split at hp
  · next hkind =>
    cases hp
    exact htake (by rw [hkind]; rfl)
  · next hkind =>
    cases hp
    exact htake (by rw [hkind]; rfl)
  · next hkind =>
    split_ifs at hp with hname
    cases hp
    rw [Bool.and_eq_true] at hname
    refine Retains.append (hr.on.takeTwo h (by rw [hkind]; rfl) (not_isOperator_of_isName hname.2)) ?_
    exact fun _ _ => retains_optionalArguments hr
  · cases hp

theorem isAtOpaqueType_eq_of_loosens (h : s.Loosens M u) : isAtOpaqueType u = isAtOpaqueType s := by
  unfold isAtOpaqueType
  rw [h.isAt_eq rfl, h.text_eq, h.kindAt_beq 1 rfl, h.kindAt_beq 1 rfl, h.kindAt_beq 1 rfl]

theorem retains_type (hr : r.ReadsAll M R) (h : R s u) :
    Retains M R B s.offset s u (SwiftTidy.Grammar.type r) := by
  have hword : isAtOpaqueType s = true → s.isAt .identifier = true := fun htest => by
    rw [isAtOpaqueType, Bool.and_assoc, Bool.and_eq_true] at htest
    exact htest.1
  have htake : ∀ {k}, k.isOperator = false → s.isAt k = true →
      Retains M R B s.offset s u (take ++ r.type) :=
    fun hk hat => (hr.on.take_of_isAt h hk hat).append fun _ _ => hr.type
  refine retains_test (hr.on.isAt_eq h rfl) (fun _ => ?_) fun _ => retains_test (hr.on.isAt_eq h rfl)
    (fun hat => (htake rfl hat).node) fun _ => retains_test (isAtOpaqueType_eq_of_loosens (hr.on.loosens h))
    (fun htest => (htake rfl (hword htest)).node) fun _ => ?_
  · exact ((retains_attributeUse hr.on h).append fun _ _ => hr.type).node
  · refine (retains_withSuffixes (B := Never) (assembled_typeSuffix hr.assembled) (fun t v e h _ hnone => ?_)
      (fun _ _ => False.elim) (fun t v e p h hp => ⟨?_, retains_typeSuffix hr h hp⟩)
      (retains_primaryType hr h)).anywhere
    · rwa [typeSuffix?_eq (hr.on.loosens h)]
    · rwa [typeSuffix?_eq (hr.on.loosens h)]

theorem rejects_type_of_astray (hs : s.IsAstray M) : (SwiftTidy.Grammar.type r).Rejects s := by
  have hword : isAtOpaqueType s = false := by
    rw [isAtOpaqueType, hs.isAt rfl (by decide)]
    rfl
  refine rejects_peek ?_
  rw [hs.isAt rfl (by decide), hs.isAt rfl (by decide), hword]
  exact (rejects_primaryType hs).capture

/-! ### Patterns -/

theorem rejects_bindingPattern_of_astray (hs : s.IsAstray M) :
    (SwiftTidy.Grammar.bindingPattern r).Rejects s := by
  refine rejects_peek ?_
  rcases hs with ⟨hkind | hkind, -⟩ | hkind <;> rw [hkind] <;> exact rejects_expected _

theorem retains_bindingPattern (hr : r.ReadsAll M R) (h : R s u) :
    Retains M R B s.offset s u (SwiftTidy.Grammar.bindingPattern r) := by
  by_cases hloose : s.MayLoosen M
  · exact (rejects_bindingPattern_of_astray (.inl hloose)).retains
  refine retains_peek (by rw [(hr.on.loosens h).kind_eq hloose]) ?_
  split
  · exact (hr.on.take h hloose).node
  · exact (hr.on.take h hloose).node
  · refine Retains.node (Retains.append ((hr.on.take h hloose).append fun t v h => ?_) fun _ _ h =>
      hr.on.expect h rfl _)
    exact hr.on.commaSeparatedUntil rfl rfl (hr.assembled .bindingPattern) (fun _ _ => id) h
      fun _ _ => hr.bindingPattern
  · exact (rejects_expected _).retains

theorem isAtWildcardPattern_eq (h : s.Loosens M u) : isAtWildcardPattern u = isAtWildcardPattern s := by
  unfold isAtWildcardPattern
  rw [h.isAt_eq rfl, h.kindAt_beq 1 rfl, h.kindAt_beq 1 rfl, h.kindAt_beq 1 rfl, h.kindAt_beq 1 rfl]

theorem rejects_pattern_of_astray (hr : r.Knows M R) (hs : s.IsAstray M) :
    (SwiftTidy.Grammar.pattern r).Rejects s := by
  have hbinds : s.isAtAny [.letKw, .varKw] = false := by
    rcases hs with ⟨hkind | hkind, -⟩ | hkind <;> rw [Input.isAtAny, hkind] <;> rfl
  refine rejects_peek ?_
  rw [hbinds, isAtWildcardPattern, hs.isAt rfl (by decide), hs.isAt rfl (by decide)]
  exact (hr.expression_rejects _ hs).node

theorem retains_pattern (hr : r.ReadsAll M R) (h : R s u) :
    Retains M R (·.MayLoosen M) s.offset s u (SwiftTidy.Grammar.pattern r) := by
  by_cases hloose : s.MayLoosen M
  · exact (rejects_pattern_of_astray hr.toKnows (.inl hloose)).retains
  have hloosens := hr.on.loosens h
  refine retains_test (hloosens.isAtAny_eq (by decide)) (fun _ => ?_) fun _ =>
    retains_test (isAtWildcardPattern_eq hloosens) (fun _ => (hr.on.take h hloose).node) fun _ =>
    retains_test ?_ (fun _ => (hr.on.take h hloose).node) fun _ => (hr.expression _ h).node
  · exact ((hr.on.take h hloose).append fun _ _ => hr.pattern).node
  · rw [hloosens.isAt_eq rfl, hloosens.kindAt_beq 1 rfl]

/-! ### Blocks and branches -/

/-- Statements are read up to the same brace. -/
theorem retains_blockItems (hr : r.Reads M R) (h : R s u) : Retains M R B s.offset s u (blockItems r) := by
  have hat : ∀ t v, R t v → ∀ k, k.isOperator = false → v.isAt k = t.isAt k :=
    fun t v h k hk => hr.on.isAt_eq h hk
  have hloop : Retains M R (·.IsAstray M) s.offset s u (blockItems r) := by
    refine retains_repeated h (fun t v h _ hstop => ?_) (fun t ht g hturn => ?_) fun t v h g hturn => ?_
    · split_ifs at hstop with hbrace
      rw [hat t v h _ rfl, if_pos hbrace]
    · rw [ht.isAt rfl (by decide), ht.isAt rfl (by decide)] at hturn
      cases hturn
      exact hr.rejects _ t (fun h => by cases h) ht
    · split_ifs at hturn with hbrace hend
      · cases hturn
        exact .inl (rejects_expected _)
      · cases hturn
        refine .inr ⟨?_, hr.codeBlockItem h⟩
        rw [hat t v h _ rfl, hat t v h _ rfl, if_neg hbrace, if_neg hend]
  refine hloop.of_ends fun es t hrun => ?_
  exact Input.not_isAstray_of_isAt rfl (by decide) (isAt_rightBrace_of_blockItems hrun)

/-- What ends at a brace, and the brace. -/
theorem retains_upToBrace {g : Grammar} (hon : ReadsOn M R) (hg : Retains M R Never o s u g)
    (hbrace : ∀ es t, g.run s = .ok (es, t) → t.isAt .rightBrace = true) :
    Retains M R B o s u (g ++ take) := by
  intro es t hrun hclears hB
  obtain ⟨fs, gs, w, hfs, hgs, rfl⟩ := run_append hrun
  rw [clearsAll_append] at hclears
  obtain ⟨v, hv, hR, hoffset⟩ := hg fs w hfs hclears.1 id
  rw [← hoffset] at hclears
  obtain ⟨v', hv', hR', hoffset'⟩ := hon.take_of_isAt hR rfl (hbrace fs w hfs) gs t hgs hclears.2 hB
  exact ⟨v', run_append_eq hv hv', hR', by rw [hoffset', hoffset, fullLenAll_append, Nat.add_assoc]⟩

theorem retains_braced (k : SyntaxKind) (hr : r.Reads M R) (h : R s u) :
    Retains M R B s.offset s u (braced k r) := by
  refine Retains.node (retains_upToBrace hr.on ?_ fun es t hrun => ?_)
  · exact (hr.on.expect h rfl _).append fun _ _ => retains_blockItems hr
  · obtain ⟨_, _, w, -, hitems, -⟩ := run_append hrun
    exact isAt_rightBrace_of_blockItems hitems

theorem retains_codeBlock (hr : r.ReadsAll M R) (h : R s u) : Retains M R B s.offset s u (codeBlock r) :=
  retains_braced _ hr.toReads h

theorem rejects_braced (k : SyntaxKind) (hs : s.IsAstray M) : (braced k r).Rejects s :=
  (rejects_expect_of_astray rfl (by decide) _ hs).append.append.node

theorem retains_optionalWhere (hr : r.ReadsAll M R) (h : R s u) :
    Retains M R (·.MayLoosen M) s.offset s u (whenAt .whereKw (whereClause r)) :=
  hr.on.whenAt h rfl fun hat =>
    ((hr.on.take_of_isAt h rfl hat).append fun _ _ => hr.expression _).node

theorem retains_condition (hr : r.ReadsAll M R) (h : R s u) :
    Retains M R (·.MayLoosen M) s.offset s u (condition r) := by
  by_cases hloose : s.MayLoosen M
  · refine Rejects.retains (rejects_peek ?_)
    rcases hloose.1 with hkind | hkind <;> rw [hkind] <;> exact hr.expression_rejects _ (.inl hloose)
  have htake : Retains M R Never s.offset s u take := hr.on.take h hloose
  have hbinding : Retains M R (·.MayLoosen M) s.offset s u
      (node .optionalBindingCondition (take ++ r.bindingPattern ++
        whenAt .colon (typeAscription r) ++ whenAt .equal (initializerClause r .condition))) :=
    (((htake.append fun _ _ => hr.bindingPattern).append fun _ _ =>
      retains_optionalAscription hr).append fun _ _ => retains_optionalInitializer hr _).node
  refine retains_peek (by rw [(hr.on.loosens h).kind_eq hloose]) ?_
  split
  · exact hbinding
  · exact hbinding
  · exact (htake.append fun _ _ => hr.pattern).append_due
      (fun t ht => (rejects_expect_of_mayLoosen rfl _ ht).append.node)
      fun _ _ => retains_initializerClause hr _
  · exact hr.expression _ h

theorem retains_conditionList (hr : r.ReadsAll M R) (h : R s u) :
    Retains M R (·.MayLoosen M) s.offset s u (conditionList r) :=
  hr.on.commaSeparated rfl (assembled_condition hr.assembled)
    (fun _ hat => Input.not_mayLoosen_of_isAt rfl hat) h fun _ _ => retains_condition hr

/-- Conditions, and the block that is due behind them. -/
theorem retains_conditionalBlock {g : Grammar} (hr : r.ReadsAll M R)
    (hg : Retains M R (·.MayLoosen M) o s u g) : Retains M R B o s u (g ++ codeBlock r) :=
  hg.append_due (fun _ ht => rejects_braced _ (.inl ht)) fun _ _ => retains_codeBlock hr

theorem retains_ifExpr (hr : r.ReadsAll M R) (h : R s u) (hkind : s.kind = .ifKw) :
    Retains M R B s.offset s u (SwiftTidy.Grammar.ifExpr r) := by
  have htake : Retains M R Never s.offset s u take := hr.on.take h (Input.not_mayLoosen_of_kind rfl hkind)
  refine Retains.node (Retains.append (retains_conditionalBlock hr
    (htake.append fun _ _ => retains_conditionList hr)) fun t v h => hr.on.whenAt h rfl fun hat => ?_)
  refine (hr.on.take_of_isAt h rfl hat).append fun t v h => ?_
  exact retains_test (hr.on.isAt_eq h rfl) (fun hat => hr.ifExpr h (eq_of_beq hat)) fun _ =>
    retains_codeBlock hr h

/-! ### Cases -/

theorem isAtUnknownAttribute_eq_of_loosens (h : s.Loosens M u) :
    isAtUnknownAttribute u = isAtUnknownAttribute s := by
  have htext : (u.nth 1).text = (s.nth 1).text := by
    rcases h.nth 1 with heq | ⟨k, -, heq⟩ <;> rw [heq]
  rw [isAtUnknownAttribute, isAtUnknownAttribute, h.isAt_eq rfl, htext]

theorem retains_switchCaseLabel (hr : r.ReadsAll M R) (h : R s u) (hkind : s.kind = .caseKw) :
    Retains M R B s.offset s u (switchCaseLabel r) := by
  refine Retains.node (Retains.append_due ((hr.on.take h (Input.not_mayLoosen_of_kind rfl hkind)).append
    fun t v h => ?_) (fun t (ht : t.MayLoosen M) => rejects_expect_of_mayLoosen rfl _ ht) fun _ _ h =>
      hr.on.expect h rfl _)
  refine hr.on.commaSeparated rfl (.append (hr.assembled .pattern) ?_)
    (fun _ hat => Input.not_mayLoosen_of_isAt rfl hat) h fun t v h => ?_
  · exact .whenAt _ (assembled_whereClause hr.assembled)
  · exact (hr.pattern h).append_idle (fun _ ht => idle_whenAt_of_mayLoosen rfl ht) fun _ _ =>
      retains_optionalWhere hr

/-- The statements of a case end in front of the next case or at the brace. -/
theorem retains_caseItems (hr : r.ReadsAll M R) (h : R s u) :
    Retains M R B s.offset s u
      (repeated (fun s =>
        if s.isAtAny [.caseKw, .defaultKw, .rightBrace] || isAtUnknownAttribute s then none
        else if s.isAt .endOfFile then some (expected "`\x7d`")
        else some r.codeBlockItem) r.bound) := by
  have hsame : ∀ t v, R t v → (v.isAtAny [.caseKw, .defaultKw, .rightBrace] || isAtUnknownAttribute v) =
      (t.isAtAny [.caseKw, .defaultKw, .rightBrace] || isAtUnknownAttribute t) := fun t v h => by
    rw [(hr.on.loosens h).isAtAny_eq (by decide), isAtUnknownAttribute_eq_of_loosens (hr.on.loosens h)]
  have hastray : ∀ t : Input, t.IsAstray M →
      (t.isAtAny [.caseKw, .defaultKw, .rightBrace] || isAtUnknownAttribute t) = false := by
    intro t ht
    rw [isAtUnknownAttribute, ht.isAt rfl (by decide)]
    rcases ht with ⟨hkind | hkind, -⟩ | hkind <;> rw [Input.isAtAny, hkind] <;> rfl
  refine (retains_repeated (B := (·.IsAstray M)) h (fun t v h _ hstop => ?_) (fun t ht g hturn => ?_)
    fun t v h g hturn => ?_).of_ends fun es t hrun ht => ?_
  · split_ifs at hstop with hend
    rw [hsame t v h, if_pos hend]
  · rw [hastray t ht, ht.isAt rfl (by decide)] at hturn
    cases hturn
    exact hr.rejects _ t (fun h => by cases h) ht
  · split_ifs at hturn with hend hlast
    · cases hturn
      exact .inl (rejects_expected _)
    · cases hturn
      refine .inr ⟨?_, hr.toReads.codeBlockItem h⟩
      rw [hsame t v h, hr.on.isAt_eq h rfl, if_neg hend, if_neg hlast]
  · have hnone := run_repeated hrun
    rw [hastray t ht, ht.isAt rfl (by decide)] at hnone
    cases hnone

theorem retains_switchCase (hr : r.ReadsAll M R) (h : R s u) :
    Retains M R B s.offset s u (switchCase r) := by
  refine Retains.node (Retains.append (Retains.append ?_ fun t v h => ?_) fun _ _ => retains_caseItems hr)
  · exact retains_onlyIf h (isAtUnknownAttribute_eq_of_loosens (hr.on.loosens h)) fun _ =>
      retains_attributeUse hr.on h
  · by_cases hloose : t.MayLoosen M
    · refine Rejects.retains (rejects_peek ?_)
      rcases hloose.1 with hkind | hkind <;> rw [hkind] <;> exact rejects_expected _
    refine retains_peek (by rw [(hr.on.loosens h).kind_eq hloose]) ?_
    split
    · next hkind => exact retains_switchCaseLabel hr h hkind
    · exact ((hr.on.take h hloose).append fun _ _ h => hr.on.expect h rfl _).node
    · exact (rejects_expected _).retains

theorem retains_switchExpr (hr : r.ReadsAll M R) (h : R s u) (hkind : s.kind = .switchKw) :
    Retains M R B s.offset s u (switchExpr r) := by
  have htake : Retains M R Never s.offset s u take := hr.on.take h (Input.not_mayLoosen_of_kind rfl hkind)
  refine Retains.node (retains_upToBrace hr.on (Retains.append ((htake.append fun _ _ =>
    hr.expression _).append_due (fun t ht => rejects_expect_of_mayLoosen rfl _ ht) fun _ _ h =>
      hr.on.expect h rfl _) fun t v h => ?_) fun es t hrun => ?_)
  · refine retains_repeated_congr h (fun t v h => ?_) fun t v h g hturn => ?_
    · rw [hr.on.isAt_eq h rfl]
    · split_ifs at hturn
      cases hturn
      exact retains_switchCase hr h
  · obtain ⟨_, _, w, -, hcases, -⟩ := run_append hrun
    have hnone := run_repeated hcases
    split_ifs at hnone with hbrace
    exact hbrace

/-! ### Arguments and literals -/

theorem retains_argumentList (hr : r.Reads M R) (close : SyntaxKind) (inPattern : Bool)
    (hclose : close.isOperator = false) (h : R s u) :
    Retains M R (·.MayLoosen M) s.offset s u (argumentList r close inPattern) := by
  refine Retains.node (hr.on.commaSeparatedUntil hclose rfl ?_
    (fun _ hat => Input.not_mayLoosen_of_isAt rfl hat) h fun t v h => ?_)
  · exact .append (.onlyIf _ (.takeN 2)) (.onlyIf _ (hr.assembled (.expression _)))
  refine Retains.append (retains_onlyIf h ?_ fun htest => ?_) fun t v h => retains_onlyIf h ?_ fun _ =>
    hr.expression _ h
  · rw [(hr.on.loosens h).kindAt_beq 1 rfl, (hr.on.loosens h).kind_eq_of SyntaxKind.isName rfl rfl]
  · rw [Bool.and_eq_true] at htest
    exact hr.on.takeTwo h (not_isOperator_of_isName htest.1) (by rw [eq_of_beq htest.2]; rfl)
  · rw [hr.on.isAt_eq h rfl, hr.on.isAt_eq h hclose]

/-- Arguments up to the closing token, which is due where an operator loosens. -/
theorem retains_arguments {g : Grammar} (hr : r.Reads M R) (close : SyntaxKind) (inPattern : Bool)
    (what : String) (hclose : close.isOperator = false) (hg : Retains M R Never o s u g) :
    Retains M R B o s u (g ++ argumentList r close inPattern ++ expect close what) :=
  (hg.append fun _ _ => retains_argumentList hr close inPattern hclose).append_due
    (fun _ ht => rejects_expect_of_mayLoosen hclose _ ht) fun _ _ h => hr.on.expect h hclose _

/-- A signature is read as it is; where one comes up, the statements behind it could not be read before. -/
theorem retains_signature (hr : r.ReadsAll M R) (h : R s u) :
    Retains M R B s.offset s u
      ((peek fun s =>
        match signatureLength? 0 s.pending with
        | some n => node .closureSignature (takeN n)
        | none => nothing) ++ blockItems r) := by
  have hloosens := hr.on.loosens h
  have hitems : ∀ t v, R t v → Retains M R B t.offset t v (blockItems r) :=
    fun _ _ => retains_blockItems hr.toReads
  cases hsignature : signatureLength? 0 s.pending with
  | some n =>
    refine Retains.append (fun es t hrun hclears _ => ?_) hitems
    unfold peek at hrun ⊢
    dsimp only at hrun ⊢
    rw [hsignature] at hrun
    obtain ⟨fs, w, hfs, hemit⟩ := run_capture hrun
    cases hemit
    -- the signature is held as it comes, so no colon in it starts at a byte of `M`
    have hcalm : ∀ i < n, ¬ (Input.behind^[i] s).MayLoosen M := fun i hi => by
      refine not_mayLoosen_of_spares hfs (hclears.spares rfl) (fun m hm => ?_) hi
      obtain ⟨m', hm', hkind⟩ := exists_of_signatureLength? s.endOfFile hsignature
      obtain rfl : m' = m := by omega
      rw [Input.kindAt, Input.nth, hkind]
      rfl
    rw [hloosens.pending.signatureLength?_eq_some hsignature (e := s.endOfFile) hcalm]
    exact (hr.on.takeN (B := Never) h hcalm).node _ t hrun hclears id
  | none =>
    cases hother : signatureLength? 0 u.pending with
    | some n =>
      -- a signature that comes up has an operator in it that loosens, behind tokens that start nothing
      intro es t hrun hclears _
      obtain ⟨fs, gs, w, hfs, hgs, rfl⟩ := run_append hrun
      unfold peek at hfs
      dsimp only at hfs
      rw [hsignature] at hfs
      cases hfs
      exact absurd hclears (hr.penned s _ t (hloosens.pending.penned hsignature hother) hgs)
    | none =>
      refine Retains.append (retains_peek (by rw [hsignature, hother]) ?_) hitems
      rw [hsignature]
      exact retains_nothing h

theorem retains_closureExpr (hr : r.ReadsAll M R) (h : R s u) :
    Retains M R B s.offset s u (closureExpr r) := by
  unfold closureExpr
  rw [append_assoc (expect _ _)]
  refine Retains.node (retains_upToBrace hr.on ((hr.on.expect h rfl _).append fun _ _ =>
    retains_signature hr) fun es t hrun => ?_)
  obtain ⟨_, _, w, -, hrest, -⟩ := run_append hrun
  obtain ⟨_, _, w, -, hitems, -⟩ := run_append hrest
  exact isAt_rightBrace_of_blockItems hitems

/-- A dictionary or an array of which the first value was read. -/
theorem retains_elements {opening : List Element} {item value : Grammar} {o' : Nat} (hon : ReadsOn M R)
    (hk : k.isNode = true) (hitem : Assembled [] item) (ho : o' = o + fullLenAll opening)
    (hfirst : Retains M R (·.MayLoosen M) o' s u value)
    (hitems : ∀ t v, R t v → Retains M R (·.MayLoosen M) t.offset t v item) (bound : Nat) :
    Retains M R B o s u (emit opening ++ commaList k (·.isAt .rightBracket) item bound value ++
      expect .rightBracket "`]`") := by
  refine Retains.append_due (Retains.emit_append ho ?_)
    (fun t (ht : t.MayLoosen M) => rejects_expect_of_mayLoosen rfl _ ht) fun _ _ h => hon.expect h rfl _
  exact hon.commaList hk hitem (fun _ hat => Input.not_mayLoosen_of_isAt rfl hat) hfirst
    (fun _ _ h => hon.isAt_eq h rfl) hitems

/-- The bracket waits while the first value is read, and both wait for what is behind them. -/
theorem retains_collectionExpr (hr : r.Reads M R) (h : R s u) (hkind : s.kind = .leftBracket) :
    Retains M R B s.offset s u (collectionExpr r) := by
  have hvalue : Assembled [] (r.expression .free) := hr.assembled _
  have hbehind : Assembled [] (expect .colon "`:`" ++ r.expression .free) := .append (.expect _ _) hvalue
  have hbehind' : ∀ t v, R t v →
      Retains M R (·.MayLoosen M) t.offset t v (expect .colon "`:`" ++ r.expression .free) :=
    fun t v h => (hr.on.expect h rfl _).append fun _ _ => hr.expression _
  rw [collectionExpr_eq]
  refine (hr.on.take (B := Never) h (Input.not_mayLoosen_of_kind rfl hkind)).capture
    (assembled_collectionBehind hr.assembled) (fun _ _ _ _ _ _ => id) fun opening t v h ho => ?_
  refine retains_test ?_ (fun htest => ?_) fun _ =>
    retains_test (hr.on.isAt_eq h rfl) (fun hat => ?_) fun _ => ?_
  · rw [hr.on.isAt_eq h rfl, (hr.on.loosens h).kindAt_beq 1 rfl]
  · rw [Bool.and_eq_true] at htest
    refine ((hr.on.takeTwo h ?_ ?_).emit_append ho).node
    · rw [show t.kind = .colon from eq_of_beq htest.1]
      rfl
    · rw [eq_of_beq htest.2]
      rfl
  · exact ((hr.on.take_of_isAt h rfl hat).emit_append ho).node
  · refine (hr.expression .free h).capture_of opening ho (assembled_collectionRest hr.assembled opening)
      (fun first t fs w hrun _ hloose => ?_) fun first t v h ho' =>
        retains_test (hr.on.isAt_eq h rfl) (fun _ => ?_) fun _ => ?_
    · -- neither a colon nor a comma nor the bracket stands here
      unfold collectionRest peek at hrun
      dsimp only at hrun
      rw [hloose.isAt rfl] at hrun
      have hfirst : (emit opening ++ values r first).Idle t :=
        (idle_emit _).append (idle_commaList (idle_emit _) (hloose.isAt rfl))
      exact (hfirst.append_rejects (rejects_expect_of_mayLoosen rfl _ hloose)).node fs w hrun
    · refine (retains_elements hr.on rfl (.append hvalue hbehind) ho ((hbehind' t v h).emit_append ho')
        ?_ _).node
      exact fun t v h => (hr.expression _ h).append_due
        (fun _ ht => (rejects_expect_of_mayLoosen rfl _ ht).append) hbehind'
    · exact (retains_elements hr.on rfl hvalue ho (retains_emit h ho') (fun _ _ => hr.expression _) _).node

/-! ### Operands -/

theorem retains_memberName (hon : ReadsOn M R) (h : R s u) : Retains M R B s.offset s u memberName := by
  refine retains_test ?_ (fun htest => hon.take h fun hloose => ?_) fun _ => (rejects_expected _).retains
  · rw [hon.isAt_eq h rfl, hon.isAt_eq h rfl, (hon.loosens h).kind_eq_of SyntaxKind.isName rfl rfl]
  · rw [hloose.isAt rfl, hloose.isAt rfl] at htest
    rcases hloose.1 with hkind | hkind <;> rw [hkind] at htest <;> cases htest

theorem isAtOperatorValue_eq_of_loosens (h : s.Loosens M u) : isAtOperatorValue u = isAtOperatorValue s := by
  unfold isAtOperatorValue
  rw [h.kind_eq_of SyntaxKind.isOperator rfl rfl, h.kindAt_beq 1 rfl, h.kindAt_beq 1 rfl]

/-- In front of a colon an operator is no value. -/
theorem isAtOperatorValue_eq_false (hloose : s.MayLoosen M) : isAtOperatorValue s = false := by
  rw [isAtOperatorValue, hloose.2.1]
  exact Bool.and_false _

theorem isAtConditionalCompilation_eq_of_loosens (h : s.Loosens M u) :
    isAtConditionalCompilation u = isAtConditionalCompilation s := by
  rw [isAtConditionalCompilation, isAtConditionalCompilation, h.isAt_eq rfl, h.text_eq]

theorem rejects_primaryExpr_of_astray (ρ : Restrictions) (hs : s.IsAstray M) :
    (primaryExpr r ρ).Rejects s := by
  have hvalue : isAtOperatorValue s = false := by
    rcases hs with hloose | hkind
    · exact isAtOperatorValue_eq_false hloose
    · rw [isAtOperatorValue, hkind]
      rfl
  refine rejects_peek ?_
  rw [hvalue]
  rcases hs with ⟨hkind | hkind, -⟩ | hkind <;> rw [hkind] <;> exact rejects_expected _

theorem retains_primaryExpr (hr : r.Reads M R) (ρ : Restrictions) (h : R s u) :
    Retains M R (·.MayLoosen M) s.offset s u (primaryExpr r ρ) := by
  by_cases hloose : s.MayLoosen M
  · exact (rejects_primaryExpr_of_astray ρ (.inl hloose)).retains
  have htake : ∀ B, Retains M R B s.offset s u take := fun _ => hr.on.take h hloose
  have hall : ∀ {k : SyntaxKind}, k.isQuiet = false → s.kind = k → r.ReadsAll M R :=
    fun hk hkind => hr.all h (hkind ▸ hk)
  have hloosens := hr.on.loosens h
  refine retains_peek ?_ ?_
  · rw [isAtConditionalCompilation_eq_of_loosens hloosens, isAtOperatorValue_eq_of_loosens hloosens,
      hloosens.kind_eq hloose]
  generalize hk : s.kind = k
  split
  all_goals try exact (htake _).node
  · exact Retains.ite (fun _ => rejects_conditionalCompilation.retains) fun _ => (htake _).node
  · exact ((htake _).append fun _ _ => retains_memberName hr.on).node
  · exact (retains_arguments hr .rightParen _ _ rfl (htake _)).node
  · exact retains_collectionExpr hr h hk
  · exact retains_closureExpr (hall rfl hk) h
  · exact (hall rfl hk).ifExpr h hk
  · exact retains_switchExpr (hall rfl hk) h hk
  · exact Retains.ite (fun _ => (hall rfl hk).pattern h) fun _ => (rejects_expected _).retains
  · exact Retains.ite (fun _ => (hall rfl hk).pattern h) fun _ => (rejects_expected _).retains
  · refine Retains.ite (fun _ => ?_) fun _ => (rejects_expected _).retains
    exact ((htake _).append fun _ _ => (hall rfl hk).type).node
  · refine Retains.ite (fun _ => (htake _).node) fun _ => Retains.ite (fun _ => (htake _).node) fun _ => ?_
    exact (rejects_expected _).retains

theorem isAtTrailingClosure_eq_of_loosens (ρ : Restrictions) (h : s.Loosens M u) :
    isAtTrailingClosure ρ u = isAtTrailingClosure ρ s := by
  unfold isAtTrailingClosure
  rw [h.isAt_eq rfl, h.isAfterNewline_eq]

/-- No suffix starts at an operator that loosens. -/
theorem exprSuffix?_eq_none (ρ : Restrictions) (e : Element) (hloose : s.MayLoosen M) :
    exprSuffix? r ρ s e = none := by
  unfold exprSuffix?
  rcases hloose.1 with hkind | hkind <;> rw [hkind]

theorem exprSuffix?_eq (ρ : Restrictions) (h : s.Loosens M u) (hloose : ¬ s.MayLoosen M) (e : Element) :
    exprSuffix? r ρ u e = exprSuffix? r ρ s e := by
  unfold exprSuffix?
  rw [h.kind_eq hloose, h.isAfterNewline_eq, isAtTrailingClosure_eq_of_loosens ρ h]

theorem retains_exprSuffix (hr : r.Reads M R) (ρ : Restrictions) (h : R s u) {e : Element}
    {p : SyntaxKind × Grammar} (hp : exprSuffix? r ρ s e = some p) : Retains M R B s.offset s u p.2 := by
  have hloose : ¬ s.MayLoosen M := fun hloose => by
    rw [exprSuffix?_eq_none ρ e hloose] at hp
    cases hp
  have htake : ∀ B, Retains M R B s.offset s u take := fun _ => hr.on.take h hloose
  have hclosure : ∀ {B t v}, R t v → t.isAt .leftBrace = true → Retains M R B t.offset t v (closureExpr r) :=
    fun h hat =>
      retains_closureExpr (hr.all h (by rw [show _ = SyntaxKind.leftBrace from eq_of_beq hat]; rfl)) h
  unfold exprSuffix? at hp
  split at hp
  · cases hp
    exact (htake _).append fun _ _ => retains_memberName hr.on
  · split_ifs at hp
    cases hp
    refine Retains.append (retains_arguments hr .rightParen _ _ rfl (htake _)) fun t v h => ?_
    refine retains_onlyIf h (isAtTrailingClosure_eq_of_loosens ρ (hr.on.loosens h)) fun htest => hclosure h ?_
    rw [isAtTrailingClosure, Bool.and_eq_true, Bool.and_eq_true] at htest
    exact htest.1.2
  · split_ifs at hp
    cases hp
    exact retains_arguments hr .rightBracket _ _ rfl (htake _)
  · next hkind =>
    split_ifs at hp
    cases hp
    exact hclosure h (beq_iff_eq.mpr hkind)
  · cases hp
    exact htake _
  · cases hp
    exact htake _
  · cases hp
    exact htake _
  · cases hp

theorem retains_optionalMark (hon : ReadsOn M R) (h : R s u) : Retains M R B s.offset s u optionalMark :=
  hon.takeAny h (by decide)

/-- A prefix operator that loosens has no operand behind it. -/
theorem rejects_operand_of_astray (hr : r.Knows M R) (ρ : Restrictions) (hs : s.IsAstray M) :
    (SwiftTidy.Grammar.operand r ρ).Rejects s := by
  refine rejects_peek ?_
  split
  · next hprefix =>
    rw [Bool.and_eq_true] at hprefix
    have hcolon : s.behind.kind = .colon := by
      rcases hs with hloose | hkind
      · exact (s.kindAt_succ 0).symm.trans hloose.2.1
      · rw [Input.isAt, hkind] at hprefix
        cases hprefix.1
    exact (Rejects.behind_next (fun _ _ => behind_of_take) (hr.operand_rejects ρ (.inr hcolon))).node
  · rw [hs.isAt rfl (by decide), hs.isAt rfl (by decide)]
    exact (rejects_primaryExpr_of_astray ρ hs).capture

theorem retains_operand (hr : r.Reads M R) (ρ : Restrictions) (h : R s u) :
    Retains M R (·.MayLoosen M) s.offset s u (SwiftTidy.Grammar.operand r ρ) := by
  by_cases hloose : s.MayLoosen M
  · exact (rejects_operand_of_astray hr.toKnows ρ (.inl hloose)).retains
  have htake : ∀ B, Retains M R B s.offset s u take := fun _ => hr.on.take h hloose
  have hloosens := hr.on.loosens h
  refine retains_test ?_ (fun _ => ?_) fun _ => retains_test (hloosens.isAt_eq rfl) (fun _ => ?_) fun _ =>
    retains_test (hloosens.isAt_eq rfl) (fun _ => ?_) fun _ => ?_
  · rw [Input.isAt, Input.isAt, hloosens.kind_eq hloose, isAtOperatorValue_eq_of_loosens hloosens]
  · exact ((htake _).append fun _ _ => hr.operand ρ).node
  · exact (((htake _).append fun _ _ => retains_optionalMark hr.on).append fun _ _ => hr.operand ρ).node
  · exact ((htake _).append fun _ _ => hr.operand ρ).node
  · refine retains_withSuffixes (assembled_exprSuffix hr.assembled ρ) (fun t v e h hloose hnone => ?_)
      (fun t e ht => exprSuffix?_eq_none ρ e ht) (fun t v e p h hp => ⟨?_, retains_exprSuffix hr ρ h hp⟩)
      (retains_primaryExpr hr ρ h)
    · rwa [exprSuffix?_eq ρ (hr.on.loosens h) hloose]
    · rw [exprSuffix?_eq ρ (hr.on.loosens h) fun hloose => ?_, hp]
      rw [exprSuffix?_eq_none ρ e hloose] at hp
      cases hp

theorem rejects_operatorPart (hr : r.Knows M R) (ρ : Restrictions) (hloose : s.MayLoosen M) {g : Grammar}
    (hg : operatorPart? r ρ s = some g) : g.Rejects s := by
  unfold operatorPart? at hg
  rcases hloose.1 with hkind | hkind <;> rw [hkind] at hg <;> cases hg
  refine .behind_next (fun _ _ => behind_of_take) (hr.operand_rejects ρ (.inr ?_))
  exact (s.kindAt_succ 0).symm.trans hloose.2.1

theorem operatorPart?_eq (ρ : Restrictions) (h : s.Loosens M u) (hloose : ¬ s.MayLoosen M) :
    operatorPart? r ρ u = operatorPart? r ρ s := by
  unfold operatorPart?
  rw [h.kind_eq hloose]

theorem retains_operatorPart (hr : r.Reads M R) (ρ : Restrictions) (h : R s u) (hloose : ¬ s.MayLoosen M)
    {g : Grammar} (hg : operatorPart? r ρ s = some g) : Retains M R (·.MayLoosen M) s.offset s u g := by
  have htake : ∀ B, Retains M R B s.offset s u take := fun _ => hr.on.take h hloose
  have hall : ∀ {k : SyntaxKind}, k.isQuiet = false → s.kind = k → r.ReadsAll M R :=
    fun hk hkind => hr.all h (hkind ▸ hk)
  unfold operatorPart? at hg
  split at hg
  · cases hg
    exact (htake _).append fun _ _ => hr.operand ρ
  · split_ifs at hg
    cases hg
    exact (htake _).append fun _ _ => hr.operand ρ
  · cases hg
    refine Retains.append (Retains.node (Retains.append_due ((htake _).append fun _ _ => hr.expression _)
      (fun _ ht => rejects_expect_of_mayLoosen rfl _ ht) fun _ _ h => hr.on.expect h rfl _))
      fun _ _ => hr.operand ρ
  · next hkind =>
    cases hg
    exact ((htake _).append fun _ _ => (hall rfl hkind).type).node
  · next hkind =>
    cases hg
    exact (((htake _).append fun _ _ => retains_optionalMark hr.on).append fun _ _ =>
      (hall rfl hkind).type).node
  · cases hg

theorem retains_expression (hr : r.Reads M R) (ρ : Restrictions) (h : R s u) :
    Retains M R (·.MayLoosen M) s.offset s u (SwiftTidy.Grammar.expression r ρ) := by
  have hrejects : ∀ t : Input, t.MayLoosen M → ∀ g, operatorPart? r ρ t = some g → g.Rejects t :=
    fun t ht g hg => rejects_operatorPart hr.toKnows ρ ht hg
  refine retains_nodeUnlessSingle rfl ((hr.operand ρ h).append_idle
    (fun t ht => idle_repeated (hrejects t ht)) fun t v h => ?_)
  refine retains_repeated h (fun t v h hloose hnone => ?_) hrejects fun t v h g hg => ?_
  · rwa [operatorPart?_eq ρ (hr.on.loosens h) hloose]
  · by_cases hloose : t.MayLoosen M
    · exact .inl (hrejects t hloose g hg)
    · refine .inr ⟨?_, retains_operatorPart hr ρ h hloose hg⟩
      rwa [operatorPart?_eq ρ (hr.on.loosens h) hloose]

theorem rejects_expression_of_astray (hr : r.Knows M R) (ρ : Restrictions) (hs : s.IsAstray M) :
    (SwiftTidy.Grammar.expression r ρ).Rejects s :=
  (hr.operand_rejects ρ hs).append.capture

end Grammar

end SwiftTidy
