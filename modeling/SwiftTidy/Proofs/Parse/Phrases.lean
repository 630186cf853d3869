import SwiftTidy.Proofs.Parse.Productions
import SwiftTidy.Proofs.Parse.Shape
import SwiftTidy.Proofs.Tree.Descent

/-!
# Every production builds shaped nodes

One statement for each production, in the order in which they are defined, over a level of which it
is assumed; the levels are then stacked up by induction on the depth (`phrases_level`).  Most build
a phrase: one node that does not start with a colon.  The clauses that start with a colon build a
node that does, and the nodes in which these stand are followed child by child.
-/

namespace SwiftTidy

/-- Every nonterminal of the level builds a phrase. -/
def Level.Phrases (r : Level) : Prop := ∀ p, Grammar.Phrase (r.read p)

namespace Grammar

open Element (Plain Bare Unopened Hosted OneColon)

variable {r : Level} {k : SyntaxKind}

/-! ### Tokens and lists -/

theorem plain_take : Each Plain take := Each.take Element.plain_token

theorem plain_takeAs (k : SyntaxKind) : Each Plain (takeAs k) :=
  Each.takeAs fun t _ => Element.plain_token t

theorem plain_takeN (n : Nat) : Each Plain (takeN n) := Each.takeN Element.plain_token n

theorem plain_expect (k : SyntaxKind) (what : String) : Each Plain (expect k what) :=
  Each.expect (fun t _ => Element.plain_token t) what

theorem plain_eat (k : SyntaxKind) : Each Plain (eat k) := Each.whenAt k plain_take

theorem bare_expect {j : SyntaxKind} (hj : j ≠ .colon) (k : SyntaxKind) (what : String) :
    Each (Bare k) (expect j what) :=
  Each.expect (fun _ hkind => Element.bare_token (hkind ▸ hj)) what

/-- A token where one is read under a test that no colon passes. -/
theorem bare_takeIf {test : Input → Bool} {h : Grammar} (htest : ∀ s, test s = true → s.kind ≠ .colon)
    (hh : Each (Bare k) h) : Each (Bare k) (peek fun s => if test s then take else h) :=
  Each.takeIf (fun s _ hs hkind => Element.bare_token (hkind ▸ htest s hs)) hh

theorem plain_list {item first : Grammar} (hk : k.isLoose = true) (hitem : Each Plain item)
    (hfirst : Each Plain first) (stop : Input → Bool) (bound : Nat) :
    Each Plain (commaList k stop item bound first) :=
  Each.commaList hitem hfirst (fun _ hes => Element.plain_node hk hes)
    (fun _ t hes _ => Element.plain_node hk
      (List.forall_mem_append.mpr ⟨hes, by simpa using Element.plain_token t⟩)) stop bound

/-- Items of which at most one child starts with a colon make plain nodes. -/
theorem plain_hosted_list {item first : Grammar}
    (hitem : Builds (fun es => Hosted k es ∧ Element.backEndsAtColon k es = false) item)
    (hfirst : Builds (fun es => Hosted k es ∧ Element.backEndsAtColon k es = false) first)
    (hk : k.hasForm = false) (stop : Input → Bool) (bound : Nat) :
    Each Plain (commaList k stop item bound first) := by
  refine Each.commaList hitem hfirst (fun _ hes => hes.1.plain hk hes.2) (fun _ t hes hcomma => ?_) stop
    bound
  have hbare : ∀ e ∈ [Element.token t], e.Bare k := by
    rw [List.forall_mem_singleton]
    exact Element.bare_token (by rw [hcomma]; decide)
  exact (hes.1.append hbare).plain hk (Element.backEndsAtColon_append_of_bare hes.2 hbare)

theorem name_ne_colon {j : SyntaxKind} (h : j.isName = true) : j ≠ .colon := by
  rintro rfl
  exact absurd h (by decide)

theorem oneColon_take (k : SyntaxKind) : Builds (OneColon k) take :=
  Builds.take.imp fun _ ⟨t, hes⟩ => hes ▸ Element.oneColon_token k t

theorem oneColon_expect (k : SyntaxKind) (what : String) : Builds (OneColon k) (expect .colon what) :=
  (Builds.expect what).imp fun _ ⟨t, hes, _⟩ => hes ▸ Element.oneColon_token k t

theorem oneColon_append {g h : Grammar} (hg : Builds (OneColon k) g) (hh : Each (Bare k) h) :
    Builds (OneColon k) (g ++ h) :=
  Builds.append hg hh fun _ _ hes hfs => hes.append hfs

/-! ### Attributes -/

theorem plain_balancedParens : Each Plain balancedParens := by
  refine Builds.peek fun s => ?_
  split
  · exact plain_takeN _
  · exact Builds.fail _

theorem phrase_attributeUse : Phrase attributeUse := by
  refine Phrase.node rfl (Each.append (Each.append (plain_expect _ _) ?_)
    (Each.onlyIf _ plain_balancedParens)) (.append_left (.append_left (.expect _)))
  exact Builds.peek fun _ => Builds.ite plain_take (Builds.expected _)

/-! ### Types -/

/-- At most one node, which may start with a colon. -/
def AtMostOne (es : List Element) : Prop := (∀ e ∈ es, e.Closed) ∧ es.length ≤ 1

/-- A clause that may start with a colon, if the colon is there. -/
theorem oneColon_whenAt {g : Grammar} (hg : Builds AtMostOne g) (k : SyntaxKind) :
    Builds (OneColon k) (whenAt .colon g) :=
  Builds.onlyIf _ (hg.imp fun _ hes => ⟨hes.1, Nat.le_trans List.countP_le_length hes.2⟩)
    ⟨by simp, by simp⟩

theorem atMostOne_node {g : Grammar} (hg : Builds (OneColon k) g) (hclosing : Closing k g)
    (hk : k.hasForm = false) : Builds AtMostOne (node k g) := by
  refine Builds.node (Builds.both hg hclosing) fun es hes => ⟨?_, Nat.le_refl 1⟩
  rw [List.forall_mem_singleton]
  refine ⟨?_, fun _ => by rw [Element.endsAtColon_node, hes.2]⟩
  rw [Element.shaped_node, Element.shapedAll_iff]
  exact ⟨.of_colons hk (.of_closed hes.1.1 hes.1.2), fun e he => (hes.1.1 e he).1⟩

/-- A phrase does not end with a colon, whatever it follows. -/
theorem Closing.phrase {g h : Grammar} (hh : Phrase h) (k : SyntaxKind) : Closing k (g ++ h) :=
  .behind (.of_bare (hh.bare k)) hh.leafy

theorem atMostOne_typeAscription (hr : r.Phrases) : Builds AtMostOne (typeAscription r) :=
  atMostOne_node (oneColon_append (oneColon_expect _ _) ((hr .type).bare _)) (.phrase (hr .type) _) rfl

theorem phrase_initializerClause (hr : r.Phrases) (ρ : Restrictions) :
    Phrase (initializerClause r ρ) :=
  Phrase.node rfl (Each.append (plain_expect _ _) (hr (.expression ρ)).plain)
    (.append_left (.expect _))

theorem phrase_returnClause (hr : r.Phrases) : Phrase (returnClause r) :=
  Phrase.node rfl (Each.append (plain_expect _ _) (hr .type).plain) (.append_left (.expect _))

theorem plain_rightAngle : Each Plain rightAngle :=
  Each.append Each.splitRightAngle
    (Builds.peek fun _ => Builds.ite (plain_takeAs _) (Builds.expected _))

theorem phrase_genericArgumentClause (hr : r.Phrases) : Phrase (genericArgumentClause r) := by
  have hargument : Each Plain (r.type ++ splitRightAngle) :=
    Each.append (hr .type).plain Each.splitRightAngle
  exact Phrase.node rfl (Each.append (Each.append (plain_takeAs _)
    (plain_list rfl hargument hargument _ _)) plain_rightAngle) (.append_left (.append_left .takeAs))

/-- Tokens that are read in a row are those that were next. -/
theorem run_takeN {n : Nat} {s s' : Input} {es : List Element}
    (h : (takeN n).run s = .ok (es, s')) :
    n ≤ s.pending.length ∧ es = (s.pending.take n).map .token := by
  induction n generalizing s es with
  | zero =>
    cases h
    exact ⟨Nat.zero_le _, rfl⟩
  | succ n ih =>
    obtain ⟨fs, gs, t, hfs, hgs, rfl⟩ := run_append h
    obtain ⟨u, rest, hs, rfl, rfl⟩ := run_take hfs
    obtain ⟨hle, rfl⟩ := ih hgs
    rw [hs]
    exact ⟨Nat.succ_le_succ hle, rfl⟩

/-- A label and the colon behind it. -/
theorem hosted_label {s : Input} (k : SyntaxKind) (hname : s.kind.isName = true) :
    BuildsAt s (Hosted k) (takeN 2) := by
  intro es s' hrun
  obtain ⟨hle, rfl⟩ := run_takeN hrun
  obtain ⟨a, b, rest, hs⟩ : ∃ a b rest, s.pending = a :: b :: rest := by
    match hpending : s.pending, hle with
    | a :: b :: rest, _ => exact ⟨a, b, rest, rfl⟩
  have ha : a.kind.isName = true := by
    simpa [Input.kind, Input.kindAt, Input.nth, hs] using hname
  rw [hs]
  have hleaves : Element.leavesAll [.token a] ≠ [] := by simp
  refine Element.Hosted.behind ?_ hleaves (Element.oneColon_token k b)
  rw [List.forall_mem_singleton]
  exact Element.bare_token (name_ne_colon ha)

/-- Two labels and the colon behind them. -/
theorem hosted_labels {s : Input} (k : SyntaxKind) (hname : s.kind.isName = true)
    (hsecond : (s.kindAt 1).isName = true) : BuildsAt s (Hosted k) (takeN 3) := by
  intro es s' hrun
  obtain ⟨hle, rfl⟩ := run_takeN hrun
  obtain ⟨a, b, c, rest, hs⟩ : ∃ a b c rest, s.pending = a :: b :: c :: rest := by
    match hpending : s.pending, hle with
    | a :: b :: c :: rest, _ => exact ⟨a, b, c, rest, rfl⟩
  have ha : a.kind.isName = true := by
    simpa [Input.kind, Input.kindAt, Input.nth, hs] using hname
  have hb : b.kind.isName = true := by simpa [Input.kindAt, Input.nth, hs] using hsecond
  rw [hs]
  have hleaves : Element.leavesAll [.token a, .token b] ≠ [] := by simp
  refine Element.Hosted.behind ?_ hleaves (Element.oneColon_token k c)
  rw [List.forall_mem_cons, List.forall_mem_singleton]
  exact ⟨Element.bare_token (name_ne_colon ha), Element.bare_token (name_ne_colon hb)⟩

theorem hosted_nothing (k : SyntaxKind) : Builds (Hosted k) nothing :=
  Hosted.of_bare Each.nothing

theorem bare_ellipsis (k : SyntaxKind) :
    Each (Bare k) (onlyIf (·.isAtOperator "...") take) := by
  refine bare_takeIf (fun s hs hcolon => ?_) Each.nothing
  rw [Input.isAtOperator, hcolon] at hs
  exact absurd hs (by simp [SyntaxKind.isOperator])

theorem closing_tupleTypeElement (hr : r.Phrases) : Closing .tupleTypeElement (tupleTypeElement r) :=
  .append (.append (.phrase (hr .type) _) (bare_ellipsis _))
    (Each.whenAt _ ((phrase_initializerClause hr _).bare _))

theorem hosted_tupleTypeElement (hr : r.Phrases) :
    Builds (Hosted .tupleTypeElement) (tupleTypeElement r) := by
  refine Hosted.append (Hosted.append (Hosted.append ?_ ((hr .type).bare _)) (bare_ellipsis _))
    (Each.whenAt _ ((phrase_initializerClause hr _).bare _))
  refine Builds.peekAt fun s => ?_
  split
  · rename_i htest
    exact hosted_label _ (Bool.and_eq_true_iff.mp htest).1
  · split
    · rename_i htest
      simp only [Bool.and_eq_true] at htest
      exact hosted_labels _ htest.1.1 htest.1.2
    · exact fun es s' hrun => hosted_nothing _ hrun

theorem phrase_tupleType (hr : r.Phrases) : Phrase (tupleType r) := by
  have helement := Builds.both (hosted_tupleTypeElement hr) (closing_tupleTypeElement hr)
  exact Phrase.node rfl (Each.append (Each.append (plain_expect _ _) (Each.onlyIf _
    (plain_hosted_list helement helement rfl _ _))) (plain_expect _ _))
    (.append_left (.append_left (.expect _)))

theorem plain_functionTypeRest (hr : r.Phrases) : Each Plain (functionTypeRest r) :=
  Each.append (Each.append (plain_eat _) (Each.whenAtAny _ plain_take))
    (phrase_returnClause hr).plain

theorem phrase_bracketType (hr : r.Phrases) {s : Input} (hs : s.kind = .leftBracket) :
    BuildsAt s Element.IsPhrase ((take ++ r.type).capture fun es => peek fun s =>
      if s.isAt .colon then
        node .dictionaryType (emit es ++ take ++ r.type ++ expect .rightBracket "`]`")
      else node .arrayType (emit es ++ expect .rightBracket "`]`")) := by
  -- the bracket and the first type start with no colon
  have hfront : BuildsAt s (fun es => ((∀ e ∈ es, e.Bare .dictionaryType) ∧ ∀ e ∈ es, e.Plain) ∧
      Element.leavesAll es ≠ []) (take ++ r.type) := by
    refine BuildsAt.append BuildsAt.take (hr .type) fun es fs ⟨t, hes, hkind⟩ hfs => ?_
    rw [hes]
    refine ⟨⟨List.forall_mem_append.mpr ⟨?_, hfs.bare _⟩,
      List.forall_mem_append.mpr ⟨?_, hfs.plain⟩⟩, by simp⟩
    · rw [List.forall_mem_singleton]
      exact Element.bare_token (by rw [hkind, hs]; decide)
    · rw [List.forall_mem_singleton]
      exact Element.plain_token t
  refine BuildsAt.capture hfront fun es ⟨⟨hbare, hplain⟩, hleaves⟩ =>
    Builds.peek fun _ => Builds.ite ?_ ?_
  · refine Phrase.node_of_hosted (Hosted.append (Hosted.append ?_ ((hr .type).bare _))
      (bare_expect (by decide) _ _)) (.append (.phrase (hr .type) _) (bare_expect (by decide) _ _)) ?_ rfl
    · exact Hosted.behind (Builds.emit hbare) (Builds.emit hleaves) (oneColon_take _)
    · exact .append_left (.append_left (.append_left (Builds.emit hleaves)))
  · exact Phrase.node rfl (Each.append (Builds.emit hplain) (plain_expect _ _))
      (.append_left (Builds.emit hleaves))

theorem phrase_primaryType (hr : r.Phrases) : Phrase (primaryType r) := by
  have hname : Phrase
      (node .identifierType (take ++ onlyIf (·.isAtOperator "<") (genericArgumentClause r))) :=
    Phrase.node rfl (Each.append plain_take (Each.onlyIf _ (phrase_genericArgumentClause hr).plain))
      (.append_left .take)
  refine Builds.peekAt fun s => ?_
  split
  · exact fun es s' hrun => hname hrun
  · exact fun es s' hrun => hname hrun
  · rename_i hs
    exact phrase_bracketType hr hs
  · have htuple : Phrase ((tupleType r).capture fun es => peek fun s =>
        if s.isAtAny [.asyncKw, .throwsKw, .rethrowsKw, .arrow] then
          node .functionType (emit es ++ functionTypeRest r)
        else emit es) := by
      refine Builds.capture (phrase_tupleType hr) fun es hes =>
        Builds.peek fun _ => Builds.ite ?_ (Builds.emit hes)
      exact Phrase.node rfl (Each.append (Builds.emit hes.plain) (plain_functionTypeRest hr))
        (.append_left (Builds.emit hes.leavesAll_ne_nil))
    exact fun es s' hrun => htuple hrun
  · exact fun es s' hrun => Builds.expected _ hrun

theorem plain_typeSuffix (hr : r.Phrases) (s : Input) (e : Element) :
    ∀ p ∈ typeSuffix? r s e, Phrase.Extends p.1 p.2 := by
  intro p hp
  unfold typeSuffix? at hp
  split at hp
  · cases hp
    exact Phrase.extends_of_plain rfl plain_take
  · cases hp
    exact Phrase.extends_of_plain rfl plain_take
  · split at hp <;> cases hp
    exact Phrase.extends_of_plain rfl
      (Each.append (plain_takeN _) (Each.onlyIf _ (phrase_genericArgumentClause hr).plain))
  · cases hp

theorem phrase_type (hr : r.Phrases) : Phrase (type r) := by
  refine Builds.peek fun s => Builds.ite ?_ (Builds.ite ?_ (Builds.ite ?_ ?_))
  · exact Phrase.node rfl (Each.append phrase_attributeUse.plain (hr .type).plain)
      (.append_left phrase_attributeUse.leafy)
  · exact Phrase.node rfl (Each.append plain_take (hr .type).plain) (.append_left .take)
  · exact Phrase.node rfl (Each.append plain_take (hr .type).plain) (.append_left .take)
  · exact Phrase.withSuffixes (phrase_primaryType hr) _ (plain_typeSuffix hr)

/-! ### Patterns -/

theorem phrase_take (hk : k.isLoose = true) : Phrase (node k take) :=
  Phrase.node hk plain_take .take

theorem phrase_bindingPattern (hr : r.Phrases) : Phrase (bindingPattern r) := by
  refine Builds.peek fun s => ?_
  split
  · exact phrase_take rfl
  · exact phrase_take rfl
  · have helement := (hr .bindingPattern).plain
    exact Phrase.node rfl (Each.append (Each.append plain_take (Each.onlyIf _
      (plain_list rfl helement helement _ _))) (plain_expect _ _)) (.append_left (.append_left .take))
  · exact Builds.expected _

theorem phrase_pattern (hr : r.Phrases) : Phrase (pattern r) := by
  refine Builds.peek fun s => Builds.ite ?_ (Builds.ite ?_ (Builds.ite ?_ ?_))
  · exact Phrase.node rfl (Each.append plain_take (hr .pattern).plain) (.append_left .take)
  · exact phrase_take rfl
  · exact phrase_take rfl
  · exact Phrase.node rfl (hr (.expression _)).plain (hr (.expression _)).leafy

/-! ### Blocks and branches -/

theorem plain_blockItems (hr : r.Phrases) : Each Plain (blockItems r) := by
  refine Each.repeated (fun s g hg => ?_) _
  split_ifs at hg <;> cases hg
  · exact Builds.expected _
  · exact (hr .codeBlockItem).plain

theorem phrase_braced (hk : k.isLoose = true) (hr : r.Phrases) : Phrase (braced k r) :=
  Phrase.node hk (Each.append (Each.append (plain_expect _ _) (plain_blockItems hr)) plain_take)
    (.append_right .take)

theorem phrase_codeBlock (hr : r.Phrases) : Phrase (codeBlock r) := phrase_braced rfl hr

theorem phrase_whereClause (hr : r.Phrases) : Phrase (whereClause r) :=
  Phrase.node rfl (Each.append plain_take (hr (.expression _)).plain) (.append_left .take)

/-- In a node that is no host of colons, elements with at most one clause that starts with a colon
among them, behind something that is not empty of leaves. -/
theorem hosted_clause {g h i : Grammar} (hk : k.isColonHost = false) (hg : Each Plain g)
    (hleafy : Leafy g) (hh : Builds AtMostOne h) (hi : Each Plain i) :
    Builds (Hosted k) (g ++ whenAt .colon h ++ i) :=
  Hosted.append (Hosted.behind (Builds.imp hg fun _ hes e he => (hes e he).bare hk) hleafy
    (oneColon_whenAt hh _)) (Builds.imp hi fun _ hes e he => (hes e he).bare hk)

theorem plain_condition (hr : r.Phrases) : Each Plain (condition r) := by
  have hbinding : Phrase (node .optionalBindingCondition <|
      take ++ r.bindingPattern ++ whenAt .colon (typeAscription r) ++
        whenAt .equal (initializerClause r .condition)) := by
    have hhosted : Builds (Hosted .optionalBindingCondition) (take ++ r.bindingPattern ++
        whenAt .colon (typeAscription r) ++ whenAt .equal (initializerClause r .condition)) :=
      hosted_clause rfl (Each.append plain_take (hr .bindingPattern).plain) (.append_left .take)
        (atMostOne_typeAscription hr) (Each.whenAt _ (phrase_initializerClause hr _).plain)
    exact Phrase.node_of_hosted hhosted (.of_hosted rfl hhosted)
      (.append_left (.append_left (.append_left .take))) rfl
  refine Builds.peek fun s => ?_
  split
  · exact hbinding.plain
  · exact hbinding.plain
  · exact Each.append (Each.append plain_take (hr .pattern).plain)
      (phrase_initializerClause hr _).plain
  · exact (hr (.expression _)).plain

theorem plain_conditionList (hr : r.Phrases) : Each Plain (conditionList r) :=
  plain_list rfl (plain_condition hr) (plain_condition hr) _ _

theorem phrase_ifExpr (hr : r.Phrases) : Phrase (ifExpr r) := by
  refine Phrase.node rfl (Each.append (Each.append (Each.append plain_take (plain_conditionList hr))
    (phrase_codeBlock hr).plain) (Each.whenAt _ (Each.append plain_take ?_)))
    (.append_left (.append_left (.append_left .take)))
  exact Builds.peek fun _ => Builds.ite (hr .ifExpr).plain (phrase_codeBlock hr).plain

/-- The items of a case are not empty. -/
theorem plain_switchCaseItem {es : List Element} (hes : ∀ e ∈ es, e.Plain) (hne : es ≠ []) :
    (Element.node .switchCaseItem es).Plain :=
  Element.plain_of_shape rfl hes fun hcolons => ⟨hcolons, fun hk => absurd hk (by decide),
    fun _ => hne, fun hk => absurd hk (by decide), fun hk => absurd hk (by decide), nofun⟩

theorem bare_switchCaseItems (hr : r.Phrases) (j : SyntaxKind) :
    Each (Bare j) (commaSeparated .switchCaseItem r.bound
      (r.pattern ++ whenAt .whereKw (whereClause r))) := by
  have hitem : Builds (fun es => (∀ e ∈ es, e.Plain) ∧ es ≠ [])
      (r.pattern ++ whenAt .whereKw (whereClause r)) := by
    refine Builds.append (hr .pattern) (Each.whenAt _ (phrase_whereClause hr).plain)
      fun es fs hes hfs => ⟨List.forall_mem_append.mpr ⟨hes.plain, hfs⟩, ?_⟩
    obtain ⟨k, cs, rfl, -⟩ := hes
    exact List.cons_ne_nil _ _
  refine Each.commaSeparated hitem (fun es hes => ?_) (fun es t hes _ => ?_) _
  · exact (plain_switchCaseItem hes.1 hes.2).bare_of_node j
  · refine (plain_switchCaseItem (List.forall_mem_append.mpr ⟨hes.1, ?_⟩) ?_).bare_of_node j
    · simpa using Element.plain_token t
    · simp

/-- A token that is no colon. -/
theorem bare_takeAt {s : Input} (hs : s.kind ≠ .colon) :
    BuildsAt s (fun es => (∀ e ∈ es, e.Bare k) ∧ Element.leavesAll es ≠ []) take := by
  intro es s' hrun
  obtain ⟨t, rfl, hkind⟩ := BuildsAt.take hrun
  rw [List.forall_mem_singleton]
  exact ⟨Element.bare_token (hkind ▸ hs), by simp⟩

/-- A label that ends with a colon. -/
theorem phrase_label {g : Grammar} {s : Input}
    (hg : BuildsAt s (fun es => (∀ e ∈ es, e.Bare k) ∧ Element.leavesAll es ≠ []) g)
    (hk : k.hasForm = false) (hleft : k.isTwoSided = false) :
    BuildsAt s Element.IsPhrase (node k (g ++ expect .colon "`:`")) := by
  refine BuildsAt.node (BuildsAt.append hg (Builds.expect _)
    (T := fun es => Hosted k es ∧ Element.leavesAll es ≠ []) fun es fs hes ⟨t, hfs, _⟩ => ?_)
    fun es hes =>
      ⟨k, es, rfl, hes.1.plain hk (Element.backEndsAtColon_of_closed hleft hes.1.closed), hes.2⟩
  rw [hfs]
  exact ⟨Element.Hosted.behind hes.1 hes.2 (Element.oneColon_token k t), by simp⟩

/-- The label of a case, or what stands for it in the last one. -/
theorem phrase_caseLabel (hr : r.Phrases) :
    Phrase (peek fun s =>
      match s.kind with
      | .caseKw => switchCaseLabel r
      | .defaultKw => node .switchDefaultLabel (take ++ expect .colon "`:`")
      | _ => expected "`case` or `default`") := by
  refine Builds.peekAt fun s => ?_
  split
  · rename_i hs
    refine phrase_label (BuildsAt.append (bare_takeAt (k := .switchCaseLabel) (by rw [hs]; decide))
      (bare_switchCaseItems hr .switchCaseLabel) fun es fs hes hfs => ?_) rfl rfl
    exact ⟨List.forall_mem_append.mpr ⟨hes.1, hfs⟩, by simp [hes.2]⟩
  · rename_i hs
    exact phrase_label (bare_takeAt (by rw [hs]; decide)) rfl rfl
  · exact fun es s' hrun => Builds.expected _ hrun

theorem phrase_switchCase (hr : r.Phrases) : Phrase (switchCase r) := by
  have hlabel := phrase_caseLabel hr
  refine Phrase.node rfl (Each.append (Each.append (Each.onlyIf _ phrase_attributeUse.plain)
    hlabel.plain) ?_) (.append_left (.append_right hlabel.leafy))
  refine Each.repeated (fun s g hg => ?_) _
  split_ifs at hg <;> cases hg
  · exact Builds.expected _
  · exact (hr .codeBlockItem).plain

/-- The cases of a switch are phrases. -/
theorem cases_switchExpr (hr : r.Phrases) :
    Each (fun e => e.Plain ∧ (e.token? = none → e.leaves ≠ []))
      (repeated (fun s => if s.isAt .rightBrace then none else some (switchCase r)) r.bound) := by
  refine Each.repeated (fun s g hg => ?_) _
  split_ifs at hg <;> cases hg
  refine Builds.imp (phrase_switchCase hr) fun es hes e he => ⟨hes.plain e he, fun _ => ?_⟩
  obtain ⟨k, cs, rfl, -, hleaves⟩ := hes
  obtain rfl := List.mem_singleton.mp he
  simpa using hleaves

/-- A switch stands between its keyword and its closing brace. -/
theorem phrase_switchExpr (hr : r.Phrases) : Phrase (switchExpr r) := by
  have hvalue := hr (.expression .condition)
  have hfront : Builds (fun es => (∃ t, es.head? = some (.token t)) ∧
      ∀ e ∈ es, e.Plain ∧ (e.token? = none → e.leaves ≠ []))
      (take ++ r.expression .condition ++ expect .leftBrace "`\x7b`") := by
    refine Builds.append (Builds.append Builds.take hvalue (T := fun es =>
      (∃ t, es.head? = some (.token t)) ∧ ∀ e ∈ es, e.Plain ∧ (e.token? = none → e.leaves ≠ []))
      ?_) (Builds.expect _) ?_
    · rintro es fs ⟨t, rfl⟩ ⟨k, cs, rfl, hplain, hleaves⟩
      refine ⟨⟨t, rfl⟩, ?_⟩
      rw [List.singleton_append, List.forall_mem_cons, List.forall_mem_singleton]
      exact ⟨⟨Element.plain_token t, nofun⟩, hplain, fun _ => by simpa using hleaves⟩
    · rintro es fs ⟨⟨t, ht⟩, hes⟩ ⟨u, rfl, -⟩
      refine ⟨⟨t, by simp [ht]⟩, List.forall_mem_append.mpr ⟨hes, ?_⟩⟩
      rw [List.forall_mem_singleton]
      exact ⟨Element.plain_token u, nofun⟩
  refine Builds.node (Builds.append (Builds.append hfront (cases_switchExpr hr)
    (T := fun es => (∃ t, es.head? = some (.token t)) ∧
      ∀ e ∈ es, e.Plain ∧ (e.token? = none → e.leaves ≠ [])) ?_) Builds.take
    (T := fun es => (∃ t, es.head? = some (.token t)) ∧ (∃ t, es.getLast? = some (.token t)) ∧
      ∀ e ∈ es, e.Plain ∧ (e.token? = none → e.leaves ≠ [])) ?_) ?_
  · rintro es fs ⟨⟨t, ht⟩, hes⟩ hfs
    exact ⟨⟨t, by simp [ht]⟩, List.forall_mem_append.mpr ⟨hes, hfs⟩⟩
  · rintro es fs ⟨⟨t, ht⟩, hes⟩ ⟨u, rfl⟩
    refine ⟨⟨t, by simp [ht]⟩, ⟨u, by simp⟩, List.forall_mem_append.mpr ⟨hes, ?_⟩⟩
    rw [List.forall_mem_singleton]
    exact ⟨Element.plain_token u, nofun⟩
  · rintro es ⟨⟨t, ht⟩, ⟨u, hu⟩, hes⟩
    have hplain : ∀ e ∈ es, e.Plain := fun e he => (hes e he).1
    refine ⟨_, es, rfl, Element.plain_of_shape rfl hplain fun hcolons => ?_, ?_⟩
    · refine ⟨hcolons, fun hk => absurd hk (by decide), fun hk => absurd hk (by decide), fun _ => ?_,
        fun hk => absurd hk (by decide), nofun⟩
      refine ⟨⟨t, ht⟩, ⟨u, hu⟩, fun e he hkind => ?_⟩
      cases e with
      | token v => simp
      | node j fs => exact (hes _ he).2 rfl
    · obtain ⟨rest, rfl⟩ := List.head?_eq_some_iff.mp ht
      simp

/-! ### Expressions -/

/-- The arguments start with no colon, but the last one may be a label that stands alone. -/
theorem unopened_argumentList (hr : r.Phrases) (close : SyntaxKind) (inPattern : Bool) (j : SyntaxKind) :
    Each (Unopened j) (argumentList r close inPattern) := by
  have hitem : Builds (Hosted .labeledExpr)
      (onlyIf (fun s => s.kind.isName && s.kindAt 1 == .colon) (takeN 2) ++
        onlyIf (fun s => !s.isAt .comma && !s.isAt close) (r.expression ⟨false, inPattern⟩)) := by
    refine Hosted.append ?_ (Each.onlyIf _ ((hr (.expression _)).bare _))
    refine Builds.peekAt fun s => ?_
    split
    · rename_i htest
      exact hosted_label _ (Bool.and_eq_true_iff.mp htest).1
    · exact fun es s' hrun => hosted_nothing _ hrun
  have hlist : Each (Unopened .argumentList) (commaSeparatedUntil close .labeledExpr r.bound
      (onlyIf (fun s => s.kind.isName && s.kindAt 1 == .colon) (takeN 2) ++
        onlyIf (fun s => !s.isAt .comma && !s.isAt close) (r.expression ⟨false, inPattern⟩))) :=
    Each.commaSeparatedUntil _ hitem (fun _ hes => hes.unopened rfl _) (fun _ t hes hcomma =>
      Element.Hosted.unopened (hes.append (by
        rw [List.forall_mem_singleton]
        exact Element.bare_token (by rw [hcomma]; decide))) rfl _) _
  exact Builds.node hlist fun es hes => by simpa using Element.unopened_node rfl hes j

/-- Arguments between brackets; behind them there is a bracket. -/
theorem unopened_arguments (hr : r.Phrases) (k : SyntaxKind) (hk : k.isColonHost = false)
    {close : SyntaxKind} (hclose : close ≠ .colon) (inPattern : Bool) (what : String) :
    Each (Unopened k) (take ++ argumentList r close inPattern ++ expect close what) ∧
      Closing k (take ++ argumentList r close inPattern ++ expect close what) := by
  constructor
  · exact Each.append (Each.append (Each.take fun t => (Element.plain_token t).unopened hk)
      (unopened_argumentList hr _ _ _)) (Each.expect (fun t _ => (Element.plain_token t).unopened hk) _)
  · exact .behind (.of_bare (bare_expect hclose _ _)) (.expect _)

theorem phrase_closureExpr (hr : r.Phrases) : Phrase (closureExpr r) := by
  refine Phrase.node rfl (Each.append (Each.append (Each.append (plain_expect _ _) ?_)
    (plain_blockItems hr)) plain_take) (.append_right .take)
  refine Builds.peek fun s => ?_
  split
  · exact Builds.node (plain_takeN _) fun es hes => by simpa using Element.plain_node rfl hes
  · exact Each.nothing

theorem phrase_collectionExpr (hr : r.Phrases) : Phrase (collectionExpr r) := by
  have hvalue : Phrase (r.expression .free) := hr (.expression _)
  -- a colon and a value behind a key
  have hbehind : Builds (OneColon .dictionaryElement) (expect .colon "`:`" ++ r.expression .free) :=
    oneColon_append (oneColon_expect _ _) (hvalue.bare _)
  have hopening : Builds (fun es => (∀ e ∈ es, e.Plain) ∧ Element.leavesAll es ≠ []) take :=
    plain_take.both Leafy.take
  refine Builds.capture hopening fun opening hopen => Builds.peek fun s => Builds.ite ?_ (Builds.ite ?_ ?_)
  · exact Phrase.node rfl (Each.append (Builds.emit hopen.1) (plain_takeN _))
      (.append_left (Builds.emit hopen.2))
  · exact Phrase.node rfl (Each.append (Builds.emit hopen.1) plain_take)
      (.append_left (Builds.emit hopen.2))
  · refine Builds.capture hvalue fun first hfirst => Builds.peek fun _ => Builds.ite ?_ ?_
    · have hkey : Builds (Hosted .dictionaryElement)
          (emit first ++ (expect .colon "`:`" ++ r.expression .free)) :=
        Hosted.behind (Builds.emit (hfirst.bare _)) (Builds.emit hfirst.leavesAll_ne_nil) hbehind
      have hitem : Builds (Hosted .dictionaryElement)
          (r.expression .free ++ (expect .colon "`:`" ++ r.expression .free)) :=
        Hosted.behind (hvalue.bare _) hvalue.leafy hbehind
      -- neither the first element nor the others end with the colon behind the key
      have hlist := plain_hosted_list
        (Builds.both hitem (Closing.behind (.phrase hvalue _) (.append_right hvalue.leafy)))
        (Builds.both hkey (Closing.behind (.phrase hvalue _) (.append_right hvalue.leafy)))
        rfl (·.isAt .rightBracket) r.bound
      exact Phrase.node rfl (Each.append (Each.append (Builds.emit hopen.1) hlist) (plain_expect _ _))
        (.append_left (.append_left (Builds.emit hopen.2)))
    · exact Phrase.node rfl (Each.append (Each.append (Builds.emit hopen.1)
        (plain_list rfl hvalue.plain (Builds.emit hfirst.plain) _ _)) (plain_expect _ _))
        (.append_left (.append_left (Builds.emit hopen.2)))

theorem memberName_token : Builds (fun es => ∃ t, es = [.token t]) memberName :=
  Builds.peek fun _ => Builds.ite Builds.take (Builds.expected _)

/-- A member ends with its name. -/
theorem plain_memberAccess (es : List Element) {t u : Token} (hes : ∀ e ∈ es, e.Plain) :
    (Element.node .memberAccessExpr (es ++ [.token t, .token u])).Plain := by
  have hplain : ∀ e ∈ es ++ [.token t, .token u], e.Plain := by
    rw [List.forall_mem_append, List.forall_mem_cons, List.forall_mem_singleton]
    exact ⟨hes, Element.plain_token t, Element.plain_token u⟩
  refine Element.plain_of_shape rfl hplain fun hcolons => ⟨hcolons, fun hk => absurd hk (by decide),
    fun hk => absurd hk (by decide), fun hk => absurd hk (by decide), fun _ => ⟨u, ?_⟩, nofun⟩
  simp

theorem member_tokens :
    Builds (fun es => ∃ t u, es = [.token t, .token u]) (take ++ memberName) := by
  refine Builds.append Builds.take memberName_token ?_
  rintro es fs ⟨t, rfl⟩ ⟨u, rfl⟩
  exact ⟨t, u, rfl⟩

theorem phrase_primaryExpr (hr : r.Phrases) (ρ : Restrictions) : Phrase (primaryExpr r ρ) := by
  refine Builds.peek fun s => ?_
  split
  all_goals try exact phrase_take rfl
  · exact Builds.ite (Builds.fail _) (phrase_take rfl)
  · refine Builds.node member_tokens ?_
    rintro es ⟨t, u, rfl⟩
    exact ⟨_, _, rfl, plain_memberAccess [] (by simp), by simp⟩
  · obtain ⟨hunopened, hclosing⟩ := unopened_arguments hr .tupleExpr rfl
      (show SyntaxKind.rightParen ≠ .colon by decide) ρ.inPattern "`)`"
    exact Phrase.node_of_unopened rfl hunopened hclosing (.append_left (.append_left .take))
  · exact phrase_collectionExpr hr
  · exact phrase_closureExpr hr
  · exact hr .ifExpr
  · exact phrase_switchExpr hr
  · exact Builds.ite (hr .pattern) (Builds.expected _)
  · exact Builds.ite (hr .pattern) (Builds.expected _)
  · refine Builds.ite ?_ (Builds.expected _)
    exact Phrase.node rfl (Each.append plain_take (hr .type).plain) (.append_left .take)
  · exact Builds.ite (phrase_take rfl) (Builds.ite (phrase_take rfl) (Builds.expected _))

theorem plain_exprSuffix (hr : r.Phrases) (ρ : Restrictions) (s : Input) (e : Element) :
    ∀ p ∈ exprSuffix? r ρ s e, Phrase.Extends p.1 p.2 := by
  intro p hp
  unfold exprSuffix? at hp
  split at hp
  · cases hp
    refine Builds.imp member_tokens ?_
    rintro es ⟨t, u, rfl⟩ e he
    exact plain_memberAccess [e] (by simpa using he)
  · split at hp <;> cases hp
    obtain ⟨hunopened, hclosing⟩ := unopened_arguments hr .functionCallExpr rfl
      (show SyntaxKind.rightParen ≠ .colon by decide) ρ.inPattern "`)`"
    exact Phrase.extends_of_unopened rfl rfl (Each.append hunopened (Each.onlyIf _
        ((phrase_closureExpr hr).plain.imp fun _ hes e he => (hes e he).unopened rfl)))
      (hclosing.append (Each.onlyIf _ ((phrase_closureExpr hr).bare _)))
      (.append_left (.append_left (.append_left .take)))
  · split at hp <;> cases hp
    obtain ⟨hunopened, hclosing⟩ := unopened_arguments hr .subscriptExpr rfl
      (show SyntaxKind.rightBracket ≠ .colon by decide) false "`]`"
    exact Phrase.extends_of_unopened rfl rfl hunopened hclosing (.append_left (.append_left .take))
  · split at hp <;> cases hp
    exact Phrase.extends_of_plain rfl (phrase_closureExpr hr).plain
  · cases hp
    exact Phrase.extends_of_plain rfl plain_take
  · cases hp
    exact Phrase.extends_of_plain rfl plain_take
  · cases hp
    exact Phrase.extends_of_plain rfl plain_take
  · cases hp

theorem plain_optionalMark : Each Plain optionalMark := Each.whenAtAny _ plain_take

theorem phrase_operand (hr : r.Phrases) (ρ : Restrictions) : Phrase (operand r ρ) := by
  have hoperand := (hr (.operand ρ)).plain
  refine Builds.peek fun s => Builds.ite ?_ (Builds.ite ?_ (Builds.ite ?_ ?_))
  · exact Phrase.node rfl (Each.append plain_take hoperand) (.append_left .take)
  · exact Phrase.node rfl (Each.append (Each.append plain_take plain_optionalMark) hoperand)
      (.append_left (.append_left .take))
  · exact Phrase.node rfl (Each.append plain_take hoperand) (.append_left .take)
  · exact Phrase.withSuffixes (phrase_primaryExpr hr ρ) _ (plain_exprSuffix hr ρ)

theorem plain_operatorPart (hr : r.Phrases) (ρ : Restrictions) (s : Input) :
    ∀ g ∈ operatorPart? r ρ s, Each Plain g := by
  have hoperand := (hr (.operand ρ)).plain
  have hnode : ∀ {k : SyntaxKind} {g : Grammar}, k.isLoose = true → Each Plain g →
      Each Plain (node k g) :=
    fun hk hg => Builds.node hg fun es hes => by simpa using Element.plain_node hk hes
  intro g hg
  unfold operatorPart? at hg
  split at hg
  · cases hg
    exact Each.append plain_take hoperand
  · split at hg <;> cases hg
    exact Each.append plain_take hoperand
  · cases hg
    exact Each.append (hnode rfl (Each.append (Each.append plain_take (hr (.expression _)).plain)
      (plain_expect _ _))) hoperand
  · cases hg
    exact hnode rfl (Each.append plain_take (hr .type).plain)
  · cases hg
    exact hnode rfl (Each.append (Each.append plain_take plain_optionalMark) (hr .type).plain)
  · cases hg

theorem phrase_expression (hr : r.Phrases) (ρ : Restrictions) : Phrase (expression r ρ) :=
  Phrase.nodeUnlessSingle rfl (hr (.operand ρ)) (Each.repeated (plain_operatorPart hr ρ) _)

/-! ### Declarations -/

theorem phrase_declModifier : Phrase declModifier :=
  Phrase.node rfl (Each.append plain_take (Each.onlyIf _ (plain_takeN _))) (.append_left .take)

theorem plain_declModifiers (r : Level) : Each Plain (declModifiers r) := by
  refine Each.repeated (fun s g hg => ?_) _
  split_ifs at hg <;> cases hg
  · exact phrase_attributeUse.plain
  · exact phrase_declModifier.plain

/-- Nothing but attributes and modifiers stands in front of a declaration. -/
theorem declModifiers_kind (r : Level) :
    Each (fun e => e.kind.isModifier = true) (declModifiers r) := by
  have hnode : ∀ {k : SyntaxKind} {g : Grammar}, k.isModifier = true →
      Each (fun e => e.kind.isModifier = true) (node k g) := by
    intro k g hk
    refine Builds.node (P := fun _ => True) (fun _ _ _ _ => trivial) fun es _ => ?_
    rw [List.forall_mem_singleton]
    exact hk
  refine Each.repeated (fun s g hg => ?_) _
  split_ifs at hg <;> cases hg
  · exact hnode rfl
  · exact hnode rfl

theorem plain_importDecl (r : Level) : Each Plain (importDecl r) := by
  refine Each.append (Each.append (Each.append plain_take (Each.whenAtAny _ plain_take))
    (plain_expect _ _)) ?_
  refine Each.repeated (fun s g hg => ?_) _
  split_ifs at hg <;> cases hg
  exact Each.append plain_take (Builds.peek fun _ => Builds.ite plain_take (Builds.expected _))

theorem hosted_patternBinding (hr : r.Phrases) :
    Builds (Hosted .patternBinding) (patternBinding r) := by
  refine Hosted.append (hosted_clause rfl (hr .bindingPattern).plain (hr .bindingPattern).leafy
    (atMostOne_typeAscription hr) (Each.whenAt _ (phrase_initializerClause hr _).plain)) ?_
  exact Each.whenAt _ ((phrase_codeBlock hr).bare _)

theorem plain_variableDecl (hr : r.Phrases) : Each Plain (variableDecl r) := by
  have hitem := Builds.both (hosted_patternBinding hr) (Closing.of_hosted rfl (hosted_patternBinding hr))
  exact Each.append plain_take (plain_hosted_list hitem hitem rfl _ _)

theorem hosted_parameter (hr : r.Phrases) : Builds (Hosted .parameter) (parameter r) := by
  have hname : Builds (fun es => (∀ e ∈ es, e.Bare .parameter) ∧ Element.leavesAll es ≠ [])
      (peek fun s => if s.kind.isName then take else expected "parameter name") := by
    refine Builds.takeIf (fun s t hs hkind => ?_) (Builds.expected _)
    rw [List.forall_mem_singleton]
    exact ⟨Element.bare_token (hkind ▸ name_ne_colon hs), by simp⟩
  have hattributes : Each (Bare .parameter) (repeated
      (fun s => if s.isAt .atSign then some attributeUse else none) r.bound) := by
    refine Each.repeated (fun s g hg => ?_) _
    split_ifs at hg <;> cases hg
    exact phrase_attributeUse.bare _
  have hsecond : Each (Bare .parameter)
      (onlyIf (fun s => s.kind.isName && s.kindAt 1 == .colon) take) :=
    bare_takeIf (fun s hs => name_ne_colon (Bool.and_eq_true_iff.mp hs).1) Each.nothing
  refine Hosted.append (Hosted.append (Hosted.append (Hosted.behind (Each.append (Each.append
    hattributes (Builds.imp hname fun _ hes => hes.1)) hsecond) ?_ ?_) ((hr .type).bare _))
    (bare_ellipsis _)) (Each.whenAt _ ((phrase_initializerClause hr _).bare _))
  · exact .append_left (.append_right (Builds.imp hname fun _ hes => hes.2))
  · exact oneColon_expect _ _

theorem closing_parameter (hr : r.Phrases) : Closing .parameter (parameter r) :=
  .append (.append (.phrase (hr .type) _) (bare_ellipsis _))
    (Each.whenAt _ ((phrase_initializerClause hr _).bare _))

theorem phrase_parameterClause (hr : r.Phrases) : Phrase (parameterClause r) := by
  have hitem := Builds.both (hosted_parameter hr) (closing_parameter hr)
  exact Phrase.node rfl (Each.append (Each.append (plain_expect _ _) (Each.onlyIf _
    (plain_hosted_list hitem hitem rfl _ _))) (plain_expect _ _)) (.append_left (.append_left (.expect _)))

theorem phrase_functionSignature (hr : r.Phrases) : Phrase (functionSignature r) := by
  have hclause := phrase_parameterClause hr
  exact Phrase.node rfl (Each.append (Each.append (Each.append hclause.plain (plain_eat _))
    (Each.whenAtAny _ plain_take)) (Each.whenAt _ (phrase_returnClause hr).plain))
    (.append_left (.append_left (.append_left hclause.leafy)))

theorem phrase_genericParameterClause (hr : r.Phrases) : Phrase (genericParameterClause r) := by
  have hbound : Builds (OneColon .genericParameter) (whenAt .colon (take ++ r.type)) :=
    Builds.onlyIf _ (oneColon_append (oneColon_take _) ((hr .type).bare _)) ⟨by simp, by simp⟩
  have hitem : Builds (Hosted .genericParameter) (expect .identifier "generic parameter name" ++
      whenAt .colon (take ++ r.type) ++ splitRightAngle) :=
    Hosted.append (Hosted.behind (bare_expect (by decide) _ _) (.expect _) hbound)
      Each.splitRightAngle
  have hclosing : Closing .genericParameter (expect .identifier "generic parameter name" ++
      whenAt .colon (take ++ r.type) ++ splitRightAngle) :=
    .append (.onlyIf (bare_expect (by decide) _ _) (.phrase (hr .type) _)
      (.append_right (hr .type).leafy) _) Each.splitRightAngle
  have hitem := Builds.both hitem hclosing
  have hlist := plain_hosted_list hitem hitem rfl (fun _ => false) r.bound
  exact Phrase.node rfl (Each.append (Each.append (plain_takeAs _) hlist) plain_rightAngle)
    (.append_left (.append_left .takeAs))

theorem phrase_genericWhereClause (hr : r.Phrases) : Phrase (genericWhereClause r) := by
  have hmark : Builds (OneColon .genericRequirement) (peek fun s =>
        if s.isAt .colon || s.isAtOperator "==" then take else expected "`:` or `==`") :=
    Builds.peek fun _ => Builds.ite (oneColon_take _) (Builds.expected _)
  have hitem : Builds (Hosted .genericRequirement) (r.type ++
      (peek fun s => if s.isAt .colon || s.isAtOperator "==" then take else expected "`:` or `==`") ++
      r.type) :=
    Hosted.append (Hosted.behind ((hr .type).bare _) (hr .type).leafy hmark) ((hr .type).bare _)
  have hitem := Builds.both hitem (Closing.phrase (hr .type) .genericRequirement)
  have hlist := plain_hosted_list hitem hitem rfl (fun _ => false) r.bound
  exact Phrase.node rfl (Each.append plain_take hlist) (.append_left .take)

theorem plain_optionalGenericParameters (hr : r.Phrases) :
    Each Plain (optionalGenericParameters r) :=
  Each.onlyIf _ (phrase_genericParameterClause hr).plain

theorem plain_functionRest (hr : r.Phrases) : Each Plain (functionRest r) :=
  Each.append (Each.append (Each.append (plain_optionalGenericParameters hr)
    (phrase_functionSignature hr).plain) (Each.whenAt _ (phrase_genericWhereClause hr).plain))
    (Each.whenAt _ (phrase_codeBlock hr).plain)

theorem plain_functionDecl (hr : r.Phrases) : Each Plain (functionDecl r) :=
  Each.append (Each.append plain_take (Builds.peek fun _ => Builds.ite plain_take
    (Builds.expected _))) (plain_functionRest hr)

theorem plain_initializerDecl (hr : r.Phrases) : Each Plain (initializerDecl r) :=
  Each.append (Each.append plain_take plain_optionalMark) (plain_functionRest hr)

/-- Elements of which the first is a token of the given kind. -/
def OpensWith (j : SyntaxKind) (es : List Element) : Prop := ∃ t fs, es = .token t :: fs ∧ t.kind = j

theorem opensWith_take (s : Input) : BuildsAt s (OpensWith s.kind) take := by
  intro es s' hrun
  obtain ⟨t, rfl, hkind⟩ := BuildsAt.take hrun
  exact ⟨t, [], rfl, hkind⟩

theorem opensWith_append {s : Input} {j : SyntaxKind} {g h : Grammar}
    (hg : BuildsAt s (OpensWith j) g) : BuildsAt s (OpensWith j) (g ++ h) := by
  refine BuildsAt.append (Q := fun _ => True) hg (fun _ _ _ _ => trivial) fun es gs hes _ => ?_
  obtain ⟨t, fs, rfl, hkind⟩ := hes
  exact ⟨t, fs ++ gs, rfl, hkind⟩

/-- A declaration has its keyword behind its attributes and modifiers. -/
theorem phrase_keyword {s : Input} {modifiers : List Element} {g : Grammar}
    (hk : k.declKeyword? = some s.kind) (hmodifiers : ∀ e ∈ modifiers, e.kind.isModifier = true)
    (hopens : BuildsAt s (OpensWith s.kind) g) (hhosted : Builds (Hosted k) (emit modifiers ++ g)) :
    BuildsAt s Element.IsPhrase (node k (emit modifiers ++ g)) := by
  have hchildren : BuildsAt s (fun es => ∃ fs, es = modifiers ++ fs ∧ OpensWith s.kind fs)
      (emit modifiers ++ g) := by
    intro es s' hrun
    obtain ⟨fs, hfs, rfl⟩ := run_emit_append hrun
    exact ⟨fs, rfl, hopens hfs⟩
  refine BuildsAt.node (hchildren.both (hhosted.builtAt s)) fun es hes => ?_
  obtain ⟨⟨fs, rfl, t, gs, rfl, hkind⟩, hhosted⟩ := hes
  exact ⟨k, _, rfl, hhosted.plain_of_keyword hk hmodifiers hkind, by simp⟩

theorem atMostOne_inheritanceClause (hr : r.Phrases) : Builds AtMostOne (inheritanceClause r) := by
  have htypes : Each (Bare .inheritanceClause) (commaSeparated .inheritedType r.bound r.type) := by
    refine Each.commaSeparated (hr .type).plain (fun es hes => ?_) (fun es t hes _ => ?_) _
    · exact (Element.plain_node rfl hes).bare_of_node _
    · refine (Element.plain_node rfl (List.forall_mem_append.mpr ⟨hes, ?_⟩)).bare_of_node _
      simpa using Element.plain_token t
  exact atMostOne_node (oneColon_append (oneColon_take _) htypes)
    (.behind (.of_bare htypes) (.commaList (hr .type).leafy _ _)) rfl

/-- The clause in which a type inherits stands behind the keyword of its declaration. -/
theorem hosted_typeDecl (hr : r.Phrases) (isExtension : Bool) {modifiers : List Element}
    (hmodifiers : ∀ e ∈ modifiers, e.Plain) (hk : k.isColonHost = false) :
    Builds (Hosted k) (emit modifiers ++ typeDecl r isExtension) := by
  have hname : Each Plain (if isExtension then r.type
      else expect .identifier "type name" ++ optionalGenericParameters r) :=
    Builds.ite (hr .type).plain
      (Each.append (plain_expect _ _) (plain_optionalGenericParameters hr))
  have hdecl : Builds (Hosted k) (typeDecl r isExtension) := by
    refine Hosted.append (hosted_clause hk (Each.append plain_take hname) (.append_left .take)
      (atMostOne_inheritanceClause hr) (Each.whenAt _ (phrase_genericWhereClause hr).plain)) ?_
    exact (phrase_braced rfl hr).bare _
  refine Builds.append (P := fun es => ∀ e ∈ es, e.Plain) (Builds.emit hmodifiers) hdecl
    fun es fs hes hfs => ?_
  -- modifiers start with no colon, and neither does what is behind them
  have hbare : ∀ e ∈ es, e.Bare k := fun e he => (hes e he).bare hk
  refine ⟨List.forall_mem_append.mpr ⟨fun e he => (hes e he).1, hfs.closed⟩, ?_, ?_⟩
  · rw [List.countP_append, Element.countP_eq_zero_of_bare hbare, Nat.zero_add]
    exact hfs.count
  · by_cases hnil : Element.leavesAll es = []
    · rw [Element.frontOpensAtColon_append_of_nil hnil, hfs.front]
    · rw [Element.frontOpensAtColon_append hnil, Element.frontOpensAtColon_of_bare hbare]

theorem plain_typeAliasDecl (hr : r.Phrases) : Each Plain (typeAliasDecl r) :=
  Each.append (Each.append (Each.append (Each.append plain_take (plain_expect _ _))
    (plain_optionalGenericParameters hr)) (plain_expect _ _)) (hr .type).plain

theorem plain_enumCaseDecl (hr : r.Phrases) : Each Plain (enumCaseDecl r) := by
  have hitem : Each Plain (expect .identifier "enum case name" ++ whenAt .leftParen (tupleType r) ++
      whenAt .equal (initializerClause r .free)) :=
    Each.append (Each.append (plain_expect _ _) (Each.whenAt _ (phrase_tupleType hr).plain))
      (Each.whenAt _ (phrase_initializerClause hr _).plain)
  exact Each.append plain_take (plain_list rfl hitem hitem _ _)

theorem phrase_declaration (hr : r.Phrases) : Phrase (declaration r) := by
  refine Builds.capture (Builds.both (plain_declModifiers r) (declModifiers_kind r))
    fun modifiers ⟨hmodifiers, hkinds⟩ => Builds.peekAt fun s => ?_
  have hplain : ∀ {k : SyntaxKind} {g : Grammar}, k.isColonHost = false → Each Plain g →
      Builds (Hosted k) (emit modifiers ++ g) := fun hk hg =>
    Hosted.of_bare (Builds.imp (Each.append (Builds.emit hmodifiers) hg) fun es hes e he =>
      (hes e he).bare hk)
  have htype : ∀ {k : SyntaxKind} (isExtension : Bool), k.isColonHost = false →
      k.declKeyword? = some s.kind →
      BuildsAt s Element.IsPhrase (node k (emit modifiers ++ typeDecl r isExtension)) :=
    fun isExtension hhost hk => phrase_keyword hk hkinds
      (opensWith_append (opensWith_append (opensWith_append (opensWith_append (opensWith_take s)))))
      (hosted_typeDecl hr isExtension hmodifiers hhost)
  have hmodified : ∀ {k : SyntaxKind} {g : Grammar}, k.isLoose = true → Each Plain g → Leafy g →
      Phrase (node k (emit modifiers ++ g)) :=
    fun hk hg hleafy => Phrase.node hk (Each.append (Builds.emit hmodifiers) hg)
      (.append_right hleafy)
  dsimp only
  split <;> rename_i hs
  · exact (hmodified rfl (plain_importDecl r)
      (.append_left (.append_left (.append_left .take)))).builtAt s
  · exact (hmodified rfl (plain_variableDecl hr) (.append_left .take)).builtAt s
  · exact (hmodified rfl (plain_variableDecl hr) (.append_left .take)).builtAt s
  · exact phrase_keyword (by rw [hs]; rfl) hkinds
      (opensWith_append (opensWith_append (opensWith_take s))) (hplain rfl (plain_functionDecl hr))
  · exact phrase_keyword (by rw [hs]; rfl) hkinds
      (opensWith_append (opensWith_append (opensWith_take s))) (hplain rfl (plain_initializerDecl hr))
  · exact htype _ rfl (by rw [hs]; rfl)
  · exact htype _ rfl (by rw [hs]; rfl)
  · exact htype _ rfl (by rw [hs]; rfl)
  · exact htype _ rfl (by rw [hs]; rfl)
  · exact htype _ rfl (by rw [hs]; rfl)
  · exact phrase_keyword (by rw [hs]; rfl) hkinds
      (opensWith_append (opensWith_append (opensWith_append (opensWith_append (opensWith_take s)))))
      (hplain rfl (plain_typeAliasDecl hr))
  · exact (hmodified rfl (plain_enumCaseDecl hr) (.append_left .take)).builtAt s
  · exact (Builds.expected _).builtAt s

/-! ### Statements -/

theorem phrase_jump (hk : k.isLoose = true) : Phrase (jump k) :=
  Phrase.node hk (Each.append plain_take (Each.onlyIf _ plain_take)) (.append_left .take)

theorem phrase_guardStmt (hr : r.Phrases) : Phrase (guardStmt r) :=
  Phrase.node rfl (Each.append (Each.append (Each.append plain_take (plain_conditionList hr))
    (plain_expect _ _)) (phrase_codeBlock hr).plain) (.append_left (.append_left (.append_left .take)))

theorem phrase_whileStmt (hr : r.Phrases) : Phrase (whileStmt r) :=
  Phrase.node rfl (Each.append (Each.append plain_take (plain_conditionList hr))
    (phrase_codeBlock hr).plain) (.append_left (.append_left .take))

theorem phrase_repeatStmt (hr : r.Phrases) : Phrase (repeatStmt r) :=
  Phrase.node rfl (Each.append (Each.append (Each.append plain_take (phrase_codeBlock hr).plain)
    (plain_expect _ _)) (hr (.expression _)).plain) (.append_left (.append_left (.append_left .take)))

theorem plain_forPattern (hr : r.Phrases) : Each Plain (forPattern r) := by
  have hbinding : Phrase (node .valueBindingPattern (take ++ r.bindingPattern)) :=
    Phrase.node rfl (Each.append plain_take (hr .bindingPattern).plain) (.append_left .take)
  refine Builds.peek fun s => ?_
  split
  · exact Each.append plain_take (hr .pattern).plain
  · exact hbinding.plain
  · exact hbinding.plain
  · exact (hr .bindingPattern).plain

theorem phrase_forInStmt (hr : r.Phrases) : Phrase (forInStmt r) := by
  have hfront : Each Plain (take ++ eat .tryKw ++ eat .awaitKw ++ forPattern r) :=
    Each.append (Each.append (Each.append plain_take (plain_eat _)) (plain_eat _))
      (plain_forPattern hr)
  have hleafy : Leafy (take ++ eat .tryKw ++ eat .awaitKw ++ forPattern r) :=
    .append_left (.append_left (.append_left .take))
  have hhosted : Builds (Hosted .forInStmt) (take ++ eat .tryKw ++ eat .awaitKw ++ forPattern r ++
      whenAt .colon (typeAscription r) ++ expect .inKw "`in`" ++ r.expression .condition ++
      whenAt .whereKw (whereClause r) ++ codeBlock r) :=
    Hosted.append (Hosted.append (Hosted.append (hosted_clause rfl hfront hleafy
      (atMostOne_typeAscription hr) (plain_expect _ _)) ((hr (.expression _)).bare _))
      (Each.whenAt _ ((phrase_whereClause hr).bare _))) ((phrase_codeBlock hr).bare _)
  exact Phrase.node_of_hosted hhosted (.of_hosted rfl hhosted) (.append_right (phrase_codeBlock hr).leafy)
    rfl

theorem phrase_catchClause (hr : r.Phrases) : Phrase (catchClause r) :=
  Phrase.node rfl (Each.append (Each.append (Each.append plain_take
    (Each.onlyIf _ (hr .pattern).plain)) (Each.whenAt _ (phrase_whereClause hr).plain))
    (phrase_codeBlock hr).plain) (.append_right (phrase_codeBlock hr).leafy)

theorem phrase_doStmt (hr : r.Phrases) : Phrase (doStmt r) := by
  refine Phrase.node rfl (Each.append (Each.append plain_take (phrase_codeBlock hr).plain) ?_)
    (.append_left (.append_left .take))
  refine Each.repeated (fun s g hg => ?_) _
  split_ifs at hg <;> cases hg
  exact (phrase_catchClause hr).plain

theorem phrase_statement (hr : r.Phrases) : Phrase (statement r) := by
  refine Builds.peek fun s => Builds.ite (phrase_declaration hr) ?_
  split
  · exact phrase_guardStmt hr
  · exact phrase_whileStmt hr
  · exact phrase_repeatStmt hr
  · exact phrase_forInStmt hr
  · exact phrase_doStmt hr
  · exact Phrase.node rfl (Each.append plain_take (phrase_codeBlock hr).plain) (.append_left .take)
  · exact Phrase.node rfl (Each.append plain_take (Each.onlyIf _ (hr (.expression _)).plain))
      (.append_left .take)
  · exact Phrase.node rfl (Each.append plain_take (hr (.expression _)).plain) (.append_left .take)
  · exact phrase_jump rfl
  · exact phrase_jump rfl
  · exact phrase_take rfl
  · exact Builds.ite (Builds.fail _) (hr (.expression _))

/-- A statement is a phrase, with or without a semicolon behind it. -/
theorem phrase_codeBlockItem (hr : r.Phrases) : Phrase (codeBlockItem r) := by
  have heat : Builds (fun es => (∀ e ∈ es, e.Plain) ∧ es.length ≤ 1) (eat .semicolon) := by
    refine Builds.onlyIf _ (Builds.imp Builds.take ?_) (by simp)
    rintro es ⟨t, rfl⟩
    exact ⟨by simpa using Element.plain_token t, Nat.le_refl 1⟩
  refine Builds.node (Builds.append (phrase_statement hr) heat
    (T := fun es => ∃ j cs rest, es = .node j cs :: rest ∧ (∀ e ∈ es, e.Plain) ∧
      Element.leavesAll cs ≠ [] ∧ rest.length ≤ 1) ?_) ?_
  · rintro es fs ⟨k, cs, rfl, hplain, hleaves⟩ hfs
    exact ⟨k, cs, fs, rfl, List.forall_mem_cons.mpr ⟨hplain, hfs.1⟩, hleaves, hfs.2⟩
  · rintro es ⟨j, cs, rest, rfl, hplain, hleaves, hrest⟩
    refine ⟨_, _, rfl, Element.plain_of_shape rfl hplain fun hcolons => ?_, by simp [hleaves]⟩
    exact ⟨hcolons, fun _ => ⟨j, cs, rest, rfl, hleaves, hrest⟩, fun hk => absurd hk (by decide),
      fun hk => absurd hk (by decide), fun hk => absurd hk (by decide), nofun⟩

/-! ### Levels -/

theorem phrase_unfold (hr : r.Phrases) (p : Nonterminal) : Phrase (unfold r p) := by
  cases p with
  | type => exact phrase_type hr
  | expression ρ => exact phrase_expression hr ρ
  | operand ρ => exact phrase_operand hr ρ
  | ifExpr => exact phrase_ifExpr hr
  | pattern => exact phrase_pattern hr
  | bindingPattern => exact phrase_bindingPattern hr
  | codeBlockItem => exact phrase_codeBlockItem hr

/-- Every level builds phrases, however deep it goes. -/
theorem phrases_level (depth : Nat) : (level depth).Phrases := by
  induction depth with
  | zero => exact fun _ => Builds.fail _
  | succ depth ih => exact fun p s es s' hrun => phrase_unfold ih p hrun

/-- The statements of a file have the kind of statements. -/
theorem fileItems_codeBlockItem (depth : Nat) :
    Each (fun e => ∃ es, e = .node .codeBlockItem es) (fileItems (level depth)) := by
  refine Each.repeated (fun s g hg => ?_) _
  split_ifs at hg <;> cases hg
  · exact Builds.fail _
  · cases depth with
    | zero => exact Builds.fail _
    | succ depth =>
      intro s es s' hrun
      have hnode : Each (fun e => ∃ es, e = Element.node .codeBlockItem es)
          (codeBlockItem (level depth)) :=
        Builds.node (P := fun _ => True) (fun _ _ _ _ => trivial) fun es _ => by simp
      exact hnode hrun

theorem plain_fileItems (hr : r.Phrases) : Each Plain (fileItems r) := by
  refine Each.repeated (fun s g hg => ?_) _
  split_ifs at hg <;> cases hg
  · exact Builds.fail _
  · exact (hr .codeBlockItem).plain

end Grammar

/-- **The shape of a syntax tree**: statements and then the end-of-file token make up the file, and
every node has the shape that its kind tells. -/
theorem shaped_parse {source : String} {tree : Element} (h : parse source = .ok tree) :
    tree.Shaped ∧ ∃ items t, tree = .node .sourceFile (items ++ [.token t]) ∧
      ∀ e ∈ items, ∃ es, e = .node .codeBlockItem es := by
  obtain ⟨ts, items, s, -, hitems, rfl⟩ := parse_eq_ok h
  have hplain := Grammar.plain_fileItems (Grammar.phrases_level _) hitems
  refine ⟨?_, items, s.endOfFile, rfl, Grammar.fileItems_codeBlockItem _ hitems⟩
  refine (Element.plain_node rfl (List.forall_mem_append.mpr ⟨hplain, ?_⟩)).1.1
  simpa using Element.plain_token s.endOfFile

theorem shaped_of_mem_descendants {source : String} {tree : Element} {x : Cursor}
    (h : parse source = .ok tree) (hx : x ∈ (Cursor.root tree).descendants) :
    x.element.Shaped := by
  obtain ⟨hplaced, hroot⟩ := Cursor.isPlaced_of_mem_descendants hx
  refine hplaced.of_rootElement (fun k es hnode e he => ?_) (hroot ▸ (shaped_parse h).1)
  exact (Element.shapedAll_iff es).mp ((Element.shaped_node k es).mp hnode).2 e he

end SwiftTidy
