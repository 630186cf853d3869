import SwiftTidy.Proofs.Parse.Assembled
import SwiftTidy.Proofs.Tree.Places

/-!
# The shape of nodes

What is known of every node that a grammar builds, beyond its text: at most one of its children
starts with a colon whose spacing matters, and none in front of it ends with one (`Colons`), a
statement is not a mere token and has at most one behind it, an item of a case is not empty, a switch
stands between two tokens, a member ends with its name, and a declaration has nothing but attributes
and modifiers in front of its keyword (`Shape`).

Whether an element starts or ends with such a colon depends on where the colon stands
(`opensAtColon`, `endsAtColon`).  Most nodes have no child that does (`Plain`), so a grammar is
followed element by element (`Each`); in the nodes that have one, it stands behind something that is
not empty (`Hosted`) and something follows it (`Closing`).  Only a label that stands alone ends an
argument, and a bracket or a comma is behind it (`Unopened`).
-/

namespace SwiftTidy

/-- The kinds of nodes in which the spacing around a colon matters. -/
def SyntaxKind.isColonHost : SyntaxKind → Bool
  | .typeAscription | .parameter | .tupleTypeElement | .labeledExpr | .inheritanceClause
  | .genericParameter | .genericRequirement | .dictionaryType | .dictionaryElement
  | .switchCaseLabel | .switchDefaultLabel => true
  | _ => false

/-- The kinds of nodes in which the spacing behind a colon matters, too: all but the labels of cases. -/
def SyntaxKind.isTwoSided (k : SyntaxKind) : Bool :=
  k.isColonHost && k != .switchCaseLabel && k != .switchDefaultLabel

theorem SyntaxKind.isTwoSided_eq_false {k : SyntaxKind} (h : k.isColonHost = false) :
    k.isTwoSided = false := by
  rw [isTwoSided, h, Bool.false_and, Bool.false_and]

/-- The kinds of functions, which have a signature in front of their body. -/
def SyntaxKind.hasSignature (k : SyntaxKind) : Bool := k == .functionDecl || k == .initializerDecl

/-- The keywords of the declarations that have one keyword only. -/
def SyntaxKind.declKeyword? : SyntaxKind → Option SyntaxKind
  | .functionDecl => some .funcKw
  | .initializerDecl => some .initKw
  | .structDecl => some .structKw
  | .classDecl => some .classKw
  | .enumDecl => some .enumKw
  | .protocolDecl => some .protocolKw
  | .extensionDecl => some .extensionKw
  | .typeAliasDecl => some .typealiasKw
  | _ => none

/-- The kinds of what may stand in front of the keyword of a declaration. -/
def SyntaxKind.isModifier (k : SyntaxKind) : Bool := k == .attributeUse || k == .declModifier

/-- The kinds of nodes of which more is told than where their colons are. -/
def SyntaxKind.hasForm (k : SyntaxKind) : Bool :=
  k == .codeBlockItem || k == .switchCaseItem || k == .switchExpr || k == .memberAccessExpr ||
    k.declKeyword?.isSome

/-- The kinds of nodes whose shape is not told by their kind. -/
def SyntaxKind.isLoose (k : SyntaxKind) : Bool := !k.isColonHost && !k.hasForm

namespace Element

mutual
/-- Whether the first leaf of an element is a colon whose spacing matters; `k` is the kind of the
node that the element stands in. -/
def opensAtColon : (k : SyntaxKind) → Element → Bool
  | k, .token t => t.kind == .colon && k.isColonHost
  | _, .node k es => frontOpensAtColon k es
/-- Whether the first leaf below a node of kind `k` is a colon whose spacing matters. -/
def frontOpensAtColon : (k : SyntaxKind) → List Element → Bool
  | _, [] => false
  | k, e :: es => if e.leaves.isEmpty then frontOpensAtColon k es else opensAtColon k e
end

mutual
/-- Whether the last leaf of an element is a colon with spacing behind it that matters; `k` is the kind
of the node that the element stands in. -/
def endsAtColon : (k : SyntaxKind) → Element → Bool
  | k, .token t => t.kind == .colon && k.isTwoSided
  | _, .node k es => backEndsAtColon k es
/-- Whether the last leaf below a node of kind `k` is a colon with spacing behind it that matters. -/
def backEndsAtColon : (k : SyntaxKind) → List Element → Bool
  | _, [] => false
  | k, e :: es => if (leavesAll es).isEmpty then endsAtColon k e else backEndsAtColon k es
end

/-- Where the colons of a node are: at most one child starts with one whose spacing matters, and no such
child is next to one that ends with a colon. -/
structure Colons (k : SyntaxKind) (es : List Element) : Prop where
  count : es.countP (opensAtColon k) ≤ 1
  apart : ∀ front e back, es = front ++ e :: back → endsAtColon k e = true →
    frontOpensAtColon k back = false

/-- What is known of a node from its kind. -/
structure Shape (k : SyntaxKind) (es : List Element) : Prop where
  colons : Colons k es
  statement : k = .codeBlockItem →
    ∃ j cs rest, es = .node j cs :: rest ∧ leavesAll cs ≠ [] ∧ rest.length ≤ 1
  item : k = .switchCaseItem → es ≠ []
  switch : k = .switchExpr → (∃ t, es.head? = some (.token t)) ∧
    (∃ t, es.getLast? = some (.token t)) ∧ ∀ e ∈ es, e.kind = .switchCase → e.leaves ≠ []
  member : k = .memberAccessExpr → ∃ t, es.getLast? = some (.token t)
  keyword : ∀ {j}, k.declKeyword? = some j → ∃ front t rest, es = front ++ .token t :: rest ∧
    t.kind = j ∧ ∀ e ∈ front, e.kind.isModifier = true

/-- Where the kind of a node tells no more, its shape is a matter of its colons. -/
theorem Shape.of_colons {k : SyntaxKind} {es : List Element} (hk : k.hasForm = false)
    (hcolons : Colons k es) : Shape k es := by
  simp only [SyntaxKind.hasForm, Bool.or_eq_false_iff, beq_eq_false_iff_ne,
    Option.isSome_eq_false_iff, Option.isNone_iff_eq_none] at hk
  obtain ⟨⟨⟨⟨hstatement, hitem⟩, hswitch⟩, hmember⟩, hkeyword⟩ := hk
  refine ⟨hcolons, fun h => absurd h hstatement, fun h => absurd h hitem, fun h => absurd h hswitch,
    fun h => absurd h hmember, fun h => ?_⟩
  rw [hkeyword] at h
  cases h

/-- A declaration has its keyword behind attributes and modifiers. -/
theorem Shape.of_keyword {k j : SyntaxKind} {modifiers rest : List Element} {t : Token}
    (hk : k.declKeyword? = some j) (hmodifiers : ∀ e ∈ modifiers, e.kind.isModifier = true)
    (hkind : t.kind = j)
    (hcolons : Colons k (modifiers ++ .token t :: rest)) :
    Shape k (modifiers ++ .token t :: rest) := by
  have hother : k ≠ .codeBlockItem ∧ k ≠ .switchCaseItem ∧ k ≠ .switchExpr ∧
      k ≠ .memberAccessExpr := by
    cases k <;> cases hk <;> decide
  obtain ⟨hstatement, hitem, hswitch, hmember⟩ := hother
  refine ⟨hcolons, fun h => absurd h hstatement, fun h => absurd h hitem, fun h => absurd h hswitch,
    fun h => absurd h hmember, fun h => ⟨modifiers, t, rest, rfl, ?_, hmodifiers⟩⟩
  rw [hkind]
  exact Option.some.inj (hk.symm.trans h)

/-- A function has its keyword in front of its body. -/
theorem Shape.signature {k : SyntaxKind} {es : List Element} (h : Shape k es)
    (hk : k.hasSignature = true) :
    ∃ t ∈ leavesAll (es.takeWhile (·.kind != .codeBlock)), t.kind ≠ .endOfFile := by
  obtain ⟨j, hj, hbody, hend⟩ : ∃ j, k.declKeyword? = some j ∧ j ≠ .codeBlock ∧ j ≠ .endOfFile := by
    rw [SyntaxKind.hasSignature, Bool.or_eq_true, beq_iff_eq, beq_iff_eq] at hk
    rcases hk with rfl | rfl
    · exact ⟨.funcKw, rfl, by decide⟩
    · exact ⟨.initKw, rfl, by decide⟩
  obtain ⟨front, t, rest, rfl, rfl, hfront⟩ := h.keyword hj
  have hmodifiers : ∀ e ∈ front, (e.kind != .codeBlock) = true := fun e he => by
    rw [bne_iff_ne]
    intro hcode
    have hmodifier := hfront e he
    rw [hcode] at hmodifier
    cases hmodifier
  have htoken : ((token t).kind != .codeBlock) = true := bne_iff_ne.mpr hbody
  rw [List.takeWhile_append_of_pos hmodifiers,
    List.takeWhile_cons_of_pos (p := fun e : Element => e.kind != .codeBlock) htoken]
  exact ⟨t, by simp, hend⟩

mutual
/-- Every node at or below an element has the shape that its kind tells. -/
def Shaped : Element → Prop
  | .token _ => True
  | .node k es => Shape k es ∧ ShapedAll es
/-- Every node at or below the elements has the shape that its kind tells. -/
def ShapedAll : List Element → Prop
  | [] => True
  | e :: es => Shaped e ∧ ShapedAll es
end

@[simp] theorem shaped_token (t : Token) : (token t).Shaped := by rw [Shaped]; trivial

@[simp] theorem shaped_node (k : SyntaxKind) (es : List Element) :
    (node k es).Shaped ↔ Shape k es ∧ ShapedAll es := by
  rw [Shaped]

theorem shapedAll_iff (es : List Element) : ShapedAll es ↔ ∀ e ∈ es, e.Shaped := by
  induction es with
  | nil => simp [ShapedAll]
  | cons e es ih => rw [ShapedAll, ih, List.forall_mem_cons]

@[simp] theorem opensAtColon_token (k : SyntaxKind) (t : Token) :
    opensAtColon k (token t) = (t.kind == .colon && k.isColonHost) := by
  rw [opensAtColon]

@[simp] theorem opensAtColon_node (j k : SyntaxKind) (es : List Element) :
    opensAtColon j (node k es) = frontOpensAtColon k es := by
  rw [opensAtColon]

@[simp] theorem endsAtColon_token (k : SyntaxKind) (t : Token) :
    endsAtColon k (token t) = (t.kind == .colon && k.isTwoSided) := by
  rw [endsAtColon]

@[simp] theorem endsAtColon_node (j k : SyntaxKind) (es : List Element) :
    endsAtColon j (node k es) = backEndsAtColon k es := by
  rw [endsAtColon]

/-! ### Elements that neither start nor end with such a colon -/

/-- An element that is shaped and, if it is a node, does not end with a colon. -/
def Closed (e : Element) : Prop := e.Shaped ∧ (e.token? = none → endsAtColon .sourceFile e = false)

/-- An element that is closed and does not start with a colon in a node of kind `k`. -/
def Bare (k : SyntaxKind) (e : Element) : Prop := e.Closed ∧ opensAtColon k e = false

/-- An element that is closed and, if it is a node, does not start with a colon. -/
def Plain (e : Element) : Prop := e.Closed ∧ (e.token? = none → opensAtColon .sourceFile e = false)

theorem closed_token (t : Token) : (token t).Closed := ⟨shaped_token t, fun h => by cases h⟩

theorem plain_token (t : Token) : (token t).Plain := ⟨closed_token t, fun h => by cases h⟩

/-- In a node that is no host of colons nothing plain starts with a colon. -/
theorem Plain.bare {e : Element} (h : e.Plain) {k : SyntaxKind} (hk : k.isColonHost = false) :
    e.Bare k := by
  refine ⟨h.1, ?_⟩
  cases e with
  | token t => rw [opensAtColon_token, hk, Bool.and_false]
  | node j es => simpa using h.2 rfl

/-- Nothing plain but a token starts with a colon, wherever it stands. -/
theorem Plain.bare_of_node {k : SyntaxKind} {es : List Element} (h : (node k es).Plain)
    (j : SyntaxKind) : (node k es).Bare j :=
  ⟨h.1, by simpa using h.2 rfl⟩

theorem bare_token {k : SyntaxKind} {t : Token} (h : t.kind ≠ .colon) : (token t).Bare k :=
  ⟨closed_token t, by rw [opensAtColon_token, beq_false_of_ne h, Bool.false_and]⟩

/-- Only a colon itself ends with the colon, and it starts with it. -/
theorem Closed.opensAtColon {k : SyntaxKind} {e : Element} (h : e.Closed)
    (hends : endsAtColon k e = true) : opensAtColon k e = true := by
  cases e with
  | token t =>
    rw [endsAtColon_token, SyntaxKind.isTwoSided] at hends
    simp only [Bool.and_eq_true] at hends
    rw [opensAtColon_token, hends.1, hends.2.1.1]
    rfl
  | node j es =>
    rw [endsAtColon_node] at hends
    have hopen := h.2 rfl
    rw [endsAtColon_node, hends] at hopen
    cases hopen

theorem Bare.endsAtColon {k : SyntaxKind} {e : Element} (h : e.Bare k) : endsAtColon k e = false :=
  Bool.eq_false_iff.mpr fun hends => by simpa [h.2] using h.1.opensAtColon hends

/-! ### Children of a node -/

/-- Elements below a node of kind `k` of which at most one starts with a colon. -/
def OneColon (k : SyntaxKind) (es : List Element) : Prop :=
  (∀ e ∈ es, e.Closed) ∧ es.countP (opensAtColon k) ≤ 1

/-- The children of a node that does not start with a colon and of which at most one child does. -/
structure Hosted (k : SyntaxKind) (es : List Element) : Prop where
  closed : ∀ e ∈ es, e.Closed
  count : es.countP (opensAtColon k) ≤ 1
  front : frontOpensAtColon k es = false

variable {k : SyntaxKind} {es fs : List Element}

theorem countP_eq_zero_of_bare (h : ∀ e ∈ es, e.Bare k) : es.countP (opensAtColon k) = 0 :=
  List.countP_eq_zero.mpr fun e he => by simpa using (h e he).2

theorem frontOpensAtColon_of_forall (h : ∀ e ∈ es, opensAtColon k e = false) :
    frontOpensAtColon k es = false := by
  induction es with
  | nil => rw [frontOpensAtColon]
  | cons e es ih =>
    obtain ⟨he, hes⟩ := List.forall_mem_cons.mp h
    rw [frontOpensAtColon, ih hes, he, ite_self]

theorem frontOpensAtColon_of_bare (h : ∀ e ∈ es, e.Bare k) : frontOpensAtColon k es = false :=
  frontOpensAtColon_of_forall fun e he => (h e he).2

/-- The front of a list decides if it is not empty of leaves. -/
theorem frontOpensAtColon_append (h : leavesAll es ≠ []) :
    frontOpensAtColon k (es ++ fs) = frontOpensAtColon k es := by
  induction es with
  | nil => exact absurd leavesAll_nil h
  | cons e es ih =>
    rw [List.cons_append, frontOpensAtColon, frontOpensAtColon]
    by_cases he : e.leaves = []
    · rw [he, List.isEmpty_nil, if_pos rfl, if_pos rfl]
      exact ih (by simpa [he] using h)
    · rw [if_neg (by simpa using he), if_neg (by simpa using he)]

theorem frontOpensAtColon_append_of_nil (h : leavesAll es = []) :
    frontOpensAtColon k (es ++ fs) = frontOpensAtColon k fs := by
  induction es with
  | nil => rfl
  | cons e es ih =>
    rw [leavesAll_cons, List.append_eq_nil_iff] at h
    rw [List.cons_append, frontOpensAtColon, h.1, List.isEmpty_nil, if_pos rfl, ih h.2]

theorem backEndsAtColon_of_forall (h : ∀ e ∈ es, endsAtColon k e = false) :
    backEndsAtColon k es = false := by
  induction es with
  | nil => rw [backEndsAtColon]
  | cons e es ih =>
    obtain ⟨he, hes⟩ := List.forall_mem_cons.mp h
    rw [backEndsAtColon, ih hes, he, ite_self]

/-- The back of a list decides if it is not empty of leaves. -/
theorem backEndsAtColon_append (h : leavesAll fs ≠ []) :
    backEndsAtColon k (es ++ fs) = backEndsAtColon k fs := by
  induction es with
  | nil => rfl
  | cons e es ih =>
    rw [List.cons_append, backEndsAtColon, if_neg, ih]
    simp [h]

mutual
/-- Without leaves there is no colon to end with. -/
theorem endsAtColon_of_nil (k : SyntaxKind) : ∀ e : Element, e.leaves = [] → endsAtColon k e = false
  | .token t, h => by
    rw [leaves_token] at h
    cases h
  | .node j es, h => by
    rw [leaves_node] at h
    rw [endsAtColon_node, backEndsAtColon_of_nil j es h]
theorem backEndsAtColon_of_nil (k : SyntaxKind) :
    ∀ es : List Element, leavesAll es = [] → backEndsAtColon k es = false
  | [], _ => by rw [backEndsAtColon]
  | e :: es, h => by
    rw [leavesAll_cons, List.append_eq_nil_iff] at h
    rw [backEndsAtColon, h.2, List.isEmpty_nil, if_pos rfl, endsAtColon_of_nil k e h.1]
end

theorem backEndsAtColon_append_of_nil (h : leavesAll fs = []) :
    backEndsAtColon k (es ++ fs) = backEndsAtColon k es := by
  induction es with
  | nil => rw [List.nil_append, backEndsAtColon_of_nil k fs h, backEndsAtColon]
  | cons e es ih =>
    rw [List.cons_append, backEndsAtColon, backEndsAtColon, ih, leavesAll_append, h, List.append_nil]

/-- The last child with leaves is the one that ends with the colon. -/
theorem exists_of_backEndsAtColon (h : backEndsAtColon k es = true) :
    ∃ front e back, es = front ++ e :: back ∧ leavesAll back = [] ∧ endsAtColon k e = true := by
  induction es with
  | nil =>
    rw [backEndsAtColon] at h
    cases h
  | cons e es ih =>
    rw [backEndsAtColon] at h
    split_ifs at h with hnil
    · exact ⟨[], e, es, rfl, by simpa using hnil, h⟩
    · obtain ⟨front, f, back, rfl, hback, hf⟩ := ih h
      exact ⟨e :: front, f, back, rfl, hback, hf⟩

/-- What ends with no colon may follow. -/
theorem backEndsAtColon_append_of_bare (h : backEndsAtColon k es = false) (hbare : ∀ e ∈ fs, e.Bare k) :
    backEndsAtColon k (es ++ fs) = false := by
  by_cases hnil : leavesAll fs = []
  · rw [backEndsAtColon_append_of_nil hnil, h]
  · rw [backEndsAtColon_append hnil, backEndsAtColon_of_forall fun e he => (hbare e he).endsAtColon]

/-- Where no spacing behind colons matters, nothing closed ends with a colon. -/
theorem backEndsAtColon_of_closed (hk : k.isTwoSided = false) (h : ∀ e ∈ es, e.Closed) :
    backEndsAtColon k es = false := by
  refine backEndsAtColon_of_forall fun e he => ?_
  cases e with
  | token t => rw [endsAtColon_token, hk, Bool.and_false]
  | node j fs => simpa using (h _ he).2 rfl

/-- Behind children that end with a colon none starts with one. -/
theorem Colons.opensAtColon_eq_false {front back : List Element} {e : Element}
    (h : Colons k (front ++ e :: back)) (hfront : backEndsAtColon k front = true) (he : e.leaves ≠ []) :
    Element.opensAtColon k e = false := by
  obtain ⟨front, f, middle, rfl, hmiddle, hf⟩ := exists_of_backEndsAtColon hfront
  have hbehind := h.apart front f (middle ++ e :: back) (by simp) hf
  rwa [frontOpensAtColon_append_of_nil hmiddle, frontOpensAtColon, if_neg (by simpa using he)] at hbehind

/-- No child is next to a colon if there is only one, and no child that is a node ends with one. -/
theorem Colons.of_closed (hclosed : ∀ e ∈ es, e.Closed) (hcount : es.countP (Element.opensAtColon k) ≤ 1) :
    Colons k es := by
  refine ⟨hcount, ?_⟩
  rintro front e back rfl hends
  have hopens := (hclosed e (by simp)).opensAtColon hends
  rw [List.countP_append, List.countP_cons_of_pos hopens] at hcount
  refine frontOpensAtColon_of_forall fun f hf => Bool.eq_false_iff.mpr ?_
  exact List.countP_eq_zero.mp (show back.countP (Element.opensAtColon k) = 0 by omega) f hf

theorem Colons.of_forall (h : ∀ e ∈ es, Element.opensAtColon k e = false) : Colons k es := by
  have hcount : es.countP (Element.opensAtColon k) = 0 :=
    List.countP_eq_zero.mpr fun e he => by simpa using h e he
  refine ⟨Nat.le_trans (Nat.le_of_eq hcount) (Nat.zero_le 1), ?_⟩
  rintro front e back rfl -
  exact frontOpensAtColon_of_forall fun f hf => h f (by simp [hf])

theorem Hosted.of_bare (h : ∀ e ∈ es, e.Bare k) : Hosted k es where
  closed e he := (h e he).1
  count := by rw [countP_eq_zero_of_bare h]; exact Nat.zero_le 1
  front := frontOpensAtColon_of_bare h

/-- One token is at most one colon. -/
theorem oneColon_token (k : SyntaxKind) (t : Token) : OneColon k [.token t] :=
  ⟨by simpa using closed_token t, List.countP_le_length⟩

theorem OneColon.append (h : OneColon k es) (hbare : ∀ e ∈ fs, e.Bare k) : OneColon k (es ++ fs) := by
  refine ⟨List.forall_mem_append.mpr ⟨h.1, fun e he => (hbare e he).1⟩, ?_⟩
  rw [List.countP_append, countP_eq_zero_of_bare hbare]
  exact h.2

/-- What starts with no colon may follow. -/
theorem Hosted.append (h : Hosted k es) (hbare : ∀ e ∈ fs, e.Bare k) : Hosted k (es ++ fs) where
  closed := List.forall_mem_append.mpr ⟨h.closed, fun e he => (hbare e he).1⟩
  count := by
    rw [List.countP_append, countP_eq_zero_of_bare hbare]
    exact h.count
  front := by
    by_cases hnil : leavesAll es = []
    · rw [frontOpensAtColon_append_of_nil hnil, frontOpensAtColon_of_bare hbare]
    · rw [frontOpensAtColon_append hnil, h.front]

/-- Behind something that is not empty of leaves one child may start with a colon. -/
theorem Hosted.behind (hbare : ∀ e ∈ es, e.Bare k) (hleaves : leavesAll es ≠ [])
    (hfs : OneColon k fs) : Hosted k (es ++ fs) where
  closed := List.forall_mem_append.mpr ⟨fun e he => (hbare e he).1, hfs.1⟩
  count := by
    rw [List.countP_append, countP_eq_zero_of_bare hbare, Nat.zero_add]
    exact hfs.2
  front := by rw [frontOpensAtColon_append hleaves, frontOpensAtColon_of_bare hbare]

/-- A node with such children is shaped. -/
theorem Hosted.shaped (h : Hosted k es) (hk : k.hasForm = false) : (node k es).Shaped := by
  rw [shaped_node, shapedAll_iff]
  exact ⟨.of_colons hk (.of_closed h.closed h.count), fun e he => (h.closed e he).1⟩

/-- A node with such children is plain if it does not end with a colon. -/
theorem Hosted.plain (h : Hosted k es) (hk : k.hasForm = false) (hback : backEndsAtColon k es = false) :
    (node k es).Plain := by
  refine ⟨⟨h.shaped hk, fun _ => ?_⟩, fun _ => ?_⟩
  · rw [endsAtColon_node, hback]
  · rw [opensAtColon_node, h.front]

/-- A declaration with such children is plain. -/
theorem Hosted.plain_of_keyword {j : SyntaxKind} {t : Token}
    (h : Hosted k (es ++ .token t :: fs)) (hk : k.declKeyword? = some j)
    (hmodifiers : ∀ e ∈ es, e.kind.isModifier = true) (hkind : t.kind = j) :
    (node k (es ++ .token t :: fs)).Plain := by
  have hhost : k.isTwoSided = false := by cases k <;> cases hk <;> rfl
  refine ⟨⟨?_, fun _ => ?_⟩, fun _ => ?_⟩
  · rw [shaped_node, shapedAll_iff]
    exact ⟨.of_keyword hk hmodifiers hkind (.of_closed h.closed h.count), fun e he => (h.closed e he).1⟩
  · rw [endsAtColon_node, backEndsAtColon_of_closed hhost h.closed]
  · rw [opensAtColon_node, h.front]

/-- A node of plain elements is plain unless its kind tells more. -/
theorem plain_node (hk : k.isLoose = true) (h : ∀ e ∈ es, e.Plain) : (node k es).Plain := by
  simp only [SyntaxKind.isLoose, Bool.and_eq_true, Bool.not_eq_true'] at hk
  exact (Hosted.of_bare fun e he => (h e he).bare hk.1).plain hk.2
    (backEndsAtColon_of_closed (SyntaxKind.isTwoSided_eq_false hk.1) fun e he => (h e he).1)

/-- A node of plain elements that is no host of colons is plain if it has the form that its kind
tells. -/
theorem plain_of_shape (hk : k.isColonHost = false) (h : ∀ e ∈ es, e.Plain)
    (hshape : Colons k es → Shape k es) : (node k es).Plain := by
  have hhosted := Hosted.of_bare fun e he => (h e he).bare hk
  refine ⟨⟨?_, fun _ => ?_⟩, fun _ => ?_⟩
  · rw [shaped_node, shapedAll_iff]
    exact ⟨hshape (.of_closed hhosted.closed hhosted.count), fun e he => (h e he).1.1⟩
  · rw [endsAtColon_node,
      backEndsAtColon_of_closed (SyntaxKind.isTwoSided_eq_false hk) fun e he => (h e he).1]
  · rw [opensAtColon_node, hhosted.front]

/-! ### Elements that may end with such a colon -/

/-- An element that is shaped and does not start with a colon in a node of kind `k`. -/
def Unopened (k : SyntaxKind) (e : Element) : Prop := e.Shaped ∧ opensAtColon k e = false

theorem Plain.unopened {e : Element} (h : e.Plain) (hk : k.isColonHost = false) : e.Unopened k :=
  ⟨h.1.1, (h.bare hk).2⟩

theorem Hosted.unopened (h : Hosted k es) (hk : k.hasForm = false) (j : SyntaxKind) :
    (node k es).Unopened j :=
  ⟨h.shaped hk, by rw [opensAtColon_node, h.front]⟩

theorem shaped_of_unopened (hk : k.isLoose = true) (h : ∀ e ∈ es, e.Unopened k) : (node k es).Shaped := by
  simp only [SyntaxKind.isLoose, Bool.and_eq_true, Bool.not_eq_true'] at hk
  rw [shaped_node, shapedAll_iff]
  exact ⟨.of_colons hk.2 (.of_forall fun e he => (h e he).2), fun e he => (h e he).1⟩

theorem unopened_node (hk : k.isLoose = true) (h : ∀ e ∈ es, e.Unopened k) (j : SyntaxKind) :
    (node k es).Unopened j :=
  ⟨shaped_of_unopened hk h, by rw [opensAtColon_node, frontOpensAtColon_of_forall fun e he => (h e he).2]⟩

/-- A node of such elements is plain if it does not end with a colon. -/
theorem plain_of_unopened (hk : k.isLoose = true) (h : ∀ e ∈ es, e.Unopened k)
    (hback : backEndsAtColon k es = false) : (node k es).Plain :=
  ⟨⟨shaped_of_unopened hk h, fun _ => by rw [endsAtColon_node, hback]⟩,
    fun _ => (unopened_node hk h _).2⟩

/-- One node that is plain and not empty of leaves. -/
def IsPhrase (es : List Element) : Prop :=
  ∃ k cs, es = [.node k cs] ∧ (node k cs).Plain ∧ leavesAll cs ≠ []

theorem IsPhrase.plain (h : IsPhrase es) : ∀ e ∈ es, e.Plain := by
  obtain ⟨k, cs, rfl, hplain, -⟩ := h
  simpa using hplain

theorem IsPhrase.bare (h : IsPhrase es) (j : SyntaxKind) : ∀ e ∈ es, e.Bare j := by
  obtain ⟨k, cs, rfl, hplain, -⟩ := h
  simpa using hplain.bare_of_node j

theorem IsPhrase.leavesAll_ne_nil (h : IsPhrase es) : leavesAll es ≠ [] := by
  obtain ⟨k, cs, rfl, -, hleaves⟩ := h
  simpa using hleaves

end Element

namespace Grammar

variable {g h : Grammar} {P Q : List Element → Prop} {R S : Element → Prop} {k : SyntaxKind}

/-! ### Grammars that build elements of a kind -/

/-- Whatever a grammar builds has the property. -/
def Builds (P : List Element → Prop) (g : Grammar) : Prop :=
  ∀ ⦃s es s'⦄, g.run s = .ok (es, s') → P es

/-- Every element that a grammar builds has the property. -/
abbrev Each (R : Element → Prop) : Grammar → Prop := Builds fun es => ∀ e ∈ es, R e

/-- A grammar that builds one node which is plain and not empty of leaves. -/
abbrev Phrase : Grammar → Prop := Builds Element.IsPhrase

/-- A grammar that builds something which is not empty of leaves. -/
abbrev Leafy : Grammar → Prop := Builds fun es => Element.leavesAll es ≠ []

namespace Builds

theorem imp (hg : Builds P g) (himp : ∀ es, P es → Q es) : Builds Q g :=
  fun _ _ _ hrun => himp _ (hg hrun)

theorem both (hg : Builds P g) (hg' : Builds Q g) : Builds (fun es => P es ∧ Q es) g :=
  fun _ _ _ hrun => ⟨hg hrun, hg' hrun⟩

theorem fail (e : Input → ParseError) : Builds P (fail e) := fun _ _ _ hrun => by cases hrun

theorem expected (what : String) : Builds P (Grammar.expected what) := fail _

theorem emit {es : List Element} (hes : P es) : Builds P (Grammar.emit es) :=
  fun _ _ _ hrun => by cases hrun; exact hes

theorem peek {f : Input → Grammar} (hf : ∀ s, Builds P (f s)) : Builds P (Grammar.peek f) :=
  fun s _ _ hrun => hf s hrun

theorem ite {p : Prop} [Decidable p] (hg : Builds P g) (hh : Builds P h) :
    Builds P (if p then g else h) := by
  split
  · exact hg
  · exact hh

theorem append {T : List Element → Prop} (hg : Builds P g) (hh : Builds Q h)
    (hjoin : ∀ es fs, P es → Q fs → T (es ++ fs)) : Builds T (g ++ h) := by
  intro s es s' hrun
  obtain ⟨fs, gs, t, hfs, hgs, rfl⟩ := run_append hrun
  exact hjoin fs gs (hg hfs) (hh hgs)

theorem capture {f : List Element → Grammar} (hg : Builds P g) (hf : ∀ es, P es → Builds Q (f es)) :
    Builds Q (Grammar.capture g f) := by
  intro s es s' hrun
  obtain ⟨fs, t, hfs, hes⟩ := run_capture hrun
  exact hf fs (hg hfs) hes

theorem node (hg : Builds P g) (hnode : ∀ es, P es → Q [.node k es]) :
    Builds Q (Grammar.node k g) :=
  capture hg fun es hes => emit (hnode es hes)

/-- A token that is read has the kind that was looked at. -/
theorem takeAs : Builds (fun es => ∃ t : Token, es = [.token t] ∧ t.kind = k) (Grammar.takeAs k) := by
  intro s es s' hrun
  obtain ⟨t, rest, -, rfl, -⟩ := run_takeAs hrun
  exact ⟨_, rfl, rfl⟩

theorem take : Builds (fun es => ∃ t : Token, es = [.token t]) Grammar.take :=
  peek fun _ => takeAs.imp fun _ ⟨t, hes, _⟩ => ⟨t, hes⟩

/-- A token that is read where a test holds has the kind of the token there. -/
theorem takeIf {test : Input → Bool}
    (htake : ∀ s (t : Token), test s = true → t.kind = s.kind → P [.token t]) (hh : Builds P h) :
    Builds P (Grammar.peek fun s => if test s then Grammar.take else h) := by
  intro s es s' hrun
  change (if test s then Grammar.take else h).run s = _ at hrun
  split at hrun
  · rename_i hs
    obtain ⟨t, rest, -, rfl, -⟩ := run_takeAs (s := s) (k := s.kind) hrun
    exact htake s _ hs rfl
  · exact hh hrun

theorem expect (what : String) :
    Builds (fun es => ∃ t : Token, es = [.token t] ∧ t.kind = k) (Grammar.expect k what) :=
  takeIf (fun _ t hat hkind => ⟨t, rfl, hkind.trans (eq_of_beq hat)⟩) (expected what)

theorem onlyIf (test : Input → Bool) (hg : Builds P g) (hnil : P []) :
    Builds P (Grammar.onlyIf test g) :=
  peek fun _ => ite hg (emit hnil)

theorem splitRightAngle : Builds (fun es => es = []) Grammar.splitRightAngle :=
  fun _ _ _ hrun => by cases hrun; rfl

end Builds

/-- Whatever a grammar builds from one input has the property. -/
def BuildsAt (s : Input) (P : List Element → Prop) (g : Grammar) : Prop :=
  ∀ ⦃es s'⦄, g.run s = .ok (es, s') → P es

namespace BuildsAt

variable {s : Input}

theorem take :
    BuildsAt s (fun es => ∃ t : Token, es = [.token t] ∧ t.kind = s.kind) Grammar.take := by
  intro es s' hrun
  obtain ⟨t, rest, -, rfl, -⟩ := run_takeAs (s := s) (k := s.kind) hrun
  exact ⟨_, rfl, rfl⟩

theorem both (hg : BuildsAt s P g) (hg' : BuildsAt s Q g) : BuildsAt s (fun es => P es ∧ Q es) g :=
  fun _ _ hrun => ⟨hg hrun, hg' hrun⟩

theorem append {T : List Element → Prop} (hg : BuildsAt s P g) (hh : Builds Q h)
    (hjoin : ∀ es fs, P es → Q fs → T (es ++ fs)) : BuildsAt s T (g ++ h) := by
  intro es s' hrun
  obtain ⟨fs, gs, t, hfs, hgs, rfl⟩ := run_append hrun
  exact hjoin fs gs (hg hfs) (hh hgs)

theorem capture {f : List Element → Grammar} (hg : BuildsAt s P g)
    (hf : ∀ es, P es → Builds Q (f es)) : BuildsAt s Q (Grammar.capture g f) := by
  intro es s' hrun
  obtain ⟨fs, t, hfs, hes⟩ := run_capture hrun
  exact hf fs (hg hfs) hes

theorem node (hg : BuildsAt s P g) (hnode : ∀ es, P es → Q [.node k es]) :
    BuildsAt s Q (Grammar.node k g) :=
  capture hg fun es hes => Builds.emit (hnode es hes)

end BuildsAt

/-- What a grammar builds from every input it builds from each. -/
theorem Builds.builtAt (hg : Builds P g) (s : Input) : BuildsAt s P g := fun _ _ hrun => hg hrun

/-- A grammar that looks at its input may be followed from there. -/
theorem Builds.peekAt {f : Input → Grammar} (hf : ∀ s, BuildsAt s P (f s)) :
    Builds P (Grammar.peek f) :=
  fun s _ _ hrun => hf s hrun

namespace Each

theorem nothing : Each R Grammar.nothing := Builds.emit fun _ he => absurd he List.not_mem_nil

theorem append (hg : Each R g) (hh : Each R h) : Each R (g ++ h) :=
  Builds.append hg hh fun _ _ hes hfs => List.forall_mem_append.mpr ⟨hes, hfs⟩

theorem take (htoken : ∀ t : Token, R (.token t)) : Each R Grammar.take :=
  Builds.take.imp fun _ ⟨t, hes⟩ => by rw [hes, List.forall_mem_singleton]; exact htoken t

theorem takeAs (htoken : ∀ t : Token, t.kind = k → R (.token t)) : Each R (Grammar.takeAs k) :=
  Builds.takeAs.imp fun _ ⟨t, hes, hkind⟩ => by
    rw [hes, List.forall_mem_singleton]
    exact htoken t hkind

theorem takeN (htoken : ∀ t : Token, R (.token t)) (n : Nat) : Each R (Grammar.takeN n) := by
  induction n with
  | zero => exact nothing
  | succ n ih => exact append (take htoken) ih

theorem expect (htoken : ∀ t : Token, t.kind = k → R (.token t)) (what : String) :
    Each R (Grammar.expect k what) :=
  (Builds.expect what).imp fun _ ⟨t, hes, hkind⟩ => by
    rw [hes, List.forall_mem_singleton]
    exact htoken t hkind

theorem onlyIf (test : Input → Bool) (hg : Each R g) : Each R (Grammar.onlyIf test g) :=
  Builds.onlyIf test hg fun _ he => absurd he List.not_mem_nil

theorem whenAt (j : SyntaxKind) (hg : Each R g) : Each R (Grammar.whenAt j g) := onlyIf _ hg

theorem whenAtAny (ks : List SyntaxKind) (hg : Each R g) : Each R (Grammar.whenAtAny ks g) :=
  onlyIf _ hg

theorem splitRightAngle : Each R Grammar.splitRightAngle :=
  Builds.splitRightAngle.imp fun es hes => by rw [hes]; exact fun e he => absurd he List.not_mem_nil

theorem takeIf {test : Input → Bool}
    (htoken : ∀ s (t : Token), test s = true → t.kind = s.kind → R (.token t)) (hh : Each R h) :
    Each R (Grammar.peek fun s => if test s then Grammar.take else h) :=
  Builds.takeIf (fun s t hs hkind => List.forall_mem_singleton.mpr (htoken s t hs hkind)) hh

theorem repeated {next : Input → Option Grammar} (hnext : ∀ s, ∀ g ∈ next s, Each R g)
    (bound : Nat) : Each R (Grammar.repeated next bound) := by
  induction bound with
  | zero => exact Builds.fail _
  | succ bound ih =>
    refine Builds.peek fun s => ?_
    split
    · exact nothing
    · rename_i g hg
      exact append (hnext s g hg) ih

/-- The items of a list make nodes, with or without the comma behind them. -/
theorem commaList {item first : Grammar} (hitem : Builds P item) (hfirst : Builds P first)
    (hnode : ∀ es, P es → R (.node k es))
    (hcomma : ∀ es (t : Token), P es → t.kind = .comma → R (.node k (es ++ [.token t])))
    (stop : Input → Bool) (bound : Nat) : Each R (Grammar.commaList k stop item bound first) := by
  induction bound generalizing first with
  | zero => exact Builds.fail _
  | succ bound ih =>
    refine Builds.capture hfirst fun es hes => ?_
    intro s fs s' hrun
    change (if s.isAt .comma then _ else _ : Grammar).run s = _ at hrun
    split at hrun
    · rename_i hat
      obtain ⟨gs, hs, t, hgs, hrest, rfl⟩ := run_append hrun
      refine List.forall_mem_append.mpr ⟨?_, ?_⟩
      · obtain ⟨cs, u, hcs, hemit⟩ := run_capture hgs
        cases hemit
        obtain ⟨ts, hts, rfl⟩ := run_emit_append hcs
        obtain ⟨t, rest, -, rfl, -⟩ := run_takeAs (s := s) (k := s.kind) hts
        rw [List.forall_mem_singleton]
        exact hcomma es _ hes (eq_of_beq hat)
      · exact (Builds.peek fun _ => Builds.ite nothing (ih hitem)) hrest
    · have hlast : Each R (Grammar.node k (emit es)) :=
        Builds.node (Builds.emit hes) fun cs hcs => by
          rw [List.forall_mem_singleton]
          exact hnode cs hcs
      exact hlast hrun

theorem commaSeparated {item : Grammar} (hitem : Builds P item)
    (hnode : ∀ es, P es → R (.node k es))
    (hcomma : ∀ es (t : Token), P es → t.kind = .comma → R (.node k (es ++ [.token t])))
    (bound : Nat) : Each R (Grammar.commaSeparated k bound item) :=
  commaList hitem hitem hnode hcomma _ bound

theorem commaSeparatedUntil {item : Grammar} (close : SyntaxKind) (hitem : Builds P item)
    (hnode : ∀ es, P es → R (.node k es))
    (hcomma : ∀ es (t : Token), P es → t.kind = .comma → R (.node k (es ++ [.token t])))
    (bound : Nat) : Each R (Grammar.commaSeparatedUntil close k bound item) :=
  onlyIf _ (commaList hitem hitem hnode hcomma _ bound)

end Each

namespace Leafy

theorem append_left (hg : Leafy g) : Leafy (g ++ h) :=
  Builds.append (Q := fun _ => True) hg (fun _ _ _ _ => trivial) fun es fs hes _ hnil => by
    rw [Element.leavesAll_append, List.append_eq_nil_iff] at hnil
    exact hes hnil.1

theorem append_right (hh : Leafy h) : Leafy (g ++ h) :=
  Builds.append (P := fun _ => True) (fun _ _ _ _ => trivial) hh fun es fs _ hfs hnil => by
    rw [Element.leavesAll_append, List.append_eq_nil_iff] at hnil
    exact hfs hnil.2

theorem take : Leafy Grammar.take :=
  Builds.take.imp fun _ ⟨t, hes⟩ => by simp [hes]

theorem takeAs : Leafy (Grammar.takeAs k) :=
  Builds.takeAs.imp fun _ ⟨t, hes, _⟩ => by simp [hes]

theorem expect (what : String) : Leafy (Grammar.expect k what) :=
  (Builds.expect what).imp fun _ ⟨t, hes, _⟩ => by simp [hes]

/-- A list starts with its first item. -/
theorem commaList {item first : Grammar} (hfirst : Leafy first) (stop : Input → Bool) (bound : Nat) :
    Leafy (Grammar.commaList k stop item bound first) := by
  cases bound with
  | zero => exact Builds.fail _
  | succ bound =>
    refine Builds.capture hfirst fun es hes => Builds.peek fun s => Builds.ite (append_left ?_) ?_
    · exact Builds.node (append_left (Builds.emit hes)) fun fs hfs => by simpa using hfs
    · exact Builds.node (Builds.emit hes) fun fs hfs => by simpa using hfs

end Leafy

/-- A grammar that does not end with a colon in a node of kind `k`. -/
abbrev Closing (k : SyntaxKind) : Grammar → Prop := Builds fun es => Element.backEndsAtColon k es = false

namespace Closing

/-- What ends with no colon may follow. -/
theorem append (hg : Closing k g) (hh : Each (Element.Bare k) h) : Closing k (g ++ h) :=
  Builds.append hg hh fun _ _ => Element.backEndsAtColon_append_of_bare

theorem of_bare (hg : Each (Element.Bare k) g) : Closing k g :=
  hg.imp fun _ hes => Element.backEndsAtColon_of_forall fun e he => (hes e he).endsAtColon

/-- What is not empty of leaves decides whatever it follows. -/
theorem behind (hh : Closing k h) (hleafy : Leafy h) : Closing k (g ++ h) :=
  Builds.append (P := fun _ => True) (fun _ _ _ _ => trivial) (Builds.both hh hleafy)
    fun _ _ _ hfs => (Element.backEndsAtColon_append hfs.2).trans hfs.1

/-- What may be left out and is not empty of leaves otherwise. -/
theorem onlyIf (hg : Each (Element.Bare k) g) (hh : Closing k h) (hleafy : Leafy h)
    (test : Input → Bool) : Closing k (g ++ Grammar.onlyIf test h) := by
  refine Builds.append hg (Builds.onlyIf test
    ((Builds.both hh hleafy).imp fun fs (hfs : _ ∧ _) => (.inr hfs : fs = [] ∨ _)) (.inl rfl))
    fun es fs hes hfs => ?_
  rcases hfs with rfl | ⟨hback, hleaves⟩
  · rw [List.append_nil, Element.backEndsAtColon_of_forall fun e he => (hes e he).endsAtColon]
  · rw [Element.backEndsAtColon_append hleaves, hback]

theorem of_hosted (hk : k.isTwoSided = false) (hg : Builds (Element.Hosted k) g) : Closing k g :=
  hg.imp fun _ hes => Element.backEndsAtColon_of_closed hk hes.closed

end Closing

namespace Phrase

theorem plain (hg : Phrase g) : Each Element.Plain g := Builds.imp hg fun _ => Element.IsPhrase.plain

theorem bare (hg : Phrase g) (j : SyntaxKind) : Each (Element.Bare j) g :=
  Builds.imp hg fun _ hes => hes.bare j

theorem leafy (hg : Phrase g) : Leafy g := Builds.imp hg fun _ => Element.IsPhrase.leavesAll_ne_nil

/-- A node of plain elements that is not empty of leaves. -/
theorem node (hk : k.isLoose = true) (hg : Each Element.Plain g) (hleafy : Leafy g) :
    Phrase (Grammar.node k g) :=
  Builds.node (Builds.both hg hleafy) fun es hes => ⟨k, es, rfl, Element.plain_node hk hes.1, hes.2⟩

/-- A node with at most one child that starts with a colon, behind the first leaf, and none that ends
with one. -/
theorem node_of_hosted (hg : Builds (Element.Hosted k) g) (hclosing : Closing k g) (hleafy : Leafy g)
    (hk : k.hasForm = false) : Phrase (Grammar.node k g) :=
  Builds.node (Builds.both hg (Builds.both hclosing hleafy)) fun es hes =>
    ⟨k, es, rfl, hes.1.plain hk hes.2.1, hes.2.2⟩

/-- A node of elements of which only those in front may end with a colon. -/
theorem node_of_unopened (hk : k.isLoose = true) (hg : Each (Element.Unopened k) g)
    (hclosing : Closing k g) (hleafy : Leafy g) : Phrase (Grammar.node k g) :=
  Builds.node (Builds.both hg (Builds.both hclosing hleafy)) fun es hes =>
    ⟨k, es, rfl, Element.plain_of_unopened hk hes.1 hes.2.1, hes.2.2⟩

/-- What is built behind a plain element makes up a plain node with it. -/
abbrev Extends (k : SyntaxKind) : Grammar → Prop :=
  Builds fun fs => ∀ e : Element, e.Plain → (Element.node k (e :: fs)).Plain

theorem extends_of_plain (hk : k.isLoose = true)
    (hg : Each Element.Plain g) : Extends k g :=
  Builds.imp hg fun _ hfs _ he => Element.plain_node hk (List.forall_mem_cons.mpr ⟨he, hfs⟩)

/-- Elements of which only those in front may end with a colon make up a plain node with a plain one. -/
theorem extends_of_unopened (hk : k.isLoose = true) (hhost : k.isColonHost = false)
    (hg : Each (Element.Unopened k) g) (hclosing : Closing k g) (hleafy : Leafy g) : Extends k g :=
  Builds.imp (Builds.both hg (Builds.both hclosing hleafy)) fun fs hfs e he => by
    refine Element.plain_of_unopened hk (List.forall_mem_cons.mpr ⟨he.unopened hhost, hfs.1⟩) ?_
    rw [← List.singleton_append, Element.backEndsAtColon_append hfs.2.2, hfs.2.1]

theorem suffixes {next : Input → Element → Option (SyntaxKind × Grammar)}
    (hnext : ∀ s e, ∀ p ∈ next s e, Extends p.1 p.2) (bound : Nat)
    {e : Element} (he : Element.IsPhrase [e]) : Phrase (Grammar.suffixes next bound e) := by
  induction bound generalizing e with
  | zero => exact Builds.fail _
  | succ bound ih =>
    refine Builds.peek fun s => ?_
    split
    · exact Builds.emit he
    · rename_i k g hg
      refine Builds.capture (hnext s e (k, g) hg) fun es hes => ih ⟨k, e :: es, rfl, ?_, ?_⟩
      · exact hes e (he.plain e List.mem_cons_self)
      · have hleaves := he.leavesAll_ne_nil
        simp only [Element.leavesAll_cons, Element.leavesAll_nil, List.append_nil] at hleaves
        simp [hleaves]

theorem withSuffixes {next : Input → Element → Option (SyntaxKind × Grammar)} (hg : Phrase g)
    (bound : Nat) (hnext : ∀ s e, ∀ p ∈ next s e, Extends p.1 p.2) :
    Phrase (Grammar.withSuffixes g bound next) := by
  refine Builds.capture hg fun es hes => ?_
  obtain ⟨k, cs, rfl, hplain, hleaves⟩ := hes
  exact suffixes hnext bound ⟨k, cs, rfl, hplain, hleaves⟩

/-- A phrase alone, or one with plain elements behind it in a node. -/
theorem nodeUnlessSingle (hk : k.isLoose = true) (hg : Phrase g) (hh : Each Element.Plain h) :
    Phrase (Grammar.nodeUnlessSingle k (g ++ h)) := by
  have hall : Builds (fun es => ∃ fs gs, es = fs ++ gs ∧ Element.IsPhrase fs ∧
      ∀ e ∈ gs, e.Plain) (g ++ h) :=
    Builds.append hg hh fun fs gs hfs hgs => ⟨fs, gs, rfl, hfs, hgs⟩
  refine Builds.capture hall fun es hes => ?_
  obtain ⟨fs, gs, rfl, hfs, hgs⟩ := hes
  have hplain := List.forall_mem_append.mpr ⟨hfs.plain, hgs⟩
  have hleaves : Element.leavesAll (fs ++ gs) ≠ [] := by
    intro hnil
    rw [Element.leavesAll_append, List.append_eq_nil_iff] at hnil
    exact hfs.leavesAll_ne_nil hnil.1
  split
  · rename_i e hsingle
    -- the phrase is the single element
    obtain ⟨k, cs, rfl, hcs⟩ := hfs
    rw [List.singleton_append, List.cons.injEq] at hsingle
    rw [← hsingle.1]
    exact Builds.emit ⟨k, cs, rfl, hcs⟩
  · exact Builds.emit ⟨k, _, rfl, Element.plain_node hk hplain, hleaves⟩

end Phrase

/-! ### Nodes with one colon -/

namespace Hosted

open Element

theorem of_bare (hg : Each (Bare k) g) : Builds (Element.Hosted k) g :=
  Builds.imp hg fun _ => Element.Hosted.of_bare

theorem append (hg : Builds (Element.Hosted k) g) (hh : Each (Bare k) h) :
    Builds (Element.Hosted k) (g ++ h) :=
  Builds.append hg hh fun _ _ hes hfs => hes.append hfs

/-- Something that is not empty of leaves and starts with no colon, and then at most one element
that may start with one. -/
theorem behind (hg : Each (Bare k) g) (hleafy : Leafy g)
    (hh : Builds (OneColon k) h) : Builds (Element.Hosted k) (g ++ h) :=
  Builds.append (Builds.both hg hleafy) hh fun _ _ hes hfs =>
    Element.Hosted.behind hes.1 hes.2 hfs

end Hosted

end Grammar

end SwiftTidy
