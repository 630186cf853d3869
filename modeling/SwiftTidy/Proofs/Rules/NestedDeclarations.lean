import SwiftTidy.Proofs.Lint.Reports
import SwiftTidy.Proofs.Parse.Lexemes
import SwiftTidy.Proofs.Parse.Phrases
import SwiftTidy.Proofs.Tree.Traversal
import SwiftTidy.Rules.Nesting

/-!
# Nested declarations are told by what is around them

The walk keeps the levels of the open declarations on a stack, and does not look below closures and
the statements of bodies when it is told so.  Wherever it gets to, the stack holds the levels of the
declarations around the place, the innermost first, and behind a place it is what it was in front of
it, though a type alias is opened and closed only when it is left (`found_of_traverses`).  So what is
found at a place is a matter of the places above it (`report?`).

In a parsed file a declaration has its keyword behind its attributes and modifiers
(`exists_keyword`), so it is reported at this keyword, and no two declarations at one position.
`validate_eq_tooDeep` puts it together.
-/

namespace SwiftTidy

namespace Nesting

variable {o : Options} {c decl : Cursor} {level : Level} {v : Violation}

/-! ### What is too deep -/

/-- The levels that some places open. -/
def levels (cs : List Cursor) : List Level := cs.filterMap fun c => Level.ofKind? c.kind

/-- The level that a declaration is counted at: type aliases count as types unless they are
ignored. -/
def level? (o : Options) (k : SyntaxKind) : Option Level :=
  if k == .typeAliasDecl && !o.ignoreTypealiases then some .type else Level.ofKind? k

/-- Whether a place is looked at: closures and the statements in bodies of statements hide what is
below them, unless nesting is checked there too. -/
def IsReached (o : Options) (c : Cursor) : Prop :=
  o.checkInClosuresAndStatements = true ∨
    ∀ a ∈ c.ancestors, a.kind ≠ .closureExpr ∧
      ¬ (a.kind = .codeBlockItem ∧ ∃ b ∈ a.ancestors, b.kind ∈ statements)

/-- The first child of a declaration behind its attributes and modifiers. -/
def keyword? (decl : Cursor) : Option Cursor := decl.children.find? fun c => !c.kind.isModifier

/-- The violation of a declaration that is nested too deep: it is looked at, there are more
declarations of its level around it than a limit allows, and it is not a type in a function that is
always allowed.  It is reported at its keyword. -/
def IsTooDeep (o : Options) (decl : Cursor) (v : Violation) : Prop :=
  ∃ level severity limit keyword,
    level? o decl.kind = some level ∧ IsReached o decl ∧
    (o.limits level).exceededBy (decl.ancestors.countP (Level.ofKind? ·.kind == some level)) =
      some (severity, limit) ∧
    ¬ (o.alwaysAllowOneTypeInFunctions = true ∧ level = .type ∧
      decl.ancestors.findSome? (Level.ofKind? ·.kind) = some .function) ∧
    keyword? decl = some keyword ∧ decl.kind.declKeyword? = some keyword.kind ∧
    v = ⟨keyword.position, some (message level limit), some severity⟩

/-! ### Levels and kinds -/

theorem levels_cons (c : Cursor) (cs : List Cursor) :
    levels (c :: cs) = (Level.ofKind? c.kind).toList ++ levels cs := by
  rw [levels, List.filterMap_cons]
  cases Level.ofKind? c.kind <;> rfl

/-- What is counted has a keyword. -/
theorem declKeyword?_of_level? {k : SyntaxKind} (h : level? o k = some level) :
    k.isToken = false ∧ ∃ j, k.declKeyword? = some j ∧ keywords.contains j = true ∧
      j.isToken = true := by
  have hkind : k = .typeAliasDecl ∨ k = .functionDecl ∨ k.isTypeDecl = true := by
    unfold level? Level.ofKind? at h
    split at h
    · rename_i halias
      exact .inl (eq_of_beq (Bool.and_eq_true_iff.mp halias).1)
    · split at h
      · rename_i hfunction
        exact .inr (.inl (eq_of_beq hfunction))
      · split at h
        · rename_i htype
          exact .inr (.inr htype)
        · cases h
  rcases hkind with rfl | rfl | htype
  · exact ⟨rfl, _, rfl, rfl, rfl⟩
  · exact ⟨rfl, _, rfl, rfl, rfl⟩
  · unfold SyntaxKind.isTypeDecl at htype
    split at htype
    any_goals exact ⟨rfl, _, rfl, rfl, rfl⟩
    cases htype

/-- Attributes and modifiers are no keywords. -/
theorem contains_of_isModifier {k : SyntaxKind} (h : k.isModifier = true) :
    keywords.contains k = false := by
  rw [SyntaxKind.isModifier, Bool.or_eq_true, beq_iff_eq, beq_iff_eq] at h
  rcases h with rfl | rfl <;> rfl

/-- A declaration that opens a level hides nothing. -/
theorem isVisited_of_ofKind? (h : Level.ofKind? c.kind = some level) : isVisited o c = true := by
  have hclosure : c.kind ≠ .closureExpr := fun hkind => by rw [hkind] at h; cases h
  have hitem : c.kind ≠ .codeBlockItem := fun hkind => by rw [hkind] at h; cases h
  rw [isVisited, beq_false_of_ne hclosure, beq_false_of_ne hitem, Bool.false_and, Bool.or_false,
    Bool.not_false, Bool.or_true]

/-- What hides what is below it is not counted itself. -/
theorem level?_of_isVisited (h : isVisited o c = false) :
    level? o c.kind = none ∧ (c.kind == .typeAliasDecl) = false := by
  rw [isVisited, Bool.or_eq_false_iff, Bool.not_eq_false', Bool.or_eq_true, Bool.and_eq_true,
    beq_iff_eq, beq_iff_eq] at h
  rcases h.2 with hkind | ⟨hkind, -⟩ <;> rw [hkind] <;> exact ⟨rfl, rfl⟩

theorem all_isVisited_iff : c.ancestors.all (isVisited o) = true ↔ IsReached o c := by
  rw [List.all_eq_true, IsReached]
  cases hchecked : o.checkInClosuresAndStatements with
  | true => simp [isVisited, hchecked]
  | false => simp [isVisited, hchecked, Cursor.hasAncestor, imp_iff_not_or]

/-! ### What is found -/

/-- What the walk finds at a place. -/
def report? (o : Options) (c : Cursor) : Option Violation :=
  if c.ancestors.all (isVisited o) then
    (level? o c.kind).bind fun level =>
      violation? o level ((levels c.ancestors).count level)
        ((levels c.ancestors).head? == some .function) c
  else none

/-- Nothing is found at a token. -/
theorem report?_of_isToken (h : c.isToken = true) : report? o c = none := by
  have hlevel : level? o c.kind = none := by
    cases hlevel : level? o c.kind with
    | none => rfl
    | some level =>
      rw [Cursor.isToken, (declKeyword?_of_level? hlevel).1] at h
      cases h
  rw [report?, hlevel, Option.bind_none, ite_self]

/-- Nothing is found below a place that hides it. -/
theorem filterMap_report?_of_isVisited (h : isVisited o c = false) :
    c.descendants.filterMap (report? o) = [] := by
  have hbelow : ∀ x ∈ c.children.flatMap Cursor.descendants, report? o x = none := by
    intro x hx
    obtain ⟨y, hy, hxy⟩ := List.mem_flatMap.mp hx
    obtain ⟨front, e, back, -, rfl⟩ := Cursor.exists_of_mem_children hy
    have habove : c ∈ x.ancestors :=
      Cursor.mem_ancestors_of_child (Cursor.mem_ancestors_of_mem_descendantsOf hxy)
    refine if_neg fun hall => ?_
    rw [List.all_eq_true.mp hall c habove] at h
    cases h
  have hhere : report? o c = none := by
    rw [report?, (level?_of_isVisited h).1, Option.bind_none, ite_self]
  rw [Cursor.descendants_eq, List.filterMap_cons_none hhere, List.filterMap_eq_nil_iff]
  exact hbelow

/-- A place at which a walk turns back hides what is below it, and changes nothing. -/
theorem enter_eq_false {s s₁ : State} (h : (visitor o).enter c s = (false, s₁)) :
    isVisited o c = false ∧ (visitor o).leave c s₁ = s := by
  cases hlevel : Level.ofKind? c.kind with
  | some level =>
    simp only [visitor, hlevel] at h
    cases h
  | none =>
    simp only [visitor, hlevel, Prod.mk.injEq] at h
    obtain ⟨hhidden, rfl⟩ := h
    refine ⟨hhidden, ?_⟩
    simp only [visitor, hlevel, (level?_of_isVisited hhidden).2, Bool.false_and,
      Bool.false_eq_true, if_false]

/-- Where the stack holds the levels around a place, it holds them with its own level when the walk
goes on below it, and again when the place is left.  What is found at the place is found when it is
entered or when it is left. -/
theorem enter_eq_true {s s₁ : State} (h : (visitor o).enter c s = (true, s₁))
    (hvisited : ∀ a ∈ c.ancestors, isVisited o a = true) (hstack : s.stack = levels c.ancestors) :
    isVisited o c = true ∧ s₁.stack = levels (c :: c.ancestors) ∧
    ∃ early late, early ++ late = (report? o c).toList ∧ s₁.found = s.found ++ early ∧
      ∀ s₂ : State, s₂.stack = s₁.stack → (visitor o).leave c s₂ = ⟨s.stack, s₂.found ++ late⟩ := by
  have hreport : report? o c = (level? o c.kind).bind fun level =>
      violation? o level (s.stack.count level) (s.stack.head? == some .function) c := by
    rw [report?, if_pos (List.all_eq_true.mpr hvisited), hstack]
  cases hlevel : Level.ofKind? c.kind with
  | some level =>
    have hcounted : level? o c.kind = some level := by
      have halias : c.kind ≠ .typeAliasDecl := fun hkind => by rw [hkind] at hlevel; cases hlevel
      rw [level?, beq_false_of_ne halias, Bool.false_and, if_neg Bool.false_ne_true, hlevel]
    simp only [visitor, hlevel] at h
    cases h
    refine ⟨isVisited_of_ofKind? hlevel, ?_, _, [], ?_, rfl, fun s₂ hs₂ => ?_⟩
    · rw [levels_cons, hlevel, State.open, hstack]
      rfl
    · rw [hreport, hcounted, Option.bind_some, List.append_nil]
    · simp only [visitor, hlevel, State.close, hs₂, State.open, List.tail_cons, List.append_nil]
  | none =>
    simp only [visitor, hlevel, Prod.mk.injEq] at h
    obtain ⟨hhere, rfl⟩ := h
    refine ⟨hhere, by rw [levels_cons, hlevel, hstack]; rfl, [], ?_⟩
    cases halias : c.kind == .typeAliasDecl && !o.ignoreTypealiases with
    | true =>
      -- a type alias is looked at when it is left
      have hcounted : level? o c.kind = some .type := by rw [level?, if_pos halias]
      refine ⟨(violation? o .type (s.stack.count .type) (s.stack.head? == some .function) c).toList,
        ?_, (List.append_nil _).symm, fun s₂ hs₂ => ?_⟩
      · rw [hreport, hcounted, Option.bind_some, List.nil_append]
      · simp only [visitor, hlevel, halias, if_true, State.close, State.open, List.tail_cons, hs₂]
    | false =>
      have hcounted : level? o c.kind = none := by
        rw [level?, halias, if_neg Bool.false_ne_true, hlevel]
      refine ⟨[], ?_, (List.append_nil _).symm, fun s₂ hs₂ => ?_⟩
      · rw [hreport, hcounted]
        rfl
      · simp only [visitor, hlevel, halias, Bool.false_eq_true, if_false, ← hs₂, List.append_nil]

/-- **The state of the walk**: where the stack holds the levels of the declarations around some
places, it does so again behind them, and what was found there is what their surroundings tell. -/
theorem found_of_traverses {cs opened : List Cursor} {s s' : State} {calls : List Visitor.Call}
    (h : (visitor o).Traverses cs s calls s') (hkinded : ∀ c ∈ cs, c.element.WellKinded)
    (hcs : ∀ c ∈ cs, c.ancestors = opened) (hopened : ∀ a ∈ opened, isVisited o a = true)
    (hstack : s.stack = levels opened) :
    s'.stack = s.stack ∧ ∃ new, s'.found = s.found ++ new ∧
      new.Perm ((cs.flatMap Cursor.descendants).filterMap (report? o)) := by
  induction h generalizing opened with
  | nil s => exact ⟨rfl, [], (List.append_nil _).symm, .nil⟩
  | @token c cs s s' calls hc hafter ih =>
    obtain ⟨hhere, hkinded⟩ := List.forall_mem_cons.mp hkinded
    have hleaf : c.descendants = [c] := by
      rw [Cursor.descendants_eq, Cursor.children_eq_nil hhere hc, List.flatMap_nil]
    rw [List.flatMap_cons, hleaf, List.singleton_append,
      List.filterMap_cons_none (report?_of_isToken hc)]
    exact ih hkinded (List.forall_mem_cons.mp hcs).2 hopened hstack
  | @skip c cs s s₁ s' calls hc henter hafter ih =>
    obtain ⟨hhidden, hleave⟩ := enter_eq_false henter
    rw [hleave] at ih
    rw [List.flatMap_cons, List.filterMap_append, filterMap_report?_of_isVisited hhidden,
      List.nil_append]
    exact ih (List.forall_mem_cons.mp hkinded).2 (List.forall_mem_cons.mp hcs).2 hopened hstack
  | @node c cs s s₁ s₂ s' inner calls hc henter hinner hafter ihinner ih =>
    obtain ⟨hhere, hkinded⟩ := List.forall_mem_cons.mp hkinded
    obtain ⟨habove, hcs⟩ := List.forall_mem_cons.mp hcs
    -- a report is made on entering a place or on leaving it, with its children in between
    obtain ⟨hvisited, hopen, early, late, hreport, hfound, hleave⟩ :=
      enter_eq_true henter (habove ▸ hopened) (by rw [hstack, habove])
    rw [habove] at hopen
    obtain ⟨hstack₂, inside, hfound₂, hinside⟩ := ihinner
      (fun x hx => Cursor.wellKinded_of_mem_children hhere hx)
      (fun x hx => by rw [Cursor.ancestors_of_mem_children hx, habove])
      (List.forall_mem_cons.mpr ⟨hvisited, hopened⟩) hopen
    rw [hleave s₂ hstack₂] at ih
    obtain ⟨hstack', behind, hfound', hbehind⟩ := ih hkinded hcs hopened hstack
    refine ⟨hstack', early ++ (inside ++ late) ++ behind, ?_, ?_⟩
    · rw [hfound', hfound₂, hfound]
      simp only [List.append_assoc]
    · -- so the findings are those of the enumeration, in another order
      have hsplit : c.descendants.filterMap (report? o) = early ++ (late ++
          (c.children.flatMap Cursor.descendants).filterMap (report? o)) := by
        rw [← List.append_assoc, hreport, Cursor.descendants_eq, List.filterMap_cons]
        cases report? o c <;> rfl
      rw [List.flatMap_cons, List.filterMap_append, hsplit]
      exact ((List.perm_append_comm.trans (hinside.append_left late)).append_left early).append hbehind

/-! ### Where it is reported -/

section Parsed

variable {source : String} {tree : Element}

/-- What is counted has its keyword behind its attributes and modifiers, and is reported there. -/
theorem exists_keyword (hparse : parse source = .ok tree)
    (hdecl : decl ∈ (Cursor.root tree).descendants) (h : level? o decl.kind = some level) :
    ∃ keyword, keyword? decl = some keyword ∧ decl.kind.declKeyword? = some keyword.kind ∧
      keyword ∈ (Cursor.root tree).tokens ∧ keyword.parent? = some decl ∧
      position decl = keyword.position := by
  obtain ⟨hnode, j, hj, hcounted, htoken⟩ := declKeyword?_of_level? h
  have hshaped := shaped_of_mem_descendants hparse hdecl
  obtain ⟨front, t, rest, hchildren, rfl, hfront⟩ : ∃ front t rest,
      decl.element.children = front ++ .token t :: rest ∧ t.kind = j ∧
        ∀ e ∈ front, e.kind.isModifier = true := by
    cases helement : decl.element with
    | token t =>
      obtain ⟨hplaced, hroot⟩ := Cursor.isPlaced_of_mem_descendants hdecl
      have hkinded := hplaced.wellKinded (hroot ▸ wellKinded_parse hparse)
      rw [helement, Element.wellKinded_token] at hkinded
      rw [Cursor.kind, helement, Element.kind, hkinded] at hnode
      cases hnode
    | node k es =>
      rw [helement, Element.shaped_node] at hshaped
      rw [Cursor.kind, helement] at hj
      exact hshaped.1.keyword hj
  have hmember := Cursor.child_mem_children hchildren
  have hbehind : t.kind.isModifier = false := by
    cases hmodifier : t.kind.isModifier with
    | false => rfl
    | true => rw [contains_of_isModifier hmodifier] at hcounted; cases hcounted
  refine ⟨_, Cursor.find?_children (fun k => !k.isModifier) hchildren (fun e he => ?_) ?_, hj, ?_,
    rfl, ?_⟩
  · rw [hfront e he, Bool.not_true]
  · rw [Element.kind, hbehind, Bool.not_false]
  · exact List.mem_filter.mpr ⟨Cursor.mem_descendants_trans hdecl
      (Cursor.mem_descendants_of_mem_children hmember), htoken⟩
  · rw [position, Cursor.find?_children keywords.contains hchildren
      (fun e he => contains_of_isModifier (hfront e he)) hcounted]

/-- What is found at a place is a violation of a declaration that is nested too deep. -/
theorem report?_eq_some_iff (hparse : parse source = .ok tree)
    (hdecl : decl ∈ (Cursor.root tree).descendants) :
    report? o decl = some v ↔ IsTooDeep o decl v := by
  have hdepth : ∀ level, (levels decl.ancestors).count level =
      decl.ancestors.countP (Level.ofKind? ·.kind == some level) := fun level =>
    List.count_filterMap ..
  have hnearest : (levels decl.ancestors).head? = decl.ancestors.findSome? (Level.ofKind? ·.kind) :=
    List.head?_filterMap ..
  constructor
  · intro hfound
    rw [report?] at hfound
    split at hfound
    · rename_i hall
      obtain ⟨level, hlevel, hviolation⟩ := Option.bind_eq_some_iff.mp hfound
      obtain ⟨keyword, hkeyword, hkind, -, -, hposition⟩ := exists_keyword hparse hdecl hlevel
      rw [violation?] at hviolation
      split at hviolation
      · cases hviolation
      · rename_i hallowed
        obtain ⟨⟨severity, limit⟩, hexceeded, rfl⟩ := Option.map_eq_some_iff.mp hviolation
        refine ⟨level, severity, limit, keyword, hlevel, all_isVisited_iff.mp hall,
          hdepth level ▸ hexceeded, ?_, hkeyword, hkind, by rw [hposition]⟩
        rintro ⟨halways, rfl, hfunction⟩
        exact hallowed (by rw [halways, hnearest, hfunction]; rfl)
    · cases hfound
  · rintro ⟨level, severity, limit, keyword, hlevel, hreached, hexceeded, hallowed, hkeyword, -, rfl⟩
    obtain ⟨other, hother, -, -, -, hposition⟩ := exists_keyword hparse hdecl hlevel
    obtain rfl := Option.some.inj (hkeyword.symm.trans hother)
    rw [report?, if_pos (all_isVisited_iff.mpr hreached), hlevel, Option.bind_some, violation?,
      if_neg, hdepth, hexceeded, Option.map_some, hposition]
    rw [Bool.and_eq_true, Bool.and_eq_true, beq_iff_eq, beq_iff_eq, hnearest]
    exact fun ⟨⟨halways, hfunction⟩, htype⟩ => hallowed ⟨halways, htype, hfunction⟩

/-- Two declarations that are nested too deep are reported at two positions. -/
theorem IsTooDeep.eq_of_position {decl' : Cursor} {v' : Violation} (hparse : parse source = .ok tree)
    (hdecl : decl ∈ (Cursor.root tree).descendants) (hdecl' : decl' ∈ (Cursor.root tree).descendants)
    (h : IsTooDeep o decl v) (h' : IsTooDeep o decl' v') (hsame : v.position = v'.position) :
    decl = decl' := by
  obtain ⟨level, severity, limit, keyword, hlevel, -, -, -, hkeyword, -, rfl⟩ := h
  obtain ⟨level', severity', limit', keyword', hlevel', -, -, -, hkeyword', -, rfl⟩ := h'
  obtain ⟨x, hx, -, htoken, hparent, -⟩ := exists_keyword hparse hdecl hlevel
  obtain ⟨x', hx', -, htoken', hparent', -⟩ := exists_keyword hparse hdecl' hlevel'
  obtain rfl := Option.some.inj (hkeyword.symm.trans hx)
  obtain rfl := Option.some.inj (hkeyword'.symm.trans hx')
  obtain rfl := token_eq_of_position hparse htoken htoken' hsame
  exact Option.some.inj (hparent.symm.trans hparent')

end Parsed

/-- **Nested declarations**: in a parsed file the rule finds exactly the declarations that are nested
too deep, each once and by the position of its keyword. -/
theorem validate_eq_tooDeep {source : String} {ctx : Context}
    (h : SourceUnit.ofText source = .ok ctx.unit) (o : Options) :
    ∃ vs, (rule o).validate ctx = .ok vs ∧ vs.Pairwise (fun v w => v.position < w.position) ∧
      ∀ v, v ∈ vs ↔ ∃ decl ∈ ctx.root.descendants, IsTooDeep o decl v := by
  have hparse := SourceUnit.parse_of_ofText h
  obtain ⟨calls, hcalls⟩ := Visitor.exists_traverses (visitor o) ctx.root ⟨[], []⟩
  have habove : ∀ a ∈ ([] : List Cursor), isVisited o a = true := by simp
  obtain ⟨-, found, hfound, hperm⟩ := found_of_traverses hcalls
    (List.forall_mem_singleton.mpr (wellKinded_parse hparse)) (List.forall_mem_singleton.mpr rfl)
    habove rfl
  have hfind : (rule o).find ctx = .ok found := congrArg Except.ok hfound
  rw [List.flatMap_singleton] at hperm
  have hiff : ∀ v, v ∈ found ↔ ∃ decl ∈ ctx.root.descendants, IsTooDeep o decl v := fun v => by
    rw [hperm.mem_iff, List.mem_filterMap]
    exact exists_congr fun decl => and_congr_right fun hdecl => report?_eq_some_iff hparse hdecl
  have hdistinct : found.Pairwise fun v w => v.position ≠ w.position := by
    rw [hperm.pairwise_iff Ne.symm, List.pairwise_filterMap]
    refine (Cursor.descendantsOf_nodup _ _).of_map.pairwise_of_forall_ne ?_
    intro decl hdecl decl' hdecl' hne v hv v' hv' hsame
    exact hne (((report?_eq_some_iff hparse hdecl).mp hv).eq_of_position hparse hdecl hdecl'
      ((report?_eq_some_iff hparse hdecl').mp hv') hsame)
  refine ⟨Violation.sort found, by rw [Rule.validate, hfind]; rfl, ?_, fun v => ?_⟩
  · have hsorted := (Violation.sort_perm found).symm.pairwise hdistinct Ne.symm
    exact ((Violation.sort_positions found).and hsorted).imp fun hle => Nat.lt_of_le_of_ne hle.1 hle.2
  · rw [(Violation.sort_perm found).mem_iff]
    exact hiff v

/-- A type alias in a class in a class. -/
def nestedAlias : String := "class A { class B { private typealias C = D } }"

/-- The alias is counted as a type, and reported at its keyword behind the modifier. -/
theorem validate_eq_tooDeep_alias :
    ∃ ctx : Context, SourceUnit.ofText nestedAlias = .ok ctx.unit ∧
      ∃ decl ∈ ctx.root.descendants,
        IsTooDeep {} decl ⟨28, some (message .type 1), some .warning⟩ := by
  have hmap : (SourceUnit.ofText nestedAlias).toOption.map (fun u =>
      ((rule {}).validate ⟨u, fun _ => none⟩).toOption) =
      some (some [⟨28, some (message .type 1), some .warning⟩]) := by
    decide +kernel
  obtain ⟨u, hu, hvalidate⟩ := Option.map_eq_some_iff.mp hmap
  have h : SourceUnit.ofText nestedAlias = .ok (Context.mk u fun _ => none).unit :=
    Except.toOption_eq_some.mp hu
  obtain ⟨vs, hvs, -, hiff⟩ := validate_eq_tooDeep h {}
  rw [hvs, Except.toOption, Option.some.injEq] at hvalidate
  exact ⟨_, h, (hiff _).mp (hvalidate ▸ List.mem_singleton_self _)⟩

end Nesting

end SwiftTidy
