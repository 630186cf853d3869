import SwiftTidy.Proofs.Lint.Fixes
import SwiftTidy.Proofs.Lint.Reports
import SwiftTidy.Proofs.Parse.Phrases
import SwiftTidy.Rules.SortedSwitchCases

/-!
# Order of switch cases

Sorting the cases of a switch takes children of its cases and labels by their index.  By then the
switches below may have been sorted too, but nothing else has changed its shape (`Fits`), so all
these children exist and sorting answers (`exists_sortCases`).
-/

namespace SwiftTidy

namespace SortedSwitchCases

/-! ### What may have changed below a switch -/

mutual
/-- An element after its switches were sorted: kinds and numbers of children are the same, except
below a switch. -/
def Fits : Element → Element → Prop
  | .token t, e' => e' = .token t
  | .node k es, e' => ∃ es', e' = .node k es' ∧ (k = .switchExpr ∨ FitsAll es es')
/-- Elements that fit one by one. -/
def FitsAll : List Element → List Element → Prop
  | [], es' => es' = []
  | e :: es, es' => ∃ e' rest, es' = e' :: rest ∧ Fits e e' ∧ FitsAll es rest
end

theorem fits_token (t : Token) : Fits (.token t) (.token t) := by rw [Fits]

theorem fits_node {k : SyntaxKind} {es : List Element} {e' : Element} :
    Fits (.node k es) e' ↔ ∃ es', e' = .node k es' ∧ (k = .switchExpr ∨ List.Forall₂ Fits es es') := by
  have hall : ∀ es es', FitsAll es es' ↔ List.Forall₂ Fits es es' := by
    intro es
    induction es with
    | nil => intro es'; rw [FitsAll, List.forall₂_nil_left_iff]
    | cons e es ih =>
      intro es'
      rw [FitsAll, List.forall₂_cons_left_iff]
      constructor
      · rintro ⟨e', rest, rfl, he, hes⟩
        exact ⟨e', rest, he, (ih rest).mp hes, rfl⟩
      · rintro ⟨e', rest, he, hes, rfl⟩
        exact ⟨e', rest, rfl, he, (ih rest).mpr hes⟩
  rw [Fits]
  simp only [hall]

theorem Fits.kind_eq {e e' : Element} (h : Fits e e') : e'.kind = e.kind := by
  cases e with
  | token t => rw [Fits] at h; rw [h]
  | node k es =>
    obtain ⟨es', rfl, -⟩ := fits_node.mp h
    rfl

theorem exists_getElem?_of_forall₂ {α : Type} {R : α → α → Prop} {front back es' : List α} {e : α}
    (h : List.Forall₂ R (front ++ e :: back) es') : ∃ r, es'[front.length]? = some r ∧ R e r := by
  induction front generalizing es' with
  | nil =>
    cases h with
    | cons he _ => exact ⟨_, rfl, he⟩
  | cons f front ih =>
    cases h with
    | cons _ hrest => exact ih hrest

/-- A child of what has become of an element fits the child. -/
theorem exists_childAt {p x : Cursor} (e' : Element)
    (h : List.Forall₂ Fits p.element.children e'.children) (hx : x ∈ p.children) :
    ∃ r, childAt e' x.index = .ok r ∧ Fits x.element r := by
  obtain ⟨front, e, back, hchildren, rfl⟩ := Cursor.exists_of_mem_children hx
  rw [hchildren] at h
  obtain ⟨r, hr, hfits⟩ := exists_getElem?_of_forall₂ h
  refine ⟨r, ?_, hfits⟩
  rw [childAt, Cursor.index, hr]

theorem lt_length_of_childAt {e r : Element} {i : Nat} (h : childAt e i = .ok r) :
    i < e.children.length := by
  by_contra hle
  rw [childAt, List.getElem?_eq_none (by omega)] at h
  cases h

theorem exists_withChild (k : SyntaxKind) {es : List Element} {i : Nat} (h : i < es.length)
    (child : Element) : ∃ r, withChild (.node k es) i child = .ok r ∧ r.children.length = es.length := by
  refine ⟨.node k (es.set i child), ?_, List.length_set⟩
  rw [withChild, Element.replaceChild?, if_pos h]

/-! ### Items -/

/-- The items of a label, none of which is empty, are sorted. -/
theorem exists_sortPatterns (names : List String) {slots : List (Nat × Element)}
    (h : ∀ slot ∈ slots, ∃ k e es, slot.2 = .node k (e :: es)) :
    ∃ sorted, sortPatterns names slots = .ok sorted := by
  have hpatterns : ∀ slot ∈ slots, ∃ r, childAt slot.2 0 = .ok r ∧ True := by
    intro slot hslot
    obtain ⟨k, e, es, heq⟩ := h slot hslot
    exact ⟨e, by rw [heq]; rfl, trivial⟩
  obtain ⟨patterns, hpatterns, -⟩ := Except.exists_mapM_eq_ok hpatterns
  have hput : ∀ x ∈ slots.zip (patterns.zip (((names.zip patterns).mergeSort
      fun a b => a.1 ≤ b.1).map (·.2))), ∃ r, (do
        return (x.1.1, ← withChild x.1.2 0 (x.2.2.transplantTrivia x.2.1)) :
          Except Fault (Nat × Element)) = .ok r ∧ True := by
    rintro ⟨⟨slot, item⟩, old, new⟩ hx
    obtain ⟨k, e, es, heq⟩ := h (slot, item) (List.of_mem_zip hx).1
    have hlength : 0 < (e :: es).length := Nat.zero_lt_succ es.length
    obtain ⟨r, hr, -⟩ := exists_withChild k hlength (new.transplantTrivia old)
    refine ⟨(slot, r), ?_, trivial⟩
    have heq : item = .node k (e :: es) := heq
    rw [heq]
    simp only [hr, bind, Except.bind]
    rfl
  obtain ⟨sorted, hsorted, -⟩ := Except.exists_mapM_eq_ok hput
  refine ⟨sorted, ?_⟩
  simp only [sortPatterns, hpatterns, bind, Except.bind]
  exact hsorted

theorem shaped_of_mem_children {p x : Cursor} (h : p.element.Shaped) (hx : x ∈ p.children) :
    x.element.Shaped := by
  obtain ⟨front, e, back, hchildren, rfl⟩ := Cursor.exists_of_mem_children hx
  cases hp : p.element with
  | token t => rw [hp] at hchildren; simp [Element.children] at hchildren
  | node k es =>
    rw [hp] at h hchildren
    have hes : es = front ++ e :: back := hchildren
    exact (Element.shapedAll_iff es).mp ((Element.shaped_node k es).mp h).2 e (by rw [hes]; simp)

/-- The children of what has become of a node fit, unless the node is a switch. -/
theorem forall₂_children {e : Element} {k : SyntaxKind} {es' : List Element}
    (h : Fits e (.node k es')) (hk : k ≠ .switchExpr) : List.Forall₂ Fits e.children es' := by
  cases e with
  | token t => rw [Fits] at h; cases h
  | node j es =>
    obtain ⟨fs, heq, hfits⟩ := fits_node.mp h
    cases heq
    exact hfits.resolve_left hk

/-- What has become of an item of a case is not empty. -/
theorem exists_cons_of_item {item : Cursor} {r : Element} (hshaped : item.element.Shaped)
    (hkind : item.kind = .switchCaseItem) (hfits : Fits item.element r) (hr : r.token? = none) :
    ∃ k e es, r = .node k (e :: es) := by
  cases r with
  | token t => cases hr
  | node k es' =>
    have hk : k = .switchCaseItem := hfits.kind_eq.trans hkind
    have hchildren := forall₂_children hfits (by rw [hk]; decide)
    cases hitem : item.element with
    | token t => rw [hitem, Fits] at hfits; cases hfits
    | node j es =>
      rw [Cursor.kind, hitem] at hkind
      rw [hitem] at hshaped hchildren
      have hne := ((Element.shaped_node j es).mp hshaped).1.item hkind
      cases es' with
      | nil => exact absurd (List.forall₂_nil_right_iff.mp hchildren) hne
      | cons e' es' => exact ⟨k, e', es', rfl⟩

/-- The items of what has become of a label are found. -/
theorem exists_slots {label : Cursor} {k : SyntaxKind} {es : List Element}
    (hshaped : label.element.Shaped) (hfits : List.Forall₂ Fits label.element.children es) :
    ∃ found, ((items label).mapM fun item => do
        return (item.index, ← childAt (.node k es) item.index) : Except Fault _) = .ok found ∧
      ∀ slot ∈ found.filter (·.2.token?.isNone), ∃ k e es, slot.2 = .node k (e :: es) := by
  have hitem : ∀ item ∈ items label, ∃ slot, (do
      return (item.index, ← childAt (.node k es) item.index) : Except Fault (Nat × Element)) =
        .ok slot ∧ Fits item.element slot.2 := by
    intro item hitem
    obtain ⟨r, hr, hr'⟩ := exists_childAt (.node k es) hfits (List.mem_filter.mp hitem).1
    refine ⟨(item.index, r), ?_, hr'⟩
    simp only [hr, bind, Except.bind]
    rfl
  obtain ⟨found, hfound, hall⟩ := Except.exists_mapM_eq_ok hitem
  refine ⟨found, hfound, fun slot hslot => ?_⟩
  obtain ⟨hslot, hnode⟩ := List.mem_filter.mp hslot
  obtain ⟨item, hmem, hslotFits⟩ := hall slot hslot
  obtain ⟨hchild, hkind⟩ := List.mem_filter.mp hmem
  exact exists_cons_of_item (shaped_of_mem_children hshaped hchild) (by simpa using hkind) hslotFits
    (by simpa using hnode)

/-- The items of what has become of a case are sorted. -/
theorem exists_sortItems {c : Case} {current : Element} (hkind : c.node.kind = .switchCase)
    (hlabel : ∀ label ∈ c.label, label ∈ c.node.children ∧ label.kind = .switchCaseLabel)
    (hshaped : c.node.element.Shaped) (hfits : Fits c.node.element current) :
    ∃ r, sortItems c current = .ok r := by
  cases hl : c.label with
  | none => exact ⟨current, by simp only [sortItems, hl]; rfl⟩
  | some label =>
    cases current with
    | token t => exact ⟨.token t, by simp only [sortItems, hl]; rfl⟩
    | node k es =>
      have hk : k = .switchCase := hfits.kind_eq.trans hkind
      obtain ⟨hmem, hlabelKind⟩ := hlabel label hl
      obtain ⟨r, hr, hrFits⟩ := exists_childAt (.node k es)
        (forall₂_children hfits (by rw [hk]; decide)) hmem
      simp only [sortItems, hl, hr]
      split_ifs
      · exact ⟨_, rfl⟩
      · cases r with
        | token t => exact ⟨_, rfl⟩
        | node j fs =>
          have hj : j = .switchCaseLabel := hrFits.kind_eq.trans hlabelKind
          obtain ⟨found, hfound, hslots⟩ := exists_slots (k := j) (shaped_of_mem_children hshaped hmem)
            (forall₂_children hrFits (by rw [hj]; decide))
          obtain ⟨sorted, hsorted⟩ := exists_sortPatterns c.names hslots
          obtain ⟨r', hr', -⟩ := exists_withChild (k := k) (lt_length_of_childAt hr)
            (.node j (sorted.foldl (fun es p => es.set p.1 p.2) fs))
          refine ⟨r', ?_⟩
          simp only [bind, Except.bind] at hfound ⊢
          rw [hfound]
          simp only [hsorted]
          exact hr'

/-! ### Cases -/

/-- The cases of a switch are children of it, and their labels are children of them. -/
theorem mem_cases {switch : Cursor} {c : Case} (h : c ∈ cases switch) :
    c.node ∈ switch.children ∧ c.node.kind = .switchCase ∧
      ∀ label ∈ c.label, label ∈ c.node.children ∧ label.kind = .switchCaseLabel := by
  obtain ⟨node, hnode, rfl⟩ := List.mem_map.mp h
  obtain ⟨hmem, hkind⟩ := List.mem_filter.mp hnode
  refine ⟨hmem, by simpa using hkind, fun label hlabel => ?_⟩
  have hfind : node.children.find? (·.kind == .switchCaseLabel) = some label := hlabel
  exact ⟨List.mem_of_find?_eq_some hfind, by simpa using List.find?_some hfind⟩

theorem exists_fillSlots {es : List Element} {slots : List (Nat × Element)}
    (h : ∀ slot ∈ slots, slot.1 < es.length) : ∃ es', fillSlots es slots = .ok es' := by
  induction slots generalizing es with
  | nil => exact ⟨es, rfl⟩
  | cons x slots ih =>
    obtain ⟨slot, e⟩ := x
    rw [List.forall_mem_cons] at h
    rw [fillSlots, List.getElem?_eq_getElem h.1]
    exact ih fun y hy => by rw [List.length_set]; exact h.2 y hy

/-- The cases of a switch are sorted, whatever was sorted below. -/
theorem exists_sortCases {switch : Cursor} {k : SyntaxKind} {es : List Element}
    (hshaped : switch.element.Shaped) (hfits : List.Forall₂ Fits switch.element.children es) :
    ∃ es', sortCases (cases switch) (.node k es) = .ok (.node k es') := by
  have hcase : ∀ c ∈ cases switch, ∃ r, (do
      sortItems c (← childAt (.node k es) c.node.index) : Except Fault Element) = .ok r ∧ True := by
    intro c hc
    obtain ⟨hmem, hkind, hlabel⟩ := mem_cases hc
    obtain ⟨r, hr, hrFits⟩ := exists_childAt (.node k es) hfits hmem
    obtain ⟨r', hr'⟩ := exists_sortItems hkind hlabel (shaped_of_mem_children hshaped hmem) hrFits
    refine ⟨r', ?_, trivial⟩
    simp only [hr, bind, Except.bind]
    exact hr'
  obtain ⟨moved, hmoved, -⟩ := Except.exists_mapM_eq_ok hcase
  have hslots : ∀ slot ∈ ((cases switch).map (·.node.index)).zip
      ((((cases switch).zip moved).mergeSort fun a b => keyLe a.1.key b.1.key).map (·.2)),
      slot.1 < es.length := by
    intro slot hslot
    obtain ⟨c, hc, hindex⟩ := List.mem_map.mp (List.of_mem_zip hslot).1
    obtain ⟨r, hr, -⟩ := exists_childAt (.node k es) hfits (mem_cases hc).1
    rw [← hindex]
    exact lt_length_of_childAt hr
  obtain ⟨es', hes'⟩ := exists_fillSlots hslots
  refine ⟨es', ?_⟩
  simp only [bind, Except.bind] at hmoved
  simp only [sortCases, bind, Except.bind]
  rw [hmoved]
  simp only [Element.children, Element.kind, hes']
  rfl

/-- The disorder that is corrected is one that is found. -/
theorem mem_check_of_disorder? {c : Cursor} {position : Nat} (hkind : c.kind = .switchExpr)
    (h : disorder? c (cases c) = some position) : .plain position ∈ check c := by
  rw [check, if_pos (by simpa using hkind)]
  rw [disorder?] at h
  split_ifs at h with hsorted
  · obtain ⟨label, hlabel, rfl⟩ := Option.map_eq_some_iff.mp h
    obtain ⟨case, hcase, hlabel⟩ := List.exists_of_findSome?_eq_some hlabel
    exact List.mem_append_left _ (List.mem_map_of_mem (List.mem_filterMap.mpr ⟨case, hcase, hlabel⟩))
  · cases h
    dsimp only
    rw [if_neg hsorted]
    exact List.mem_append_right _ List.mem_cons_self

/-! ### The rule -/

/-- What is recorded at a switch: its disorder, where it can be corrected. -/
def recordedAt (disabled : DisabledRegions) (c : Cursor) : List Nat :=
  if c.kind = .switchExpr ∧ canReorder (cases c) = true then
    (disorder? c (cases c)).toList.filter fun p => Fix.isAllowed ⟨c.element, p, [], none⟩ disabled c
  else []

theorem behaves_fixer {source : String} {tree : Element} (disabled : DisabledRegions)
    (hparse : parse source = .ok tree) {c : Cursor} (hc : c ∈ (Cursor.root tree).descendants) :
    Fixer.Behaves fixer disabled Fits (fun _ => []) (recordedAt disabled) c where
  token t _ := ⟨none, rfl, rfl, fits_token t⟩
  visit k es _ := rfl
  node k es es' hnode hes := by
    have hfits : Fits (.node k es) (.node k es') := fits_node.mpr ⟨es', rfl, .inr hes⟩
    have hckind : c.kind = k := by rw [Cursor.kind, hnode]; rfl
    by_cases hcan : k = .switchExpr ∧ canReorder (cases c) = true
    · obtain ⟨rfl, hreorder⟩ := hcan
      have hrecorded : recordedAt disabled c = (disorder? c (cases c)).toList.filter
          fun p => Fix.isAllowed ⟨c.element, p, [], none⟩ disabled c := if_pos ⟨hckind, hreorder⟩
      rw [hrecorded]
      cases hdisorder : disorder? c (cases c) with
      | none =>
        refine ⟨none, ?_, rfl, hfits⟩
        simp only [fixer, hckind, hdisorder]
        rfl
      | some position =>
        have hchildren : c.element.children = es := by rw [hnode]; rfl
        obtain ⟨es'', hsorted⟩ := exists_sortCases (k := .switchExpr)
          (shaped_of_mem_descendants hparse hc) (hchildren ▸ hes)
        refine ⟨some ⟨.node .switchExpr es'', position, [], none⟩, ?_, ?_, ?_⟩
        · simp only [fixer, hckind, hdisorder, hreorder, hsorted, bind, Except.bind]
          rfl
        · -- whether it is allowed does not depend on the replacement
          have hsame : Fix.isAllowed ⟨.node .switchExpr es'', position, [], none⟩ disabled c =
            Fix.isAllowed ⟨c.element, position, [], none⟩ disabled c := rfl
          rw [Fixer.accept, hsame, Option.toList_some, List.filter_singleton]
          cases Fix.isAllowed ⟨c.element, position, [], none⟩ disabled c <;> rfl
        · rw [Fixer.accept]
          split_ifs
          · exact fits_node.mpr ⟨es'', rfl, .inl rfl⟩
          · exact hfits
    · refine ⟨none, ?_, ?_, hfits⟩
      · by_cases hk : k = .switchExpr
        · have hreorder : canReorder (cases c) = false := by simpa [hk] using hcan
          simp only [fixer, hckind, hk, hreorder]
          cases disorder? c (cases c) <;> rfl
        · have hother : (k != .switchExpr) = true := by simpa using hk
          simp only [fixer, hckind, hother]
          rfl
      · rw [recordedAt, if_neg (hckind ▸ hcan)]
        rfl

/-- The rule about switch cases corrects nothing but what it finds. -/
theorem rule_correctsOnly {source : String} {ctx : Context}
    (h : SourceUnit.ofText source = .ok ctx.unit) (severity : Severity) :
    (rule severity).CorrectsOnly ctx := by
  have hparse := SourceUnit.parse_of_ofText h
  obtain ⟨fixed, hrun⟩ := Fixer.run_eq fun c hc =>
    behaves_fixer (ctx.unit.disabledRegions description) hparse hc
  rw [Fixer.recordedOf_nodes] at hrun
  refine ⟨_, _, rfl, congrArg some hrun, fun p hp => ?_⟩
  rw [List.mem_mergeSort, List.mem_flatMap] at hp
  obtain ⟨c, hc, hp⟩ := hp
  rw [recordedAt] at hp
  split_ifs at hp with hcan
  · obtain ⟨hdisorder, hallowed⟩ := List.mem_filter.mp hp
    have hfound := mem_check_of_disorder? hcan.1 (Option.mem_toList.mp hdisorder)
    have hsuppressed := Fix.isSuppressed_of_isAllowed hallowed p List.mem_cons_self
    rw [Rule.unsuppressed, List.mem_filter, Bool.not_eq_true']
    refine ⟨?_, hsuppressed⟩
    exact List.mem_map_of_mem (f := Violation.position) (List.mem_flatMap.mpr ⟨c, hc, hfound⟩)
  · cases hp

end SortedSwitchCases

end SwiftTidy
