import SwiftTidy.Proofs.Rules.SortedCases

/-!
# Switches with their cases in order

Sorting the cases of a switch puts them into each other's slots in the order of their keys, after the
items of each were sorted (`exists_sortCases_map`).  What a place that is the same up to spaces shows
then is `IsSortedSwitch`: keys and names ascend, so nothing is found there (`check_eq_nil`), the cases
are the ones from before, and no token and no comment is lost.

`isSortedSwitch_of_intact` carries this over to any place that is the same up to spaces.
-/

namespace SwiftTidy

namespace SortedSwitchCases

variable {disabled : DisabledRegions} {c d switch : Cursor} {e e' : Element}

/-! ### Keys -/

/-- The least of some names is one of them, and no other is less. -/
theorem foldl_least (names : List String) (n : String) :
    names.foldl (fun m x => if x < m then x else m) n ∈ n :: names ∧
      ∀ x ∈ n :: names, names.foldl (fun m x => if x < m then x else m) n ≤ x := by
  induction names generalizing n with
  | nil => simp
  | cons m names ih =>
    rw [List.foldl_cons]
    obtain ⟨hmem, hle⟩ := ih (if m < n then m else n)
    rw [List.forall_mem_cons] at hle
    split_ifs at hmem hle ⊢ with h
    · refine ⟨List.mem_cons_of_mem n hmem, ?_⟩
      rw [List.forall_mem_cons, List.forall_mem_cons]
      exact ⟨hle.1.trans h.le, hle.1, hle.2⟩
    · refine ⟨?_, ?_⟩
      · rcases List.mem_cons.mp hmem with hn | hn
        · rw [hn]
          exact List.mem_cons_self
        · exact List.mem_cons_of_mem n (List.mem_cons_of_mem m hn)
      · rw [List.forall_mem_cons, List.forall_mem_cons]
        exact ⟨hle.1, hle.1.trans (not_lt.mp h), hle.2⟩

/-- The least of some names does not depend on their order. -/
theorem least_perm {names names' : List String} (h : names'.Perm names) :
    Case.key.least names' = Case.key.least names := by
  cases names with
  | nil => rw [h.eq_nil]
  | cons n names =>
    cases names' with
    | nil => cases h.symm.eq_nil
    | cons n' names' =>
      rw [Case.key.least, Case.key.least]
      obtain ⟨hmem, hle⟩ := foldl_least names n
      obtain ⟨hmem', hle'⟩ := foldl_least names' n'
      exact le_antisymm (hle' _ (h.mem_iff.mpr hmem)) (hle _ (h.mem_iff.mp hmem'))

theorem keyLe_trans {a b c : Option String} (hab : keyLe a b = true) (hbc : keyLe b c = true) :
    keyLe a c = true := by
  cases a <;> cases b <;> cases c <;> simp only [keyLe, decide_eq_true_eq, Bool.false_eq_true] at *
  exact hab.trans hbc

theorem keyLe_total (a b : Option String) : (keyLe a b || keyLe b a) = true := by
  cases a <;> cases b <;> simp only [keyLe, Bool.or_true, Bool.true_or, Bool.or_eq_true,
    decide_eq_true_eq]
  exact le_total _ _

theorem keysSorted_of_pairwise : ∀ {keys : List (Option String)},
    keys.Pairwise (fun a b => keyLe a b = true) → keysSorted keys = true
  | [], _ => rfl
  | [_], _ => rfl
  | a :: b :: rest, h => by
    rw [keysSorted, Bool.and_eq_true]
    exact ⟨List.rel_of_pairwise_cons h List.mem_cons_self, keysSorted_of_pairwise h.of_cons⟩

/-! ### What a sorted switch is -/

/-- A case of a sorted switch is a case from before: its label has the same patterns, in some order,
and what is beside the label is intact. -/
structure SameCase (disabled : DisabledRegions) (x y : Case) : Prop where
  key : y.key = x.key
  patterns : ∃ ps : List Cursor, ps.Perm x.patterns ∧
    List.Forall₂ (fun p q : Cursor => Intact disabled p q.element) ps y.patterns
  body : List.Forall₂ (fun a b : Cursor => Intact disabled a b.element) x.body y.body

/-- The place `d` shows what has become of the switch `c` when it was sorted: the keys of its cases
and the names of every case ascend, its cases are those from before, and its tokens and comments are
the same in some order. -/
structure IsSortedSwitch (disabled : DisabledRegions) (c d : Cursor) : Prop where
  kind : d.kind = .switchExpr
  keys : ((cases d).map Case.key).Pairwise fun a b => keyLe a b = true
  names : ∀ x ∈ cases d, x.names.Pairwise (· ≤ ·)
  cases : ∃ xs : List Case, xs.Perm (cases c) ∧ List.Forall₂ (SameCase disabled) xs (cases d)
  lexemes : d.element.lexemes.Perm c.element.lexemes
  comments : d.element.comments.Perm c.element.comments

/-- Nothing is found at a sorted switch. -/
theorem IsSortedSwitch.check_eq_nil (h : IsSortedSwitch disabled c d) : check d = [] := by
  have hitems : (SortedSwitchCases.cases d).filter (!·.itemsSorted) = [] := by
    refine List.filter_eq_nil_iff.mpr fun x hx => ?_
    rw [Case.itemsSorted, isSorted_of_pairwise (h.names x hx)]
    decide
  have hcases : casesSorted (SortedSwitchCases.cases d) = true := keysSorted_of_pairwise h.keys
  rw [check, h.kind]
  simp only [beq_self_eq_true, if_true, hitems, hcases, List.filterMap_nil, List.map_nil,
    List.append_nil]

/-! ### Cases that are read again -/

/-- The children of what has become of a place, as they are found there. -/
theorem forall₂_of_map_element {α : Type} {R : α → Element → Prop} {xs : List α} {es : List Element}
    {ys : List Cursor} (h : List.Forall₂ R xs es) (heq : ys.map Cursor.element = es) :
    List.Forall₂ (fun x y => R x y.element) xs ys := by
  rwa [← heq, List.forall₂_map_right_iff] at h

theorem map_element_filter (test : SyntaxKind → Bool) (c : Cursor) :
    (c.children.filter (test ·.kind)).map Cursor.element = c.element.children.filter (test ·.kind) := by
  rw [← Cursor.map_element_children, List.filter_map]
  rfl

theorem map_element_childOfKind? (c : Cursor) (k : SyntaxKind) :
    (c.childOfKind? k).map Cursor.element = c.element.children.find? (·.kind == k) := by
  rw [← Cursor.map_element_children, List.find?_map]
  rfl

/-- The items of a label have the patterns of before and their names. -/
theorem names_of_hasPatterns {l : Cursor} {ps : List Cursor} (hshaped : ∀ p ∈ ps, p.element.Shaped)
    (h : HasPatterns disabled ps l.element) :
    ((items l).map fun item => itemName item.element) = ps.map (fun p => patternName p.element) ∧
      List.Forall₂ (fun p q : Cursor => Intact disabled p q.element) ps
        ((items l).filterMap pattern?) := by
  have hitems := forall₂_of_map_element h (map_element_filter (· == .switchCaseItem) l)
  have hall : ∀ {ps xs : List Cursor}, (∀ p ∈ ps, p.element.Shaped) →
      List.Forall₂ (fun p (item : Cursor) => ∃ q, item.element.children.head? = some q ∧
        Intact disabled p q) ps xs →
      (xs.map fun item => itemName item.element) = ps.map (fun p => patternName p.element) ∧
        List.Forall₂ (fun p q : Cursor => Intact disabled p q.element) ps (xs.filterMap pattern?) := by
    intro ps xs hshaped h
    induction h with
    | nil => exact ⟨rfl, .nil⟩
    | @cons p item ps xs hitem _ ih =>
      obtain ⟨q, hq, hintact⟩ := hitem
      rw [List.forall_mem_cons] at hshaped
      obtain ⟨hnames, hpatterns⟩ := ih hshaped.2
      have hhead := congrArg List.head? item.map_element_children
      rw [List.head?_map, hq] at hhead
      obtain ⟨y, hy, rfl⟩ := Option.map_eq_some_iff.mp hhead
      refine ⟨?_, ?_⟩
      · rw [List.map_cons, List.map_cons, hnames, itemName_of_head? hq,
          patternName_eq p.element rfl hshaped.1 hintact]
      · rw [List.filterMap_cons_some (show pattern? item = some y from hy)]
        exact .cons hintact hpatterns
  exact hall hshaped hitems

theorem shaped_of_mem_patterns {x : Case} {p : Cursor} (hx : x ∈ cases switch)
    (hshaped : x.node.element.Shaped) (hp : p ∈ x.patterns) : p.element.Shaped := by
  obtain ⟨item, hitem, hpattern⟩ := List.mem_filterMap.mp hp
  obtain ⟨l, hl, hitem⟩ := List.mem_flatMap.mp hitem
  have hlabel := ((mem_cases hx).2.2 l (Option.mem_toList.mp hl)).1
  exact shaped_of_mem_children (shaped_of_mem_children (shaped_of_mem_children hshaped hlabel)
    (List.mem_filter.mp hitem).1) (List.mem_of_head? hpattern)

theorem patterns_of_label {x : Case} {l : Cursor} (hl : x.label = some l) :
    x.patterns = (items l).filterMap pattern? := by
  rw [Case.patterns, hl, Option.toList_some, List.flatMap_singleton]

/-- A case without a label has neither patterns nor names. -/
theorem patterns_of_default {x : Case} (hx : x ∈ cases switch) (hl : x.label = none) :
    x.patterns = [] ∧ x.names = [] := by
  obtain ⟨node, -, rfl⟩ := List.mem_map.mp hx
  have hnone : node.childOfKind? .switchCaseLabel = none := hl
  simp only [Case.patterns, hnone, Option.toList_none, List.flatMap_nil, List.filterMap_nil,
    List.map_nil, and_self]

/-- A sorted case is a case from before, and its names ascend. -/
theorem sameCase_of_isSortedCase {x y : Case} (hx : x ∈ cases switch) (hy : y ∈ cases d)
    (hnames : ∀ n ∈ x.names, n ≠ "") (hshaped : x.node.element.Shaped)
    (h : IsSortedCase disabled x y.node.element) :
    SameCase disabled x y ∧ y.names.Pairwise (· ≤ ·) := by
  have hbody := forall₂_of_map_element h.body (map_element_filter (· != .switchCaseLabel) y.node)
  have hlabel := map_element_childOfKind? y.node .switchCaseLabel
  rw [← label_of_mem_cases hy] at hlabel
  cases hl : x.label with
  | none =>
    rw [h.default hl, Option.map_eq_none_iff] at hlabel
    obtain ⟨hpatterns, -⟩ := patterns_of_default hx hl
    obtain ⟨hpatterns', hnames'⟩ := patterns_of_default hy hlabel
    refine ⟨{ key := ?_, patterns := ⟨[], ?_, ?_⟩, body := hbody }, ?_⟩
    · rw [Case.key, Case.key, hl, hlabel]
      rfl
    · rw [hpatterns]
    · rw [hpatterns']
      exact .nil
    · rw [hnames']
      exact .nil
  | some l =>
    obtain ⟨f, ps, hf, hperm, hpairwise, hhas⟩ := h.label l hl
    rw [hf] at hlabel
    obtain ⟨l', hl', rfl⟩ := Option.map_eq_some_iff.mp hlabel
    have hxPatterns := patterns_of_label hl
    have hps : ∀ p ∈ ps, p.element.Shaped := fun p hp =>
      shaped_of_mem_patterns hx hshaped (hxPatterns ▸ hperm.mem_iff.mp hp)
    obtain ⟨hitems, hpatterns⟩ := names_of_hasPatterns hps hhas
    have hyNames : y.names = ps.map (fun p => patternName p.element) :=
      (names_of_mem_cases hy hl').trans hitems
    have hxNames := names_of_mem_cases hx hl
    rw [hxNames] at hnames
    -- the patterns were permuted, so the least name is the same
    have hnamesPerm : y.names.Perm x.names := by
      rw [hyNames, hxNames, ← map_patternName_patterns fun item hitem =>
        hnames _ (List.mem_map_of_mem hitem)]
      exact hperm.map _
    refine ⟨{ key := ?_, patterns := ⟨ps, ?_, ?_⟩, body := hbody }, hyNames ▸ hpairwise⟩
    · rw [Case.key, Case.key, hl, hl', Option.map_some, Option.map_some, least_perm hnamesPerm]
    · rwa [hxPatterns]
    · rwa [patterns_of_label hl']

/-! ### Sorting the cases of a switch -/

/-- The order of the cases of a switch by their keys. -/
def sortedCases (cs : List Case) : List Case := cs.mergeSort fun a b => keyLe a.key b.key

theorem sortedCases_perm (cs : List Case) : (sortedCases cs).Perm cs := List.mergeSort_perm cs _

theorem pairwise_sortedCases (cs : List Case) :
    ((sortedCases cs).map Case.key).Pairwise fun a b => keyLe a b = true := by
  have hsorted : (sortedCases cs).Pairwise fun a b => keyLe a.key b.key = true := by
    refine List.pairwise_mergeSort (fun a b d hab hbd => ?_) (fun a b => ?_) cs
    · exact keyLe_trans hab hbd
    · exact keyLe_total a.key b.key
  exact List.pairwise_map.mpr hsorted

theorem map_node_cases (switch : Cursor) :
    (cases switch).map Case.node = switch.childrenOfKind .switchCase := by
  rw [cases, List.map_map]
  exact List.map_id _

/-- Elements come into the slots of some children and take over their outer trivia. -/
theorem fillSlots_map_children (p : Cursor → Bool) (cur source : Cursor → Element) (c : Cursor) :
    fillSlots (c.children.map cur) ((c.children.filter p).map fun y => (y.index, source y)) =
      .ok (c.children.map fun y =>
        if p y then (source y).transplantTrivia (cur y) else cur y) := by
  -- the slots that are still to be filled hold what they held before
  have hall : ∀ (ys : List Cursor) (es : List Element), (∀ y ∈ ys, y ∈ c.children) → ys.Nodup →
      (∀ y ∈ ys, es[y.index]? = some (cur y)) →
      fillSlots es (ys.map fun y => (y.index, source y)) =
        .ok ((ys.map fun y => (y.index, (source y).transplantTrivia (cur y))).foldl
          (fun es x => es.set x.1 x.2) es) := by
    intro ys
    induction ys with
    | nil => exact fun es _ _ _ => rfl
    | cons y ys ih =>
      intro es hys hnodup hes
      rw [List.forall_mem_cons] at hys hes
      obtain ⟨hy, hnodup⟩ := List.nodup_cons.mp hnodup
      rw [List.map_cons, fillSlots, hes.1]
      refine ih _ hys.2 hnodup fun z hz => ?_
      have hne : y.index ≠ z.index := by
        intro hindex
        have hy' := Cursor.getElem?_index hys.1
        rw [hindex, Cursor.getElem?_index (hys.2 z hz), Option.some.injEq] at hy'
        exact hy (hy' ▸ hz)
      rw [List.getElem?_set_ne hne]
      exact hes.2 z hz
  rw [hall _ _ (fun y hy => (List.mem_filter.mp hy).1) (c.children_nodup.filter _)
    fun y hy => Cursor.getElem?_map_children cur (List.mem_filter.mp hy).1]
  rw [Cursor.foldl_set_map_children]

theorem leaves_ne_nil_of_sameEdges (h : Element.SameEdges e e') (he : e.leaves ≠ []) :
    e'.leaves ≠ [] := by
  intro hnil
  have hfront := h.front
  rw [hnil, List.head?_nil, Option.map_none, eq_comm, Option.map_eq_none_iff,
    List.head?_eq_none_iff] at hfront
  exact he hfront

/-- What becomes of a place below a sorted switch. -/
structure Becomes (disabled : DisabledRegions) (c : Cursor) (e' : Element) : Prop where
  intact : Intact disabled c e'
  edges : Element.SameEdges c.element e'

section Switch

variable {cur : Cursor → Element}

/-- What has become of the cases of a switch whose items were sorted. -/
structure AreSorted (disabled : DisabledRegions) (switch : Cursor) (cur : Cursor → Element)
    (g : Case → Element) : Prop where
  items : ∀ x ∈ cases switch, sortItems x (cur x.node) = .ok (g x)
  resorted : ∀ x ∈ cases switch, Resorted (cur x.node) (g x)
  sorted : ∀ x ∈ cases switch, IsSortedCase disabled x (g x)
  clear : ∀ x ∈ cases switch, (cur x.node).ClearEdges
  leaves : ∀ x ∈ cases switch, (cur x.node).leaves ≠ []

/-- The items of all cases of a switch are sorted. -/
theorem exists_areSorted (hkinded : switch.element.WellKinded) (hshaped : switch.element.Shaped)
    (hkind : switch.kind = .switchExpr) (hreorder : canReorder (cases switch) = true)
    (hcur : ∀ y ∈ switch.children, Becomes disabled y (cur y)) :
    ∃ g, AreSorted disabled switch cur g := by
  rw [canReorder, Bool.and_eq_true, List.all_eq_true] at hreorder
  obtain ⟨hmovable, hdistinct⟩ := hreorder
  have hcase : ∀ x ∈ cases switch, ∃ r, sortItems x (cur x.node) = .ok r ∧
      Resorted (cur x.node) r ∧ IsSortedCase disabled x r := by
    intro x hx
    have hmem := (mem_cases hx).1
    exact exists_isSortedCase hx
      (fun n hn => ne_empty_of_namesDistinct hdistinct n (List.mem_flatMap.mpr ⟨x, hx, hn⟩))
      (hmovable x hx) (Cursor.wellKinded_of_mem_children hkinded hmem)
      (shaped_of_mem_children hshaped hmem) (hcur _ hmem).intact
  choose! g hg using hcase
  refine ⟨g, fun x hx => (hg x hx).1, fun x hx => (hg x hx).2.1, fun x hx => (hg x hx).2.2,
    fun x hx => ?_, fun x hx => ?_⟩
  · have hmem := (mem_cases hx).1
    exact (clearEdges_of_isMovable (hmovable x hx)
      (Cursor.wellKinded_of_mem_children hkinded hmem)).of_sameEdges (hcur _ hmem).edges
  · obtain ⟨hmem, hcaseKind, -⟩ := mem_cases hx
    obtain ⟨es, hnode⟩ := exists_node_of_kind hkinded hkind rfl
    have helement : x.node.element ∈ es := by
      have hmap := List.mem_map_of_mem (f := Cursor.element) hmem
      rwa [Cursor.map_element_children, hnode] at hmap
    rw [hnode] at hshaped
    have hleaves := (((Element.shaped_node _ es).mp hshaped).1.switch rfl).2.2 _ helement hcaseKind
    exact leaves_ne_nil_of_sameEdges (hcur _ hmem).edges hleaves

/-- Where every case goes when the cases are sorted: each slot gets one of them. -/
theorem AreSorted.exists_source {g : Case → Element} (h : AreSorted disabled switch cur g) :
    ∃ source : Cursor → Element,
      (switch.childrenOfKind .switchCase).map source = (sortedCases (cases switch)).map g ∧
      sortCases (cases switch) (.node .switchExpr (switch.children.map cur)) =
        .ok (.node .switchExpr (switch.children.map (exchange .switchCase cur fun y =>
          (source y).transplantTrivia (cur y)))) := by
  have hnodes := map_node_cases switch
  have hlength : (switch.childrenOfKind .switchCase).length =
      ((sortedCases (cases switch)).map g).length := by
    rw [List.length_map, (sortedCases_perm _).length_eq, ← hnodes, List.length_map]
  obtain ⟨source, hsource, -⟩ := exists_map_of_forall₂ (switch.children_nodup.filter _)
    (List.forall₂_iff_zip.mpr ⟨hlength, fun _ => trivial⟩ :
      List.Forall₂ (fun _ _ => True) (switch.childrenOfKind .switchCase)
        ((sortedCases (cases switch)).map g))
  have hsource : (switch.childrenOfKind .switchCase).map source =
      (sortedCases (cases switch)).map g := hsource.symm
  refine ⟨source, hsource, ?_⟩
  -- first the items of every case, then the cases by their keys, then the slots in order
  have hmoved : (cases switch).mapM (fun x => do
      sortItems x (← childAt (.node .switchExpr (switch.children.map cur)) x.node.index)) =
      .ok ((cases switch).map g) := by
    refine Except.mapM_eq_ok fun x hx => ?_
    rw [childAt_map_children _ cur (mem_cases hx).1]
    exact h.items x hx
  have hsorted : ((((cases switch).zip ((cases switch).map g)).mergeSort
      fun a b => keyLe a.1.key b.1.key).map (·.2)) =
      (switch.childrenOfKind .switchCase).map source := by
    have hzip : (cases switch).zip ((cases switch).map g) = (cases switch).map fun x => (x, g x) := by
      rw [← List.zip_map', List.map_id']
    rw [hzip, ← List.map_mergeSort (r := fun a b => keyLe a.key b.key) fun a _ b _ => rfl,
      List.map_map, hsource]
    rfl
  have hslots : ((cases switch).map (·.node.index)).zip
      ((switch.childrenOfKind .switchCase).map source) =
      (switch.childrenOfKind .switchCase).map fun y => (y.index, source y) := by
    have hindices : (cases switch).map (·.node.index) =
        (switch.childrenOfKind .switchCase).map Cursor.index := by
      rw [← hnodes, List.map_map]
      rfl
    rw [hindices, List.zip_map']
  have hfill := fillSlots_map_children (·.kind == .switchCase) cur source switch
  simp only [bind, Except.bind] at hmoved
  simp only [sortCases, bind, Except.bind, hmoved, hsorted, Element.children, hslots, Element.kind]
  rw [show switch.childrenOfKind .switchCase = switch.children.filter (·.kind == .switchCase) from rfl,
    hfill]
  rfl

/-- **Sorting the cases of a switch**: they come into each other's slots in the order of their keys,
each with its items in order, and all else stays. -/
theorem exists_sortCases_map (hkinded : switch.element.WellKinded) (hshaped : switch.element.Shaped)
    (hkind : switch.kind = .switchExpr) (hreorder : canReorder (cases switch) = true)
    (hcur : ∀ y ∈ switch.children, Becomes disabled y (cur y)) :
    ∃ moved : Cursor → Element,
      sortCases (cases switch) (.node .switchExpr (switch.children.map cur)) =
        .ok (.node .switchExpr (switch.children.map (exchange .switchCase cur moved))) ∧
      (∀ y ∈ switch.childrenOfKind .switchCase, Element.SameEdges (cur y) (moved y)) ∧
      (∀ {β : Type} {tally : Element → List β}, IsTally tally →
        ((switch.childrenOfKind .switchCase).flatMap fun y => tally (moved y)).Perm
          ((switch.childrenOfKind .switchCase).flatMap fun y => tally (cur y))) ∧
      List.Forall₂ (IsSortedCase disabled) (sortedCases (cases switch))
        ((switch.children.map (exchange .switchCase cur moved)).filter (·.kind == .switchCase)) := by
  obtain ⟨g, hg⟩ := exists_areSorted hkinded hshaped hkind hreorder hcur
  obtain ⟨source, hsource, hsorted⟩ := hg.exists_source
  have hnode : ∀ y ∈ switch.childrenOfKind .switchCase, ∃ x ∈ cases switch, x.node = y := by
    intro y hy
    rw [← map_node_cases] at hy
    exact List.mem_map.mp hy
  have hmem : ∀ y ∈ switch.childrenOfKind .switchCase, ∃ x ∈ cases switch, source y = g x := by
    intro y hy
    have hy := List.mem_map_of_mem (f := source) hy
    rw [hsource] at hy
    obtain ⟨x, hx, heq⟩ := List.mem_map.mp hy
    exact ⟨x, (sortedCases_perm _).mem_iff.mp hx, heq.symm⟩
  -- no comment is at the edges of a case, so a case stays the same up to spaces when it moves
  have hunspaced : ∀ y ∈ switch.childrenOfKind .switchCase,
      ((source y).transplantTrivia (cur y)).unspaced = (source y).unspaced := by
    intro y hy
    obtain ⟨x, hx, heq⟩ := hmem y hy
    obtain ⟨z, hz, rfl⟩ := hnode y hy
    rw [heq]
    exact Element.unspaced_transplantTrivia
      ((hg.clear x hx).of_sameEdges (hg.resorted x hx).edges) (hg.clear z hz)
  refine ⟨_, hsorted, fun y hy => ?_, fun {β tally} htally => ?_, ?_⟩
  · obtain ⟨x, hx, heq⟩ := hmem y hy
    obtain ⟨z, hz, rfl⟩ := hnode y hy
    rw [heq]
    exact Element.sameEdges_transplantTrivia
      (leaves_ne_nil_of_sameEdges (hg.resorted x hx).edges (hg.leaves x hx)) (hg.leaves z hz)
  · have hmoved : ((switch.childrenOfKind .switchCase).flatMap fun y =>
        tally ((source y).transplantTrivia (cur y))) =
        (sortedCases (cases switch)).flatMap fun x => tally (g x) := by
      rw [List.flatMap_congr fun y hy => htally.unspaced (hunspaced y hy),
        ← List.flatMap_map source tally, hsource, List.flatMap_map]
    rw [hmoved, ← map_node_cases, List.flatMap_map]
    exact (sortedCases_perm _).flatMap_right _ |>.trans
      (List.Perm.flatMap_left _ fun x hx => (hg.resorted x hx).tally htally)
  · have hsortedAll : List.Forall₂ (IsSortedCase disabled) (sortedCases (cases switch))
        ((switch.childrenOfKind .switchCase).map source) := by
      rw [hsource, List.forall₂_map_right_iff, List.forall₂_same]
      exact fun x hx => hg.sorted x ((sortedCases_perm _).mem_iff.mp hx)
    rw [filter_map_exchange (fun y hy => (hcur y hy).intact.kind_eq) fun y hy => ?_]
    · refine forall₂_of_map_unspaced hsortedAll ?_ fun _ _ _ => IsSortedCase.of_unspaced
      rw [List.map_map, List.map_map]
      exact List.map_congr_left hunspaced
    · obtain ⟨x, hx, heq⟩ := hmem y hy
      rw [← Element.kind_unspaced, hunspaced y hy, Element.kind_unspaced, heq, (hg.sorted x hx).kind]

end Switch

/-- A place that is the same as a sorted switch up to spaces shows the cases of the switch in the
order of their keys, and their names ascend. -/
theorem forall₂_cases {es : List Element} (hshaped : switch.element.Shaped)
    (hreorder : canReorder (cases switch) = true)
    (hcases : List.Forall₂ (IsSortedCase disabled) (sortedCases (cases switch))
      (es.filter (·.kind == .switchCase)))
    (hd : d.element.unspaced = (Element.node .switchExpr es).unspaced) :
    List.Forall₂ (fun x y : Case => SameCase disabled x y ∧ y.names.Pairwise (· ≤ ·))
      (sortedCases (cases switch)) (cases d) := by
  have hdistinct := (Bool.and_eq_true_iff.mp hreorder).2
  have hmoved : List.Forall₂ (IsSortedCase disabled) (sortedCases (cases switch))
      (d.element.children.filter (·.kind == .switchCase)) :=
    forall₂_of_map_unspaced hcases
      (map_filter_unspaced (· == .switchCase) (map_children_unspaced hd))
      fun _ _ _ => IsSortedCase.of_unspaced
  have hplaces := forall₂_of_map_element hmoved (map_element_filter (· == .switchCase) d)
  rw [show d.children.filter (·.kind == .switchCase) = (cases d).map Case.node from
    (map_node_cases d).symm, List.forall₂_map_right_iff] at hplaces
  refine forall₂_imp_of_mem hplaces fun x hx y hy h => ?_
  have hx := (sortedCases_perm _).mem_iff.mp hx
  exact sameCase_of_isSortedCase hx hy
    (fun n hn => ne_empty_of_namesDistinct hdistinct n (List.mem_flatMap.mpr ⟨x, hx, hn⟩))
    (shaped_of_mem_children hshaped (mem_cases hx).1) h

/-- Such a place shows a sorted switch. -/
theorem isSortedSwitch_of_intact {es : List Element} (hshaped : switch.element.Shaped)
    (hreorder : canReorder (cases switch) = true)
    (hcases : List.Forall₂ (IsSortedCase disabled) (sortedCases (cases switch))
      (es.filter (·.kind == .switchCase)))
    (hd : d.element.unspaced = (Element.node .switchExpr es).unspaced)
    (h : Intact disabled switch d.element) : IsSortedSwitch disabled switch d := by
  have hpairs := forall₂_cases hshaped hreorder hcases hd
  have hkeys : (cases d).map Case.key = (sortedCases (cases switch)).map Case.key := by
    have hsame : List.Forall₂ Eq ((sortedCases (cases switch)).map Case.key)
        ((cases d).map Case.key) := by
      rw [List.forall₂_map_left_iff, List.forall₂_map_right_iff]
      exact hpairs.imp fun x y h => h.1.key.symm
    rw [List.forall₂_eq_eq_eq] at hsame
    exact hsame.symm
  exact {
    kind := by rw [Cursor.kind, ← Element.kind_unspaced, hd, Element.kind_unspaced]; rfl
    keys := hkeys ▸ pairwise_sortedCases (cases switch)
    names := forall_mem_of_forall₂ (hpairs.imp fun _ _ h => h.2)
    cases := ⟨sortedCases (cases switch), sortedCases_perm _, hpairs.imp fun _ _ h => h.1⟩
    lexemes := h.lexemes.1
    comments := h.comments }

end SortedSwitchCases

end SwiftTidy
