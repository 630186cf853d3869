import Mathlib.Algebra.Order.BigOperators.Group.List
import SwiftTidy.Proofs.Parse.Lexemes
import SwiftTidy.Proofs.Rules.SwitchCases
import SwiftTidy.Proofs.Tree.Unspaced

/-!
# Order of switch cases with checked steps

Sorting with every step checked: names, children and slots must exist, and every node that is built
must fit into 32 bits.  No check fails in a source of less than half the bytes that 32 bits count
(`rule_runsAs`).  Patterns and cases only change slots.  A pattern with a name has a leaf
(`leaves_ne_nil_of_patternName`), so the edges of its slot stay as they were when patterns move, and
what is between the edges of a case gets no longer.  So no switch gets longer when it is sorted, and
none loses or gains leaves (`Keeps`).
-/

namespace SwiftTidy

namespace SortedSwitchCases

/-! ### Sorting with checked steps -/

/-- An element with one child exchanged, which must exist, with the node built. -/
def buildWithChild (e : Element) (index : Nat) (child : Element) : Except Fault Element := do
  let e ← withChild e index child
  Element.build e.kind e.children

/-- Puts elements into places of a list, with all nodes built. -/
def buildFillSlots (es : List Element) : List (Nat × Element) → Except Fault (List Element)
  | [] => .ok es
  | (slot, e) :: rest =>
    match es[slot]? with
    | none => .error .missingChild
    | some old => do
      let e ← e.buildTransplant old
      buildFillSlots (es.set slot e) rest

/-- The items of a label with their patterns in order, each of which must have a name, with all
nodes built. -/
def buildSortPatterns (names : List String) (slots : List (Nat × Element)) :
    Except Fault (List (Nat × Element)) :=
  if names.length < slots.length then .error .missingChild
  else do
    let patterns ← slots.mapM fun (_, item) => childAt item 0
    let sorted := ((names.zip patterns).mergeSort fun a b => a.1 ≤ b.1).map (·.2)
    (slots.zip (patterns.zip sorted)).mapM fun ((slot, item), old, new) => do
      let new ← new.buildTransplant old
      return (slot, ← buildWithChild item 0 new)

/-- A case with the items of its label in order, with all nodes built. -/
def buildSortItems (c : Case) (current : Element) : Except Fault Element := do
  match c.label, current with
  | some label, .node _ _ =>
    if c.itemsSorted then return current
    else
      match ← childAt current label.index with
      | .token _ => return current
      | .node k es =>
        let found ← (items label).mapM fun item => do
          return (item.index, ← childAt (.node k es) item.index)
        let slots := found.filter fun (_, item) => item.token?.isNone
        let sorted ← buildSortPatterns c.names slots
        let label' ← Element.build k (sorted.foldl (fun es (slot, item) => es.set slot item) es)
        buildWithChild current label.index label'
  | _, _ => return current

/-- A switch with its cases in order and their items too, with all nodes built. -/
def buildSortCases (cs : List Case) (current : Element) : Except Fault Element := do
  let moved ← cs.mapM fun c => do buildSortItems c (← childAt current c.node.index)
  let sorted := ((cs.zip moved).mergeSort fun a b => keyLe a.1.key b.1.key).map (·.2)
  let es ← buildFillSlots current.children ((cs.map (·.node.index)).zip sorted)
  Element.build current.kind es

/-- Sorts the cases of switches and builds all nodes. -/
def buildFixer : Fixer Unit where
  node c current _ := do
    if c.kind != .switchExpr then return (none, ())
    else
      let cs := cases c
      match disorder? c cs with
      | none => return (none, ())
      | some position =>
        if canReorder cs then
          return (some ⟨← buildSortCases cs current, position, [], none⟩, ())
        else return (none, ())

/-- The rule with all nodes built. -/
def checkedRule (severity : Severity) : Rule :=
  { rule severity with fixer? := some fun _ => buildFixer }

/-- The rule with all nodes built, before it is configured. -/
def checkedEntry : RuleEntry := .ofSeverity description checkedRule

/-! ### Names are those of leaves -/

theorem leaves_ne_nil_of_text {e : Element} (h : e.text ≠ "") : e.leaves ≠ [] := by
  intro hleaves
  refine h ?_
  rw [Element.text, Element.withLeading, Element.mapFirstToken_of_leaves_eq_nil hleaves,
    Element.withTrailing, Element.mapLastToken_of_leaves_eq_nil hleaves, Element.fullText, hleaves]
  rfl

theorem leavesAll_ne_nil {e : Element} {es : List Element} (he : e ∈ es) (h : e.leaves ≠ []) :
    Element.leavesAll es ≠ [] := by
  obtain ⟨front, back, rfl⟩ := List.append_of_mem he
  rw [Element.leavesAll_append, Element.leavesAll_cons]
  simp [h]

theorem leaves_ne_nil_of_firstTokenOf? {k : SyntaxKind} {es : List Element} {t : Token}
    (h : Element.firstTokenOf? es = some t) : (Element.node k es).leaves ≠ [] := by
  rw [Element.firstTokenOf?_eq] at h
  rw [Element.leaves_node]
  intro hnil
  rw [hnil] at h
  cases h

/-- An expression with a name has a leaf. -/
theorem leaves_ne_nil_of_expressionName : ∀ e : Element, expressionName e ≠ "" → e.leaves ≠ [] := by
  intro e
  induction e using expressionName.induct with
  | case1 es =>
    intro h
    rw [expressionName] at h
    cases hlast : es.getLast? with
    | none => rw [hlast] at h; exact absurd rfl h
    | some e =>
      rw [hlast] at h
      rw [Element.leaves_node]
      exact leavesAll_ne_nil (List.mem_of_getLast? hlast) (leaves_ne_nil_of_text h)
  | case2 f rest ih =>
    intro h
    rw [expressionName] at h
    rw [Element.leaves_node]
    exact leavesAll_ne_nil List.mem_cons_self (ih h)
  | case3 es =>
    intro h
    rw [expressionName] at h
    cases hfirst : Element.firstTokenOf? es with
    | none => rw [hfirst] at h; exact absurd rfl h
    | some t => exact leaves_ne_nil_of_firstTokenOf? hfirst
  | case4 es t hfirst hkind => exact fun _ => leaves_ne_nil_of_firstTokenOf? hfirst
  | case5 es t hfirst hkind => exact fun _ => leaves_ne_nil_of_firstTokenOf? hfirst
  | case6 es hfirst =>
    intro h
    rw [expressionName, hfirst] at h
    exact absurd rfl h
  | case7 e hmember hcall hname hliteral =>
    intro h
    rw [expressionName] at h
    all_goals first | exact absurd rfl h | assumption

mutual
/-- A pattern with a name has a leaf. -/
theorem leaves_ne_nil_of_patternName : ∀ e : Element, patternName e ≠ "" → e.leaves ≠ []
  | .token t, h => by
    rw [patternName] at h
    exact absurd rfl h
    all_goals nofun
  | .node k es, h => by
    rw [Element.leaves_node]
    by_cases hbinding : k = .valueBindingPattern
    · rw [hbinding, patternName] at h
      exact leavesAll_ne_nil_of_lastPatternName es h
    by_cases hexpression : k = .expressionPattern
    · rw [hexpression, patternName] at h
      cases hhead : es.head? with
      | none => rw [hhead] at h; exact absurd rfl h
      | some e =>
        rw [hhead] at h
        exact leavesAll_ne_nil (List.mem_of_head? hhead) (leaves_ne_nil_of_expressionName e h)
    · rw [patternName] at h
      · exact absurd rfl h
      · intro es' heq
        exact hbinding (Element.node.inj heq).1
      · intro es' heq
        exact hexpression (Element.node.inj heq).1
theorem leavesAll_ne_nil_of_lastPatternName : ∀ es : List Element, lastPatternName es ≠ "" →
    Element.leavesAll es ≠ []
  | [], h => by
    rw [lastPatternName] at h
    exact absurd rfl h
  | [e], h => by
    rw [lastPatternName] at h
    exact leavesAll_ne_nil List.mem_cons_self (leaves_ne_nil_of_patternName e h)
  | d :: e :: es, h => by
    rw [lastPatternName] at h
    have hrest := leavesAll_ne_nil_of_lastPatternName (e :: es) h
    rw [Element.leavesAll_cons]
    exact fun hnil => hrest (List.append_eq_nil_iff.mp hnil).2
end

/-! ### What may have changed below a switch -/

/-- An element after its switches were sorted: it is the same down to the switches, and these have
as many leaves as before and are not longer. -/
inductive Keeps : Element → Element → Prop where
  | token (t : Token) : Keeps (.token t) (.token t)
  | node (k : SyntaxKind) {es es' : List Element} (h : List.Forall₂ Keeps es es') :
    Keeps (.node k es) (.node k es')
  | switch {es es' : List Element}
    (hleaves : (Element.leavesAll es').length = (Element.leavesAll es).length)
    (hlen : Element.fullLenAll es' ≤ Element.fullLenAll es) :
    Keeps (.node .switchExpr es) (.node .switchExpr es')

theorem Keeps.kind_eq {e e' : Element} (h : Keeps e e') : e'.kind = e.kind := by
  cases h <;> rfl

mutual
/-- Sorting neither drops nor adds leaves, and makes nothing longer. -/
theorem Keeps.leaves : ∀ {e e' : Element}, Keeps e e' →
    e'.leaves.length = e.leaves.length ∧ e'.fullLen ≤ e.fullLen
  | .token t, e', h => by
    cases h
    exact ⟨rfl, Nat.le_refl _⟩
  | .node k es, e', h => by
    cases h with
    | node _ hes =>
      rw [Element.leaves_node, Element.leaves_node, Element.fullLen, Element.fullLen]
      exact leavesAll_of_keeps hes
    | switch hleaves hlen =>
      rw [Element.leaves_node, Element.leaves_node, Element.fullLen, Element.fullLen]
      exact ⟨hleaves, hlen⟩
theorem leavesAll_of_keeps : ∀ {es es' : List Element}, List.Forall₂ Keeps es es' →
    (Element.leavesAll es').length = (Element.leavesAll es).length ∧
      Element.fullLenAll es' ≤ Element.fullLenAll es
  | [], es', h => by
    cases h
    exact ⟨rfl, Nat.le_refl _⟩
  | e :: es, es', h => by
    cases h with
    | cons hhead htail =>
      obtain ⟨hleaves, hlen⟩ := Keeps.leaves hhead
      obtain ⟨hrest, hrestLen⟩ := leavesAll_of_keeps htail
      rw [Element.leavesAll_cons, Element.leavesAll_cons, List.length_append, List.length_append,
        Element.fullLenAll, Element.fullLenAll]
      omega
end

/-- The children of what has become of a node are what became of them, unless it is a switch. -/
theorem Keeps.children {e : Element} {k : SyntaxKind} {es' : List Element}
    (h : Keeps e (.node k es')) (hk : k ≠ .switchExpr) : List.Forall₂ Keeps e.children es' := by
  cases h with
  | node _ hes => exact hes
  | switch => exact absurd rfl hk

/-- A child of what has become of an element is what has become of the child. -/
theorem exists_childAt_of_keeps {p x : Cursor} (k : SyntaxKind) {es' : List Element}
    (h : List.Forall₂ Keeps p.element.children es') (hx : x ∈ p.children) :
    ∃ r, es'[x.index]? = some r ∧ childAt (.node k es') x.index = .ok r ∧ Keeps x.element r := by
  obtain ⟨front, e, back, hchildren, rfl⟩ := Cursor.exists_of_mem_children hx
  rw [hchildren] at h
  obtain ⟨r, hr, hkeeps⟩ := exists_getElem?_of_forall₂ h
  refine ⟨r, hr, ?_, hkeeps⟩
  rw [childAt, Cursor.index, Element.children, hr]

/-! ### Items -/

theorem withChild_eq_ok (k : SyntaxKind) {es : List Element} {i : Nat} (h : i < es.length)
    (child : Element) : withChild (.node k es) i child = .ok (.node k (es.set i child)) := by
  rw [withChild, Element.replaceChild?, if_pos h]

theorem buildWithChild_eq_ok (k : SyntaxKind) {es : List Element} {i : Nat} (h : i < es.length)
    {child : Element} (hlen : Element.fullLenAll (es.set i child) < Offset.limit) :
    buildWithChild (.node k es) i child = .ok (.node k (es.set i child)) := by
  rw [buildWithChild, withChild_eq_ok k h]
  exact Element.build_eq_ok k hlen

/-- An item of a label at an index: its pattern, and what else is in it. -/
structure Item where
  slot : Nat
  kind : SyntaxKind
  pattern : Element
  rest : List Element
  deriving Inhabited

namespace Item

/-- The item as an element. -/
def element (a : Item) : Element := .node a.kind (a.pattern :: a.rest)

/-- The item with another pattern in its slot. -/
def withPattern (a : Item) (new : Element) : Element :=
  .node a.kind (new.transplantTrivia a.pattern :: a.rest)

/-- A pattern that moves into an item brings what is between its edges. -/
theorem fullLen_withPattern_le (a : Item) (new : Element) :
    (a.withPattern new).fullLen + a.pattern.len ≤ a.element.fullLen + new.len := by
  have hnew := Element.fullLen_transplantTrivia_le new a.pattern
  have hold := (Element.len_add a.pattern).1
  rw [withPattern, element, Element.fullLen, Element.fullLen, Element.fullLenAll,
    Element.fullLenAll]
  omega

/-- A pattern that moves into an item brings its leaves. -/
theorem length_leaves_withPattern (a : Item) (new : Element) :
    (a.withPattern new).leaves.length + a.pattern.leaves.length =
      a.element.leaves.length + new.leaves.length := by
  have hnew : (new.transplantTrivia a.pattern).leaves.length = new.leaves.length :=
    Element.sameLeafCount_transplantTrivia new a.pattern
  rw [withPattern, element, Element.leaves_node, Element.leaves_node, Element.leavesAll_cons,
    Element.leavesAll_cons, List.length_append, List.length_append, hnew]
  omega

theorem sameEdges_withPattern (a : Item) {new : Element} (hpattern : a.pattern.leaves ≠ [])
    (hnew : new.leaves ≠ []) : Element.SameEdges a.element (a.withPattern new) :=
  .node a.kind (.cons (Element.sameEdges_transplantTrivia hnew hpattern)
    (List.forall₂_same.mpr fun e _ => .refl e))

end Item

/-- The exchanges of items when patterns move into them one by one. -/
def moves (as : List Item) (patterns : List Element) : List Element.Move :=
  (as.zip patterns).map fun x => ⟨x.1.slot, x.1.element, x.1.withPattern x.2⟩

theorem sum_zip_fst {α β : Type} {xs : List α} {ys : List β} (weight : α → Nat)
    (h : xs.length ≤ ys.length) :
    ((xs.zip ys).map fun x => weight x.1).sum = (xs.map weight).sum := by
  have hmap := congrArg (List.map weight) (List.map_fst_zip h)
  rw [List.map_map] at hmap
  exact congrArg List.sum hmap

theorem sum_zip_snd {α β : Type} {xs : List α} {ys : List β} (weight : β → Nat)
    (h : ys.length ≤ xs.length) :
    ((xs.zip ys).map fun x => weight x.2).sum = (ys.map weight).sum := by
  have hmap := congrArg (List.map weight) (List.map_snd_zip h)
  rw [List.map_map] at hmap
  exact congrArg List.sum hmap

/-- If each pair weighs what its left part does, without a core, and what its right part does, then
all pairs weigh no more than the left parts, when the right parts weigh no more than the cores. -/
theorem sum_zip_le {α β : Type} {xs : List α} {ys : List β} {weight : α → β → Nat}
    {left core : α → Nat} {right : β → Nat} (hlength : ys.length = xs.length)
    (h : ∀ x y, weight x y + core x ≤ left x + right y)
    (hcore : (ys.map right).sum ≤ (xs.map core).sum) :
    ((xs.zip ys).map fun x => weight x.1 x.2).sum ≤ (xs.map left).sum := by
  have hsum := List.sum_le_sum (l := xs.zip ys) fun x _ => h x.1 x.2
  rw [List.sum_map_add, List.sum_map_add, sum_zip_fst core hlength.ge,
    sum_zip_fst left hlength.ge, sum_zip_snd right hlength.le] at hsum
  omega

section Moves

variable {as : List Item} {patterns : List Element}

/-- Patterns that change places make the items together no longer. -/
theorem sum_fullLen_moves_le (h : patterns.Perm (as.map (·.pattern))) :
    ((moves as patterns).map fun m => m.new.fullLen).sum ≤
      (as.map fun a => a.element.fullLen).sum := by
  have hlength : patterns.length = as.length := by rw [h.length_eq, List.length_map]
  have hcores := (h.map Element.len).sum_eq
  rw [List.map_map] at hcores
  rw [moves, List.map_map]
  exact sum_zip_le hlength Item.fullLen_withPattern_le hcores.le

/-- Patterns that change places leave the items together as many leaves. -/
theorem sum_length_leaves_moves (h : patterns.Perm (as.map (·.pattern))) :
    ((moves as patterns).map fun m => m.new.leaves.length).sum =
      (as.map fun a => a.element.leaves.length).sum := by
  have hlength : patterns.length = as.length := by rw [h.length_eq, List.length_map]
  have hsum := congrArg List.sum (List.map_congr_left (l := as.zip patterns)
    fun x _ => x.1.length_leaves_withPattern x.2)
  have hcounts := (h.map fun e => e.leaves.length).sum_eq
  rw [List.map_map] at hcounts
  rw [List.sum_map_add, List.sum_map_add, sum_zip_fst (fun a => a.pattern.leaves.length) hlength.ge,
    sum_zip_fst (fun a => a.element.leaves.length) hlength.ge,
    sum_zip_snd (fun e => e.leaves.length) hlength.le, hcounts] at hsum
  rw [moves, List.map_map]
  exact Nat.add_right_cancel hsum

theorem map_slot_moves (h : as.length ≤ patterns.length) :
    (moves as patterns).map (·.slot) = as.map (·.slot) := by
  have hmap := congrArg (List.map Item.slot) (List.map_fst_zip h)
  rw [List.map_map] at hmap
  rw [moves, List.map_map]
  exact hmap

theorem zip_map_zip_map {α β γ δ : Type} (f : α → β) (g : α → γ) (xs : List α) (ys : List δ) :
    (xs.map f).zip ((xs.map g).zip ys) = (xs.zip ys).map fun x => (f x.1, g x.1, x.2) := by
  induction xs generalizing ys with
  | nil => rfl
  | cons x xs ih =>
    cases ys with
    | nil => rfl
    | cons y ys => simp [ih]

/-- Items that have names exchange their patterns, and all nodes are built. -/
theorem sortPatterns_eq {names : List String} (hnames : as.length ≤ names.length)
    (hlen : 2 * (as.map fun a => a.element.fullLen).sum < Offset.limit) :
    ∃ patterns, patterns.Perm (as.map (·.pattern)) ∧
      sortPatterns names (as.map fun a => (a.slot, a.element)) =
        .ok ((moves as patterns).map fun m => (m.slot, m.new)) ∧
      buildSortPatterns names (as.map fun a => (a.slot, a.element)) =
        .ok ((moves as patterns).map fun m => (m.slot, m.new)) := by
  have hpatterns : (as.map fun a => (a.slot, a.element)).mapM (fun x => childAt x.2 0) =
      .ok (as.map (·.pattern)) := by
    rw [List.mapM_map]
    exact Except.mapM_eq_ok fun a _ => rfl
  obtain ⟨sorted, hsorted⟩ : ∃ sorted, ((names.zip (as.map (·.pattern))).mergeSort
      fun a b => a.1 ≤ b.1).map (·.2) = sorted := ⟨_, rfl⟩
  have hperm : sorted.Perm (as.map (·.pattern)) := by
    have hsnd : (names.zip (as.map (·.pattern))).map Prod.snd = as.map (·.pattern) :=
      List.map_snd_zip (by rwa [List.length_map])
    have hsort := (List.mergeSort_perm (names.zip (as.map (·.pattern)))
      fun a b => a.1 ≤ b.1).map Prod.snd
    rwa [hsnd, hsorted] at hsort
  have hzip := zip_map_zip_map (fun a : Item => (a.slot, a.element)) (fun a => a.pattern) as sorted
  have hmoves : (moves as sorted).map (fun m => (m.slot, m.new)) =
      (as.zip sorted).map fun x => (x.1.slot, x.1.withPattern x.2) := by
    rw [moves, List.map_map]
    rfl
  -- a pattern is a part of its item, so an exchange at most doubles the length
  have hpattern : ∀ a ∈ as, 2 * a.pattern.fullLen ≤ 2 * (as.map fun a => a.element.fullLen).sum := by
    intro a ha
    have hle := List.le_sum_of_mem (List.mem_map_of_mem (f := fun a : Item => a.element.fullLen) ha)
    have hmem : a.pattern.fullLen ≤ a.element.fullLen := by
      rw [Item.element, Element.fullLen, Element.fullLenAll]
      exact Nat.le_add_right _ _
    omega
  refine ⟨sorted, hperm, ?_, ?_⟩
  · simp only [sortPatterns, hpatterns, bind, Except.bind, hsorted, hzip, hmoves]
    rw [List.mapM_map]
    exact Except.mapM_eq_ok fun x _ => rfl
  · rw [buildSortPatterns, List.length_map, if_neg (by omega)]
    simp only [hpatterns, bind, Except.bind, hsorted, hzip, hmoves]
    rw [List.mapM_map]
    refine Except.mapM_eq_ok fun x hx => ?_
    obtain ⟨ha, hnew⟩ := List.of_mem_zip hx
    obtain ⟨b, hb, hnew⟩ := List.mem_map.mp (hperm.mem_iff.mp hnew)
    have hold := hpattern x.1 ha
    have hnewLen := hpattern b hb
    rw [hnew] at hnewLen
    have hitem := x.1.fullLen_withPattern_le x.2
    have hitemLe := List.le_sum_of_mem
      (List.mem_map_of_mem (f := fun a : Item => a.element.fullLen) ha)
    have hcore := (Element.len_add x.2).1
    have hmove : x.2.buildTransplant x.1.pattern = .ok (x.2.transplantTrivia x.1.pattern) :=
      Element.buildTransplant_eq_ok (by omega)
    have hnode : buildWithChild x.1.element 0 (x.2.transplantTrivia x.1.pattern) =
        .ok (x.1.withPattern x.2) := by
      rw [Item.withPattern, Element.fullLen] at hitem
      exact buildWithChild_eq_ok x.1.kind (Nat.zero_lt_succ _)
        (by rw [List.set_cons_zero]; omega)
    simp only [Function.comp, hmove, hnode]
    rfl

end Moves

/-- The items of a label that have names are there with patterns that have leaves. -/
theorem exists_items {label : Cursor} (k : SyntaxKind) {es : List Element}
    (hkinded : label.element.WellKinded)
    (hnames : ∀ item ∈ items label, itemName item.element ≠ "")
    (hkeeps : List.Forall₂ Keeps label.element.children es) :
    ∃ as : List Item, as.map (·.slot) = (items label).map (·.index) ∧
      ((items label).mapM fun item => do
        return (item.index, ← childAt (.node k es) item.index) : Except Fault _) =
          .ok (as.map fun a => (a.slot, a.element)) ∧
      ∀ a ∈ as, es[a.slot]? = some a.element ∧ a.pattern.leaves ≠ [] := by
  have hitem : ∀ item ∈ items label, ∃ a : Item, a.slot = item.index ∧
      childAt (.node k es) item.index = .ok a.element ∧ es[a.slot]? = some a.element ∧
      a.pattern.leaves ≠ [] := by
    intro item hmem
    obtain ⟨hchild, hkind⟩ := List.mem_filter.mp hmem
    have hkind : item.kind = .switchCaseItem := by simpa using hkind
    obtain ⟨r, hr, hchildAt, hrKeeps⟩ := exists_childAt_of_keeps k hkeeps hchild
    have hname := hnames item hmem
    have hitemKinded := Cursor.wellKinded_of_mem_children hkinded hchild
    rw [Cursor.kind] at hkind
    cases hitem : item.element with
    | token t =>
      rw [hitem] at hkind hitemKinded
      have hkind : t.kind = .switchCaseItem := hkind
      have htoken := (Element.wellKinded_token t).mp hitemKinded
      rw [hkind] at htoken
      exact absurd htoken (by decide)
    | node j fs =>
      rw [hitem] at hkind hname hrKeeps
      have hj : j = .switchCaseItem := hkind
      cases fs with
      | nil => exact absurd rfl hname
      | cons p rest =>
        have hp : p.leaves ≠ [] := leaves_ne_nil_of_patternName p hname
        cases hrKeeps with
        | switch => cases hj
        | node _ hfs =>
          cases hfs with
          | @cons _ p' _ rest' hpKeeps hrest =>
            refine ⟨⟨item.index, j, p', rest'⟩, rfl, hchildAt, hr, ?_⟩
            rw [Ne, ← List.length_eq_zero_iff, hpKeeps.leaves.1, List.length_eq_zero_iff]
            exact hp
  -- the three parts of the statement read off what is known of each item
  choose! g hg using hitem
  refine ⟨(items label).map g, ?_, ?_, ?_⟩
  · rw [List.map_map]
    exact List.map_congr_left fun item hmem => (hg item hmem).1
  · rw [List.map_map]
    refine Except.mapM_eq_ok fun item hmem => ?_
    obtain ⟨hslot, hchildAt, -⟩ := hg item hmem
    simp only [hchildAt, bind, Except.bind, Function.comp, hslot]
    rfl
  · intro a ha
    obtain ⟨item, hmem, rfl⟩ := List.mem_map.mp ha
    exact (hg item hmem).2.2

/-- What sorting the items of an element keeps: its edges, its leaves, and that it is not longer. -/
structure Rearranged (e e' : Element) : Prop where
  edges : Element.SameEdges e e'
  leaves : e'.leaves.length = e.leaves.length
  fullLen_le : e'.fullLen ≤ e.fullLen

theorem Rearranged.refl (e : Element) : Rearranged e e := ⟨.refl e, rfl, Nat.le_refl _⟩

/-- A node in which one child is rearranged is rearranged. -/
theorem Rearranged.set {k : SyntaxKind} {es : List Element} {i : Nat} {old new : Element}
    (hold : es[i]? = some old) (h : Rearranged old new) :
    Rearranged (.node k es) (.node k (es.set i new)) where
  edges := .node k (forall₂_set (List.forall₂_same.mpr fun e _ => .refl e) hold
    fun e he => he.trans h.edges)
  leaves := by
    rw [Element.leaves_node, Element.leaves_node]
    exact Element.length_leavesAll_set hold h.leaves
  fullLen_le := by
    have hset := Element.fullLenAll_set hold new
    have hle := h.fullLen_le
    rw [Element.fullLen, Element.fullLen]
    omega

/-- Items at different indices are together no longer than the label. -/
theorem sum_fullLen_le {es : List Element} {as : List Item} (hdistinct : (as.map (·.slot)).Nodup)
    (has : ∀ a ∈ as, es[a.slot]? = some a.element) :
    (as.map fun a => a.element.fullLen).sum ≤ Element.fullLenAll es := by
  -- without the items the label would be shorter by as much as they are long
  have hmoves : Element.AreMoves es (as.map fun a => ⟨a.slot, a.element, .node a.kind []⟩) := by
    refine ⟨fun m hm => ?_, by rwa [List.map_map]⟩
    obtain ⟨a, ha, rfl⟩ := List.mem_map.mp hm
    exact has a ha
  have hsum := Element.sum_map_setAll Element.fullLen hmoves
  rw [List.map_map, List.map_map, Element.sum_map_fullLen, Element.sum_map_fullLen] at hsum
  have hnone : (as.map ((fun m : Element.Move => m.new.fullLen) ∘
      fun a : Item => ⟨a.slot, a.element, .node a.kind []⟩)).sum = 0 := by
    refine List.sum_eq_zero fun n hn => ?_
    obtain ⟨a, -, rfl⟩ := List.mem_map.mp hn
    rw [Function.comp, Element.fullLen, Element.fullLenAll]
  rw [hnone, Nat.add_zero] at hsum
  exact hsum ▸ Nat.le_add_left _ _

/-- A label whose items exchange their patterns is rearranged. -/
theorem rearranged_setAll (k : SyntaxKind) {es patterns : List Element} {as : List Item}
    (hdistinct : (as.map (·.slot)).Nodup)
    (has : ∀ a ∈ as, es[a.slot]? = some a.element ∧ a.pattern.leaves ≠ [])
    (h : patterns.Perm (as.map (·.pattern))) :
    Rearranged (.node k es) (.node k (Element.setAll es (moves as patterns))) := by
  have hlength : patterns.length = as.length := by rw [h.length_eq, List.length_map]
  have hmem : ∀ m ∈ moves as patterns, ∃ a ∈ as, ∃ p ∈ patterns,
      m = ⟨a.slot, a.element, a.withPattern p⟩ := by
    intro m hm
    obtain ⟨x, hx, rfl⟩ := List.mem_map.mp hm
    obtain ⟨ha, hp⟩ := List.of_mem_zip hx
    exact ⟨x.1, ha, x.2, hp, rfl⟩
  have hmoves : Element.AreMoves es (moves as patterns) := by
    refine ⟨fun m hm => ?_, by rwa [map_slot_moves hlength.ge]⟩
    obtain ⟨a, ha, p, -, rfl⟩ := hmem m hm
    exact (has a ha).1
  have hold : ∀ weight : Element → Nat, ((moves as patterns).map fun m => weight m.old).sum =
      (as.map fun a => weight a.element).sum := by
    intro weight
    rw [moves, List.map_map]
    exact sum_zip_fst (fun a => weight a.element) hlength.ge
  constructor
  · refine .node k (Element.forall₂_sameEdges_setAll (List.forall₂_same.mpr fun e _ => .refl e)
      hmoves fun m hm => ?_)
    obtain ⟨a, ha, p, hp, rfl⟩ := hmem m hm
    obtain ⟨b, hb, rfl⟩ := List.mem_map.mp (h.mem_iff.mp hp)
    exact a.sameEdges_withPattern (has a ha).2 (has b hb).2
  · have hsum := Element.sum_map_setAll (fun e => e.leaves.length) hmoves
    rw [hold fun e => e.leaves.length, sum_length_leaves_moves h, Element.sum_map_length_leaves,
      Element.sum_map_length_leaves] at hsum
    rw [Element.leaves_node, Element.leaves_node]
    exact Nat.add_right_cancel hsum
  · have hsum := Element.sum_map_setAll Element.fullLen hmoves
    have hle := sum_fullLen_moves_le h
    rw [hold Element.fullLen, Element.sum_map_fullLen, Element.sum_map_fullLen] at hsum
    rw [Element.fullLen, Element.fullLen]
    omega

/-- The items of a label are sorted with all nodes built. -/
theorem exists_sortLabel {label : Cursor} (k : SyntaxKind) {es : List Element}
    (hkinded : label.element.WellKinded)
    (hnames : ∀ item ∈ items label, itemName item.element ≠ "")
    (hkeeps : List.Forall₂ Keeps label.element.children es)
    (hlen : 2 * Element.fullLenAll es < Offset.limit) :
    ∃ found sorted, ((items label).mapM fun item => do
        return (item.index, ← childAt (.node k es) item.index) : Except Fault _) = .ok found ∧
      sortPatterns ((items label).map fun item => itemName item.element)
        (found.filter (·.2.token?.isNone)) = .ok sorted ∧
      buildSortPatterns ((items label).map fun item => itemName item.element)
        (found.filter (·.2.token?.isNone)) = .ok sorted ∧
      Rearranged (.node k es)
        (.node k (sorted.foldl (fun es x => es.set x.1 x.2) es)) := by
  obtain ⟨as, hslots, hfound, has⟩ := exists_items k hkinded hnames hkeeps
  have hdistinct : (as.map (·.slot)).Nodup := by
    rw [hslots]
    exact label.map_index_children_nodup.sublist (List.filter_sublist.map _)
  have hlength : as.length ≤ ((items label).map fun item => itemName item.element).length := by
    have heq := congrArg List.length hslots
    rw [List.length_map, List.length_map] at heq
    rw [List.length_map, heq]
  have hfilter : (as.map fun a => (a.slot, a.element)).filter (·.2.token?.isNone) =
      as.map fun a => (a.slot, a.element) := by
    refine List.filter_eq_self.mpr fun x hx => ?_
    obtain ⟨a, -, rfl⟩ := List.mem_map.mp hx
    rfl
  have hsum := sum_fullLen_le hdistinct fun a ha => (has a ha).1
  obtain ⟨patterns, hperm, hsorted, hbuilt⟩ := sortPatterns_eq hlength (by omega)
  refine ⟨_, _, hfound, by rw [hfilter, hsorted], by rw [hfilter, hbuilt], ?_⟩
  rw [List.foldl_map]
  exact rearranged_setAll k hdistinct has hperm

/-! ### Cases -/

/-- The names of a case are those of the items of its label. -/
theorem names_of_mem_cases {switch : Cursor} {c : Case} (h : c ∈ cases switch) {label : Cursor}
    (hlabel : c.label = some label) :
    c.names = (items label).map fun item => itemName item.element := by
  obtain ⟨node, -, rfl⟩ := List.mem_map.mp h
  have hlabel : node.childOfKind? .switchCaseLabel = some label := hlabel
  simp only [hlabel, Option.toList_some, List.flatMap_singleton]

/-- What has become of a case is rearranged when its items are sorted, with all nodes built. -/
theorem exists_rearranged {switch : Cursor} {c : Case} {current : Element} (hc : c ∈ cases switch)
    (hnames : ∀ n ∈ c.names, n ≠ "") (hkinded : c.node.element.WellKinded)
    (hkeeps : Keeps c.node.element current) (hlen : 2 * current.fullLen < Offset.limit) :
    ∃ r, sortItems c current = .ok r ∧ buildSortItems c current = .ok r ∧
      Rearranged current r := by
  obtain ⟨-, hkind, hlabel⟩ := mem_cases hc
  cases hl : c.label with
  | none =>
    exact ⟨current, by simp only [sortItems, hl]; rfl, by simp only [buildSortItems, hl]; rfl,
      .refl current⟩
  | some label =>
    cases current with
    | token t =>
      exact ⟨.token t, by simp only [sortItems, hl]; rfl, by simp only [buildSortItems, hl]; rfl,
        .refl _⟩
    | node k es =>
      have hk : k = .switchCase := hkeeps.kind_eq.trans hkind
      obtain ⟨hmem, hlabelKind⟩ := hlabel label hl
      obtain ⟨r, hr, hchild, hrKeeps⟩ := exists_childAt_of_keeps k
        (hkeeps.children (by rw [hk]; decide)) hmem
      simp only [sortItems, buildSortItems, hl, hchild]
      split_ifs
      · exact ⟨_, rfl, rfl, .refl _⟩
      · cases r with
        | token t => exact ⟨_, rfl, rfl, .refl _⟩
        | node j fs =>
          -- the label is rebuilt in the case, and the case in the switch: neither gets longer
          have hj : j = .switchCaseLabel := hrKeeps.kind_eq.trans hlabelKind
          have hrLen := Element.fullLen_le_of_mem (List.mem_of_getElem? hr)
          rw [Element.fullLen] at hlen hrLen
          rw [names_of_mem_cases hc hl] at hnames ⊢
          obtain ⟨found, sorted, hfound, hsorted, hbuilt, hlabelled⟩ := exists_sortLabel j
            (Cursor.wellKinded_of_mem_children hkinded hmem)
            (fun item hitem => hnames _ (List.mem_map_of_mem hitem))
            (hrKeeps.children (by rw [hj]; decide)) (by omega)
          have hcase : Rearranged (.node k es) (.node k (es.set label.index
              (.node j (sorted.foldl (fun es x => es.set x.1 x.2) fs)))) :=
            .set hr hlabelled
          have hlt := (List.getElem?_eq_some_iff.mp hr).1
          have hlabelLen := hlabelled.fullLen_le
          have hcaseLen := hcase.fullLen_le
          rw [Element.fullLen, Element.fullLen] at hlabelLen hcaseLen
          refine ⟨_, ?_, ?_, hcase⟩
          · simp only [bind, Except.bind] at hfound ⊢
            rw [hfound]
            simp only [hsorted]
            exact withChild_eq_ok k hlt _
          · simp only [bind, Except.bind] at hfound ⊢
            rw [hfound]
            simp only [hbuilt]
            rw [Element.build_eq_ok j (by omega)]
            exact buildWithChild_eq_ok k hlt (by omega)

/-- An element that moves into the slot of another. -/
def intoSlot (slot : Nat) (old new : Element) : Element.Move :=
  ⟨slot, old, new.transplantTrivia old⟩

/-- Elements are put into slots with all nodes built. -/
theorem fillSlots_eq {es : List Element} {xs : List (Nat × Element × Element)}
    (hmoves : Element.AreMoves es (xs.map fun x => intoSlot x.1 x.2.1 x.2.2))
    (hlen : ∀ x ∈ xs, x.2.2.fullLen + x.2.1.fullLen < Offset.limit) :
    fillSlots es (xs.map fun x => (x.1, x.2.2)) =
        .ok (Element.setAll es (xs.map fun x => intoSlot x.1 x.2.1 x.2.2)) ∧
      buildFillSlots es (xs.map fun x => (x.1, x.2.2)) =
        .ok (Element.setAll es (xs.map fun x => intoSlot x.1 x.2.1 x.2.2)) := by
  induction xs generalizing es with
  | nil => exact ⟨rfl, rfl⟩
  | cons x xs ih =>
    rw [List.forall_mem_cons] at hlen
    have hold : es[x.1]? = some x.2.1 := hmoves.there _ List.mem_cons_self
    obtain ⟨hfill, hbuild⟩ := ih hmoves.tail hlen.2
    rw [List.map_cons, fillSlots, buildFillSlots, hold]
    dsimp only
    rw [Element.buildTransplant_eq_ok hlen.1]
    exact ⟨hfill, hbuild⟩

/-- What moves into a slot brings what is between its edges. -/
theorem fullLen_intoSlot_le (slot : Nat) (old new : Element) :
    (intoSlot slot old new).new.fullLen + old.len ≤ old.fullLen + new.len := by
  have hnew := Element.fullLen_transplantTrivia_le new old
  have hold := (Element.len_add old).1
  show (new.transplantTrivia old).fullLen + old.len ≤ _
  omega

section Slots

variable {α : Type} {xs : List α} {slot : α → Nat} {old moved : α → Element}
  {sorted es : List Element}

variable (slot) in
/-- Elements that were rearranged and then put into each other's slots are together no longer. -/
theorem sum_fullLen_intoSlot_le (hmoved : ∀ x ∈ xs, Rearranged (old x) (moved x))
    (hperm : sorted.Perm (xs.map moved)) :
    ((xs.zip sorted).map fun x => (intoSlot (slot x.1) (old x.1) x.2).new.fullLen).sum ≤
      (xs.map fun x => (old x).fullLen).sum := by
  have hlength : sorted.length = xs.length := by rw [hperm.length_eq, List.length_map]
  refine sum_zip_le hlength (fun x y => fullLen_intoSlot_le (slot x) (old x) y) ?_
  have hcores := (hperm.map Element.len).sum_eq
  rw [List.map_map] at hcores
  rw [hcores]
  exact List.sum_le_sum fun x hx => (hmoved x hx).edges.len_le (hmoved x hx).fullLen_le

/-- Elements that were rearranged and then put into each other's slots have together as many
leaves. -/
theorem sum_length_leaves_intoSlot (hmoved : ∀ x ∈ xs, Rearranged (old x) (moved x))
    (hperm : sorted.Perm (xs.map moved)) :
    ((xs.zip sorted).map fun x => (intoSlot (slot x.1) (old x.1) x.2).new.leaves.length).sum =
      (xs.map fun x => (old x).leaves.length).sum := by
  have hlength : sorted.length = xs.length := by rw [hperm.length_eq, List.length_map]
  have hsame : ((xs.zip sorted).map fun x =>
      (intoSlot (slot x.1) (old x.1) x.2).new.leaves.length) =
      (xs.zip sorted).map fun x => x.2.leaves.length :=
    List.map_congr_left fun x _ => Element.sameLeafCount_transplantTrivia x.2 (old x.1)
  have hcounts := (hperm.map fun e => e.leaves.length).sum_eq
  rw [List.map_map] at hcounts
  rw [hsame, sum_zip_snd (fun e => e.leaves.length) hlength.le, hcounts]
  exact congrArg List.sum (List.map_congr_left fun x hx => (hmoved x hx).leaves)

/-- Elements of a list that are rearranged and then put into each other's slots, with all nodes
built, neither add nor drop leaves, and the list is not longer. -/
theorem exists_fillSlots_of_perm (hdistinct : (xs.map slot).Nodup)
    (hold : ∀ x ∈ xs, es[slot x]? = some (old x))
    (hmoved : ∀ x ∈ xs, Rearranged (old x) (moved x)) (hperm : sorted.Perm (xs.map moved))
    (hlen : 2 * Element.fullLenAll es < Offset.limit) :
    ∃ es', fillSlots es ((xs.map slot).zip sorted) = .ok es' ∧
      buildFillSlots es ((xs.map slot).zip sorted) = .ok es' ∧
      (Element.leavesAll es').length = (Element.leavesAll es).length ∧
      Element.fullLenAll es' ≤ Element.fullLenAll es := by
  have hlength : sorted.length = xs.length := by rw [hperm.length_eq, List.length_map]
  obtain ⟨ys, hys⟩ : ∃ ys : List (Nat × Element × Element),
      (xs.zip sorted).map (fun x => (slot x.1, old x.1, x.2)) = ys := ⟨_, rfl⟩
  have hzip : (xs.map slot).zip sorted = ys.map fun y => (y.1, y.2.2) := by
    rw [← hys, List.map_map, List.zip_map_left]
    rfl
  have hmap : ∀ weight : Element.Move → Nat,
      ((ys.map fun y => intoSlot y.1 y.2.1 y.2.2).map weight).sum =
        ((xs.zip sorted).map fun x => weight (intoSlot (slot x.1) (old x.1) x.2)).sum := by
    intro weight
    rw [← hys, List.map_map, List.map_map]
    rfl
  have holdMap : ∀ weight : Element → Nat,
      ((ys.map fun y => intoSlot y.1 y.2.1 y.2.2).map fun m => weight m.old).sum =
        (xs.map fun x => weight (old x)).sum := by
    intro weight
    rw [hmap]
    exact sum_zip_fst (fun x => weight (old x)) hlength.ge
  have hmoves : Element.AreMoves es (ys.map fun y => intoSlot y.1 y.2.1 y.2.2) := by
    constructor
    · intro m hm
      rw [← hys, List.map_map] at hm
      obtain ⟨x, hx, rfl⟩ := List.mem_map.mp hm
      exact hold x.1 (List.of_mem_zip hx).1
    · have hslots := congrArg (List.map slot) (List.map_fst_zip hlength.ge)
      rw [List.map_map] at hslots
      rw [← hys, List.map_map, List.map_map]
      exact hslots ▸ hdistinct
  -- what goes into a slot is no longer than two elements of the list, so the node can be built
  obtain ⟨hfill, hbuild⟩ := fillSlots_eq hmoves fun y hy => by
    rw [← hys] at hy
    obtain ⟨x, hx, rfl⟩ := List.mem_map.mp hy
    obtain ⟨hmem, hnew⟩ := List.of_mem_zip hx
    obtain ⟨b, hb, hnew⟩ := List.mem_map.mp (hperm.mem_iff.mp hnew)
    have holdLen := Element.fullLen_le_of_mem (List.mem_of_getElem? (hold x.1 hmem))
    have hbLen := Element.fullLen_le_of_mem (List.mem_of_getElem? (hold b hb))
    have hmovedLen := (hmoved b hb).fullLen_le
    rw [hnew] at hmovedLen
    dsimp only
    omega
  -- sums over the slots do not see the order
  refine ⟨_, by rw [hzip, hfill], by rw [hzip, hbuild], ?_, ?_⟩
  · have hsum := Element.sum_map_setAll (fun e => e.leaves.length) hmoves
    rw [holdMap fun e => e.leaves.length, hmap fun m => m.new.leaves.length,
      sum_length_leaves_intoSlot hmoved hperm, Element.sum_map_length_leaves,
      Element.sum_map_length_leaves] at hsum
    exact Nat.add_right_cancel hsum
  · have hsum := Element.sum_map_setAll Element.fullLen hmoves
    have hle := sum_fullLen_intoSlot_le slot hmoved hperm
    rw [holdMap Element.fullLen, hmap fun m => m.new.fullLen, Element.sum_map_fullLen,
      Element.sum_map_fullLen] at hsum
    omega

end Slots

/-- The cases of a switch are sorted with all nodes built, and the switch has as many leaves as
before and is not longer. -/
theorem exists_sortCases_of_keeps {switch : Cursor} (k : SyntaxKind) {es : List Element}
    (hnames : ∀ c ∈ cases switch, ∀ n ∈ c.names, n ≠ "") (hkinded : switch.element.WellKinded)
    (hkeeps : List.Forall₂ Keeps switch.element.children es)
    (hlen : 2 * Element.fullLenAll es < Offset.limit) :
    ∃ es', sortCases (cases switch) (.node k es) = .ok (.node k es') ∧
      buildSortCases (cases switch) (.node k es) = .ok (.node k es') ∧
      (Element.leavesAll es').length = (Element.leavesAll es).length ∧
      Element.fullLenAll es' ≤ Element.fullLenAll es := by
  have hcase : ∀ c ∈ cases switch, ∃ r : Element × Element, es[c.node.index]? = some r.1 ∧
      childAt (.node k es) c.node.index = .ok r.1 ∧ sortItems c r.1 = .ok r.2 ∧
      buildSortItems c r.1 = .ok r.2 ∧ Rearranged r.1 r.2 := by
    intro c hc
    have hmem := (mem_cases hc).1
    obtain ⟨old, hold, hchild, holdKeeps⟩ := exists_childAt_of_keeps k hkeeps hmem
    have holdLen := Element.fullLen_le_of_mem (List.mem_of_getElem? hold)
    obtain ⟨r, hr, hbuilt, hrearranged⟩ := exists_rearranged hc (hnames c hc)
      (Cursor.wellKinded_of_mem_children hkinded hmem) holdKeeps (by omega)
    exact ⟨(old, r), hold, hchild, hr, hbuilt, hrearranged⟩
  choose! g hg using hcase
  have hdistinct : ((cases switch).map (·.node.index)).Nodup := by
    rw [cases, List.map_map]
    exact switch.map_index_children_nodup.sublist (List.filter_sublist.map _)
  -- from here on the cases are a list of slots, all different, with what is put there
  obtain ⟨cs, hcs⟩ : ∃ cs, cases switch = cs := ⟨_, rfl⟩
  rw [hcs] at hg hdistinct ⊢
  have hmoved : cs.mapM (fun c => do sortItems c (← childAt (.node k es) c.node.index)) =
      .ok (cs.map fun c => (g c).2) := by
    refine Except.mapM_eq_ok fun c hc => ?_
    obtain ⟨-, hchild, hsort, -⟩ := hg c hc
    simp only [hchild, bind, Except.bind, hsort]
  have hbuilt : cs.mapM (fun c => do buildSortItems c (← childAt (.node k es) c.node.index)) =
      .ok (cs.map fun c => (g c).2) := by
    refine Except.mapM_eq_ok fun c hc => ?_
    obtain ⟨-, hchild, -, hbuild, -⟩ := hg c hc
    simp only [hchild, bind, Except.bind, hbuild]
  obtain ⟨sorted, hsorted⟩ : ∃ sorted, ((cs.zip (cs.map fun c => (g c).2)).mergeSort
      fun a b => keyLe a.1.key b.1.key).map (·.2) = sorted := ⟨_, rfl⟩
  have hperm : sorted.Perm (cs.map fun c => (g c).2) := by
    have hsnd : (cs.zip (cs.map fun c => (g c).2)).map Prod.snd = cs.map fun c => (g c).2 :=
      List.map_snd_zip (by rw [List.length_map])
    have hsort := (List.mergeSort_perm (cs.zip (cs.map fun c => (g c).2))
      fun a b => keyLe a.1.key b.1.key).map Prod.snd
    rwa [hsnd, hsorted] at hsort
  obtain ⟨es', hfill, hbuild, hleaves, hle⟩ := exists_fillSlots_of_perm hdistinct
    (fun c hc => (hg c hc).1) (fun c hc => (hg c hc).2.2.2.2) hperm hlen
  refine ⟨es', ?_, ?_, hleaves, hle⟩
  · simp only [bind, Except.bind] at hmoved
    simp only [sortCases, bind, Except.bind]
    rw [hmoved]
    simp only [hsorted, Element.children, Element.kind, hfill]
    rfl
  · simp only [bind, Except.bind] at hbuilt
    simp only [buildSortCases, bind, Except.bind]
    rw [hbuilt]
    simp only [hsorted, Element.children, Element.kind, hbuild]
    exact Element.build_eq_ok k (by omega)

/-! ### The rule -/

theorem ne_empty_of_namesDistinct : ∀ {names : List String}, namesDistinct names = true →
    ∀ n ∈ names, n ≠ ""
  | [], _ => nofun
  | name :: names, h => by
    rw [namesDistinct, Bool.and_eq_true, Bool.and_eq_true, bne_iff_ne] at h
    exact List.forall_mem_cons.mpr ⟨h.1.1, ne_empty_of_namesDistinct h.2⟩

theorem checks_buildFixer {source : String} {tree : Element} (disabled : DisabledRegions)
    (hparse : parse source = .ok tree) (hlen : source.utf8ByteSize < 2 ^ 31) {c : Cursor}
    (hc : c ∈ (Cursor.root tree).descendants) :
    Fixer.Checks buildFixer fixer disabled Fits Keeps c where
  token t f _ hf := by
    cases hf
    exact ⟨rfl, .token t⟩
  visit := rfl
  node k es es' f hnode _ hes hf := by
    obtain ⟨hleaves, hle⟩ := leavesAll_of_keeps hes
    have htwice := two_mul_fullLen_lt hparse hlen hc
    rw [hnode, Element.fullLen] at htwice
    refine ⟨by omega, ?_⟩
    have hckind : c.kind = k := by rw [Cursor.kind, hnode]; rfl
    have hcurrent : Keeps (.node k es) (.node k es') := .node k hes
    by_cases hcan : k = .switchExpr ∧ canReorder (cases c) = true
    · obtain ⟨rfl, hreorder⟩ := hcan
      cases hdisorder : disorder? c (cases c) with
      | none =>
        simp only [fixer, hckind, hdisorder] at hf
        cases hf
        exact ⟨by simp only [buildFixer, hckind, hdisorder]; rfl, hcurrent⟩
      | some position =>
        -- names that are distinct are not empty, so every pattern is found again under its name
        have hdistinct := (Bool.and_eq_true_iff.mp hreorder).2
        have hchildren : c.element.children = es := by rw [hnode]; rfl
        obtain ⟨es'', hsort, hbuild, hcount, hshort⟩ := exists_sortCases_of_keeps .switchExpr
          (fun d hd n hn => ne_empty_of_namesDistinct hdistinct n
            (List.mem_flatMap.mpr ⟨d, hd, hn⟩))
          (wellKinded_of_mem_descendants hparse hc) (hchildren ▸ hes) (by omega)
        have hfix : f = some ⟨.node .switchExpr es'', position, [], none⟩ := by
          simp only [fixer, hckind, hdisorder, hreorder, hsort, bind, Except.bind] at hf
          cases hf
          rfl
        subst hfix
        refine ⟨?_, Fixer.accept_of hcurrent fun f hf => ?_⟩
        · simp only [buildFixer, hckind, hdisorder, hreorder, hbuild, bind, Except.bind]
          rfl
        · cases hf
          exact .switch (hcount.trans hleaves) (Nat.le_trans hshort hle)
    · -- both fixers leave the node alone, for one of two reasons
      have hfix : fixer.node c (.node k es') () = .ok (none, ()) ∧
          buildFixer.node c (.node k es') () = .ok (none, ()) := by
        by_cases hk : k = .switchExpr
        · have hreorder : canReorder (cases c) = false := by simpa [hk] using hcan
          simp only [fixer, buildFixer, hckind, hk, hreorder]
          cases disorder? c (cases c) <;> exact ⟨rfl, rfl⟩
        · have hne : (c.kind != .switchExpr) = true := by simpa [hckind] using hk
          simp only [fixer, buildFixer, hne]
          exact ⟨rfl, rfl⟩
      rw [hfix.1] at hf
      cases hf
      exact ⟨hfix.2, hcurrent⟩

theorem rule_runsAs {source : String} {ctx : Context}
    (h : SourceUnit.ofText source = .ok ctx.unit) (hlen : source.utf8ByteSize < 2 ^ 31)
    (severity : Severity) : (rule severity).RunsAs (checkedRule severity) ctx := by
  have hparse := SourceUnit.parse_of_ofText h
  obtain ⟨outcome, hrun, hchecked⟩ := Fixer.buildRun_eq (fun c hc => behaves_fixer _ hparse hc)
    (fun c hc => checks_buildFixer (ctx.unit.disabledRegions description) hparse hlen hc)
  exact .of_find rfl rfl (.inr ⟨outcome, congrArg some hchecked, congrArg some hrun⟩)

end SortedSwitchCases

end SwiftTidy
