import SwiftTidy.Proofs.Data.StableSort
import SwiftTidy.Proofs.Parse.Carried.Statement
import SwiftTidy.Proofs.Parse.Sparing
import SwiftTidy.Proofs.Rules.SortedSwitches

/-!
# The plan of a pass over switches

A pass brings the cases of a switch into the order of their keys and the items of their labels into the order
of their names.  What is to stand where is known before the pass: `blocks` lists the parts of a file with
their order, each block under the byte behind the brace or the word `case` that opens it, and the tree of the
file conforms to the plan that this is (`conforms_items`).
-/

namespace SwiftTidy

namespace Block

variable {α κ : Type} {le : κ → κ → Bool} {keys : List κ} {lens : List Nat} {xs : List α}

/-- The parts in the order of their keys. -/
def sorting (le : κ → κ → Bool) (keys : List κ) (lens : List Nat) : Block :=
  ⟨lens, (keys.zipIdx.insertionSort fun a b => le a.1 b.1 = true).map Prod.snd⟩

theorem isProper_sorting (h : keys.length = lens.length) : (sorting le keys lens).IsProper := by
  have hperm := (List.perm_insertionSort (fun a b : κ × Nat => le a.1 b.1 = true) keys.zipIdx).map Prod.snd
  rwa [List.zipIdx_map_snd, List.range'_eq_map_range, h, List.map_congr_left fun i _ => Nat.zero_add i,
    List.map_id'] at hperm

/-- Sorting parts together with their keys. -/
theorem arrange_sorting (htrans : ∀ a b c, le a b → le b c → le a c) (htotal : ∀ a b, le a b || le b a)
    (h : keys.length = xs.length) : (sorting le keys lens).arrange xs =
      ((keys.zip xs).mergeSort fun a b => le a.1 b.1).map Prod.snd := by
  have hzip : keys.zipIdx.map (fun p => (p.1, xs[p.2]?)) = (keys.zip xs).map fun p => (p.1, some p.2) := by
    refine List.ext_getElem (by simp [h]) fun i hi hi' => ?_
    simp
  -- both are sorted by their keys, and each number stands for its part
  have hsort : (keys.zipIdx.mergeSort fun a b => le a.1 b.1).map (fun p => (p.1, xs[p.2]?)) =
      ((keys.zip xs).mergeSort fun a b => le a.1 b.1).map fun p => (p.1, some p.2) := by
    rw [List.map_mergeSort (s := fun a b : κ × Option α => le a.1 b.1) fun a _ b _ => rfl, hzip]
    exact (List.map_mergeSort (r := fun a b : κ × α => le a.1 b.1)
      (s := fun a b : κ × Option α => le a.1 b.1) fun _ _ _ _ => rfl).symm
  have hmap := congrArg (List.filterMap Prod.snd) hsort
  rw [List.filterMap_map, List.filterMap_map] at hmap
  have hinsertion : keys.zipIdx.mergeSort (fun a b => le a.1 b.1) =
      keys.zipIdx.insertionSort fun a b => le a.1 b.1 = true := by
    refine StableSort.mergeSort_eq_insertionSort (fun a b c => ?_) (fun a b => ?_) _
    · exact htrans a.1 b.1 c.1
    · exact htotal a.1 b.1
  rw [arrange, sorting, List.filterMap_map, ← hinsertion]
  refine hmap.trans ?_
  rw [← List.filterMap_eq_map]
  rfl

end Block

namespace SortedSwitchCases

variable {source : String} {tree : Element} {disabled : DisabledRegions} {c x y : Cursor}

/-! ### The blocks of a file -/

/-- The cases of a switch in the order of their keys. -/
def caseBlock (switch : Cursor) : Block :=
  .sorting keyLe ((cases switch).map Case.key) ((cases switch).map (·.node.element.fullLen))

/-- The patterns of a label in the order of the names of its items. -/
def itemBlock (label : Cursor) : Block :=
  .sorting (fun a b : String => a ≤ b) ((items label).map fun item => itemName item.element)
    ((items label).map fun item => (Element.part .switchCaseLabel item.element).fullLen)

/-- The block of a switch brings what there is of its cases into the order of the cases. -/
theorem arrange_caseBlock {α : Type} (switch : Cursor) (f : Case → α) :
    (caseBlock switch).arrange ((cases switch).map f) = (sortedCases (cases switch)).map f := by
  have hsorting : (caseBlock switch).arrange ((cases switch).map f) =
      ((((cases switch).map Case.key).zip ((cases switch).map f)).mergeSort fun a b =>
        keyLe a.1 b.1).map Prod.snd :=
    Block.arrange_sorting (fun _ _ _ => keyLe_trans) keyLe_total (by rw [List.length_map, List.length_map])
  rw [List.zip_map', ← List.map_mergeSort (r := fun a b => keyLe a.key b.key) fun a _ b _ => rfl,
    List.map_map] at hsorting
  exact hsorting

/-- The block of a label brings what there is of its items into the order of their names. -/
theorem arrange_itemBlock {α : Type} (label : Cursor) (f : Cursor → α) :
    (itemBlock label).arrange ((items label).map f) = (sortedItems (items label)).map f := by
  have hsorting : (itemBlock label).arrange ((items label).map f) =
      ((((items label).map fun item => itemName item.element).zip ((items label).map f)).mergeSort fun a b =>
        a.1 ≤ b.1).map Prod.snd :=
    Block.arrange_sorting
      (fun _ _ _ hab hbc => decide_eq_true ((of_decide_eq_true hab).trans (of_decide_eq_true hbc)))
      (fun a b => by simpa using String.le_total a b) (by rw [List.length_map, List.length_map])
  rw [List.zip_map', ← List.map_mergeSort (r := fun a b => itemName a.element ≤ itemName b.element)
    fun a _ b _ => rfl, List.map_map] at hsorting
  exact hsorting

/-- Whether the items of a label come into order: it is the label of a case of a switch that is sorted, and
they are not in order. -/
def isSortedLabel (disabled : DisabledRegions) : Cursor → Bool
  | .child (.child switch i o e) j _ label =>
    !(recordedAt disabled switch).isEmpty && e.kind == .switchCase &&
      ((Cursor.child switch i o e).childOfKind? .switchCaseLabel).any (·.index == j) &&
      !Case.itemsSorted.isSorted ((label.children.filter (·.kind == .switchCaseItem)).map itemName)
  | _ => false

/-- The block that stands behind a token. -/
def block? (disabled : DisabledRegions) : Cursor → Option Block
  | .child c i _ e =>
    if !e.opens c.kind then none
    else if c.kind == .switchExpr then
      if i == 2 && !(recordedAt disabled c).isEmpty then some (caseBlock c) else none
    else if i == 0 && isSortedLabel disabled c then some (itemBlock c) else none
  | .root _ => none

/-- Behind the brace of a switch that is sorted there are its cases. -/
theorem block?_of_switch {i o : Nat} {e : Element} (hkind : c.kind = .switchExpr) (hi : i = 2)
    (hopens : e.opens c.kind = true) : block? disabled (.child c i o e) =
      if recordedAt disabled c = [] then none else some (caseBlock c) := by
  have hswitch : (c.kind == .switchExpr) = true := beq_iff_eq.mpr hkind
  rw [block?, hopens, hswitch, hi]
  cases recordedAt disabled c <;> rfl

/-- Behind the keyword of a label whose items come into order there are their patterns. -/
theorem block?_of_label {o : Nat} {e : Element} (hkind : c.kind = .switchCaseLabel)
    (hopens : e.opens c.kind = true) : block? disabled (.child c 0 o e) =
      if isSortedLabel disabled c then some (itemBlock c) else none := by
  have hlabel : (c.kind == .switchExpr) = false := by
    rw [hkind]
    rfl
  rw [block?, hopens, hlabel]
  cases isSortedLabel disabled c <;> rfl

/-- The blocks of a file, each with the byte at which its first part starts: the cases of the switches that
are sorted, and the patterns of their labels. -/
def blocks (disabled : DisabledRegions) (tree : Element) : List (Nat × Block) :=
  (Cursor.root tree).tokens.filterMap fun y => (block? disabled y).map fun b => (y.fullEnd, b)

/-- The plan of a file. -/
def plan (disabled : DisabledRegions) (tree : Element) : Plan := fun o => (blocks disabled tree).lookup o

theorem opens_of_block? {b : Block} (h : block? disabled y = some b) :
    ∃ c i o e, y = .child c i o e ∧ e.opens c.kind = true := by
  unfold block? at h
  split at h
  · next c i o e =>
    refine ⟨c, i, o, e, rfl, ?_⟩
    by_contra hopens
    rw [Bool.not_eq_true] at hopens
    rw [hopens] at h
    cases h
  · cases h

/-- Tokens that are not empty end at different bytes. -/
theorem token_eq_of_fullEnd (h : parse source = .ok tree) (hx : x ∈ (Cursor.root tree).tokens)
    (hy : y ∈ (Cursor.root tree).tokens) (hxpos : ∀ t ∈ x.element.leaves, 0 < t.len)
    (hypos : ∀ t ∈ y.element.leaves, 0 < t.len) (hsame : x.fullEnd = y.fullEnd) : x = y := by
  obtain ⟨t, ht, hplaced⟩ := Cursor.exists_mem_placed (p := .root tree) (wellKinded_parse h) hx
  obtain ⟨u, hu, hplaced'⟩ := Cursor.exists_mem_placed (p := .root tree) (wellKinded_parse h) hy
  rw [ht, Element.leaves_token, List.forall_mem_singleton] at hxpos
  rw [hu, Element.leaves_token, List.forall_mem_singleton] at hypos
  rw [Cursor.fullEnd, Cursor.fullEnd, ht, hu, Element.fullLen, Element.fullLen] at hsame
  have htlen : t.len ≤ t.fullLen := by
    rw [Token.fullLen]
    omega
  have hulen : u.len ≤ u.fullLen := by
    rw [Token.fullLen]
    omega
  rcases Token.eq_or_behind hplaced hplaced' with heq | hle | hle
  · obtain ⟨hoffset, rfl⟩ := Prod.mk.inj heq
    refine token_eq_of_position h hx hy ?_
    rw [Cursor.position, Cursor.position, ht, hu, hoffset]
  · dsimp only at hle
    omega
  · dsimp only at hle
    omega

theorem len_pos_of_ne_endOfFile {t : Token} (h : parse source = .ok tree) (ht : t ∈ tree.leaves)
    (hkind : t.kind ≠ .endOfFile) : 0 < t.len := by
  obtain ⟨ts, last, hleaves, hcut, -, -, hlast⟩ := leaves_isCut h
  rw [hleaves, List.mem_append, List.mem_singleton] at ht
  rcases ht with ht | rfl
  · exact (hcut t ht).len_pos
  · exact absurd hlast hkind

/-- The plan says of every token what stands behind it. -/
theorem plan_fullEnd (h : parse source = .ok tree) (hy : y ∈ (Cursor.root tree).tokens)
    (hpos : ∀ t ∈ y.element.leaves, 0 < t.len) : plan disabled tree y.fullEnd = block? disabled y := by
  have hmem : ∀ b, (y.fullEnd, b) ∈ blocks disabled tree ↔ block? disabled y = some b := by
    intro b
    rw [blocks, List.mem_filterMap]
    refine ⟨fun ⟨x, hx, hxb⟩ => ?_, fun hb => ⟨y, hy, by rw [hb, Option.map_some]⟩⟩
    obtain ⟨b', hb, heq⟩ := Option.map_eq_some_iff.mp hxb
    obtain ⟨hend, rfl⟩ := Prod.mk.inj heq
    -- what opens a block is not the end of the file
    have hxpos : ∀ t ∈ x.element.leaves, 0 < t.len := by
      intro t ht
      obtain ⟨u, hu, hplaced⟩ := Cursor.exists_mem_placed (p := .root tree) (wellKinded_parse h) hx
      obtain ⟨c, i, o, e, rfl, hopens⟩ := opens_of_block? hb
      obtain rfl : e = .token u := hu
      obtain rfl := List.mem_singleton.mp (Element.leaves_token u ▸ ht)
      refine len_pos_of_ne_endOfFile h (Token.snd_mem_of_mem_placed hplaced) fun hkind => ?_
      rw [Element.opens, hkind] at hopens
      simp at hopens
    obtain rfl := token_eq_of_fullEnd h hx hy hxpos hpos hend
    exact hb
  unfold plan
  cases hlookup : (blocks disabled tree).lookup y.fullEnd with
  | none =>
    rw [List.lookup_eq_none_iff] at hlookup
    cases hb : block? disabled y with
    | none => rfl
    | some b => exact absurd (hlookup _ ((hmem b).mpr hb)) (by simp)
  | some b =>
    obtain ⟨front, back, hblocks, -⟩ := List.lookup_eq_some_iff.mp hlookup
    exact ((hmem b).mp (hblocks ▸ List.mem_append_right _ List.mem_cons_self)).symm

/-! ### The tree conforms to the plan -/

/-- The plan says what stands behind each of some children of a place. -/
def Tells (P : Plan) (disabled : DisabledRegions) (c : Cursor) (cs : List Cursor) : Prop :=
  ∀ y ∈ cs, Element.block? P c.kind y.fullEnd y.element = block? disabled y

section Children

variable {P : Plan} {i o : Nat} {es : List Element}

theorem shut_childrenFrom (htells : Tells P disabled c (Cursor.childrenFrom c i o es))
    (hnone : ∀ y ∈ Cursor.childrenFrom c i o es, block? disabled y = none) :
    Element.Shut P c.kind o es := by
  induction es generalizing i o with
  | nil => trivial
  | cons e es ih =>
    obtain ⟨htell, htells⟩ := List.forall_mem_cons.mp htells
    obtain ⟨hhead, hnone⟩ := List.forall_mem_cons.mp hnone
    exact ⟨htell.trans hhead, ih htells hnone⟩

theorem conformsAll_childrenFrom
    (h : ∀ y ∈ Cursor.childrenFrom c i o es, Element.Conforms P y.offset y.element) :
    Element.ConformsAll P o es := by
  induction es generalizing i o with
  | nil => trivial
  | cons e es ih =>
    obtain ⟨hhead, htail⟩ := List.forall_mem_cons.mp h
    rw [Element.ConformsAll]
    exact ⟨hhead, ih htail⟩

/-- No block stands behind a child that opens none. -/
theorem block?_of_ne {e : Element} (h : e.opens c.kind = false ∨ c.kind = .switchExpr ∧ i ≠ 2 ∨
    c.kind ≠ .switchExpr ∧ i ≠ 0) : block? disabled (.child c i o e) = none := by
  unfold block?
  rcases h with h | ⟨hkind, hi⟩ | ⟨hkind, hi⟩
  · simp [h]
  · simp [hkind, hi]
  · simp [hkind, hi]

/-- The place of a token among the children of a node, behind those in `front`. -/
abbrev openerAt (c : Cursor) (front : List Element) (opener : Token) : Cursor :=
  .child c front.length (c.offset + Element.fullLenAll front) (.token opener)

/-- The places of the children behind this token. -/
abbrev placesBehind (c : Cursor) (front : List Element) (opener : Token) (es : List Element) : List Cursor :=
  Cursor.childrenFrom c (front.length + 1)
    (c.offset + Element.fullLenAll front + (Element.token opener).fullLen) es

/-- A node whose parts stand between two of its tokens. -/
structure Encloses (disabled : DisabledRegions) (c : Cursor) (front : List Element) (opener : Token)
    (parts : List Element) (close : Token) : Prop where
  children : c.element.children = front ++ .token opener :: (parts ++ [.token close])
  opens : (Element.token opener).opens c.kind = true
  ahead : ∀ y ∈ Cursor.childrenFrom c 0 c.offset front, block? disabled y = none
  behind : ∀ y ∈ placesBehind c front opener (parts ++ [.token close]), block? disabled y = none

namespace Encloses

variable {front parts : List Element} {opener close : Token}

theorem children_eq (h : Encloses disabled c front opener parts close) :
    c.children = Cursor.childrenFrom c 0 c.offset front ++
      openerAt c front opener :: placesBehind c front opener (parts ++ [.token close]) := by
  rw [Cursor.children, h.children, Cursor.childrenFrom_append, Nat.zero_add, Cursor.childrenFrom]

/-- The parts are told by their kind. -/
theorem filter_children (h : Encloses disabled c front opener parts close) {k : SyntaxKind}
    (hfront : ∀ e ∈ front, e.kind ≠ k) (hopener : opener.kind ≠ k) (hparts : ∀ e ∈ parts, e.kind = k)
    (hclose : close.kind ≠ k) : c.childrenOfKind k = placesBehind c front opener parts := by
  have hnone : ∀ (i o : Nat) (es : List Element), (∀ e ∈ es, e.kind ≠ k) →
      (Cursor.childrenFrom c i o es).filter (·.kind == k) = [] := by
    intro i o es hes
    refine List.filter_eq_nil_iff.mpr fun y hy => ?_
    obtain ⟨ahead, e, back, rfl, rfl⟩ := Cursor.exists_of_mem_childrenFrom hy
    rw [beq_iff_eq]
    exact hes e (List.mem_append_right _ List.mem_cons_self)
  have hall : ∀ (i o : Nat), (Cursor.childrenFrom c i o parts).filter (·.kind == k) =
      Cursor.childrenFrom c i o parts := by
    intro i o
    refine List.filter_eq_self.mpr fun y hy => ?_
    obtain ⟨ahead, e, back, rfl, rfl⟩ := Cursor.exists_of_mem_childrenFrom hy
    exact beq_iff_eq.mpr (hparts e (List.mem_append_right _ List.mem_cons_self))
  have hnot : ((openerAt c front opener).kind == k) = false := beq_eq_false_iff_ne.mpr hopener
  rw [Cursor.childrenOfKind, h.children_eq, List.filter_append, hnone _ _ _ hfront, List.nil_append,
    List.filter_cons, if_neg (by rw [hnot]; exact Bool.false_ne_true), placesBehind,
    Cursor.childrenFrom_append, List.filter_append, hall,
    hnone _ _ [.token close] (List.forall_mem_singleton.mpr hclose), List.append_nil]

/-- The last child is the token that closes the block. -/
theorem exists_children_eq (h : Encloses disabled c front opener parts close) :
    ∃ z : Cursor, z.element = .token close ∧ c.children = Cursor.childrenFrom c 0 c.offset front ++
      openerAt c front opener :: (placesBehind c front opener parts ++ [z]) := by
  rw [h.children_eq, placesBehind, Cursor.childrenFrom_append]
  exact ⟨_, rfl, rfl⟩

/-- Where the block lies around the parts, the children conform to the plan if each of them does. -/
theorem conformsIn (h : Encloses disabled c front opener parts close) (htells : Tells P disabled c c.children)
    (hlaid : ∀ b, block? disabled (openerAt c front opener) = some b →
      Element.IsLaid c.kind b (parts ++ [.token close]))
    (hchildren : ∀ y ∈ c.children, block? disabled y = none → Element.Conforms P y.offset y.element) :
    Element.ConformsIn P c.kind c.offset c.element.children := by
  rw [h.children_eq] at htells hchildren
  obtain ⟨hfrontTells, htells⟩ := List.forall_mem_append.mp htells
  obtain ⟨htell, hrestTells⟩ := List.forall_mem_cons.mp htells
  obtain ⟨hfront, hchildren⟩ := List.forall_mem_append.mp hchildren
  obtain ⟨hopener, hrest⟩ := List.forall_mem_cons.mp hchildren
  have hall : Element.ConformsAll P (c.offset + Element.fullLenAll front + (Element.token opener).fullLen)
      (parts ++ [.token close]) :=
    conformsAll_childrenFrom fun y hy => hrest y hy (h.behind y hy)
  have hblock : Element.block? P c.kind
      (c.offset + Element.fullLenAll front + (Element.token opener).fullLen) (.token opener) =
        block? disabled (openerAt c front opener) := htell
  rw [h.children, Element.conformsIn_append (shut_childrenFrom hfrontTells h.ahead)]
  refine ⟨conformsAll_childrenFrom fun y hy => hfront y hy (h.ahead y hy), ?_⟩
  cases hb : block? disabled (openerAt c front opener) with
  | none =>
    rw [Element.conformsIn_of_none (hblock.trans hb),
      Element.conformsIn_of_shut (shut_childrenFrom hrestTells h.behind)]
    exact ⟨hopener hb, hall⟩
  | some b =>
    rw [Element.conformsIn_of_block (hblock.trans hb)]
    exact ⟨hlaid b hb, hall⟩

end Encloses

end Children

/-! ### Switches and labels -/

section Layout

variable {es : List Element}

theorem ne_of_isToken {t : Token} {k : SyntaxKind} (ht : t.kind.isToken = true) (hk : k.isToken = false) :
    t.kind ≠ k := by
  rintro rfl
  rw [ht] at hk
  cases hk

/-- The place of a token is of no kind of node. -/
theorem kind_ne_of_token {t : Token} {k : SyntaxKind} (hkinded : c.element.WellKinded)
    (hc : c.element = .token t) (hk : k.isToken = false) : c.kind ≠ k := by
  have hkind : c.kind = t.kind := congrArg Element.kind hc
  rw [hc, Element.wellKinded_token] at hkinded
  exact hkind ▸ ne_of_isToken hkinded hk

/-- The cases of a switch are the parts of its block. -/
theorem exists_encloses_of_switch (disabled : DisabledRegions) (hfilled : c.element.Filled)
    (hkinded : c.element.WellKinded) (hkind : c.kind = .switchExpr) : ∃ front brace fs close,
      Encloses disabled c front brace fs close ∧ front.length = 2 ∧ (∀ e ∈ front, e.kind ≠ .switchCase) ∧
      c.childrenOfKind .switchCase = placesBehind c front brace fs := by
  obtain ⟨es, hc⟩ := exists_node_of_kind hkinded hkind rfl
  rw [hc] at hfilled hkinded
  obtain ⟨keyword, brace, close, j, cs, fs, rfl, hj, hbrace, hcases⟩ := hfilled.exists_cases
  obtain ⟨-, hall⟩ := (Element.wellKinded_node _ _).mp hkinded
  simp only [Element.wellKindedAll_cons, Element.wellKinded_token, Element.wellKindedAll_append] at hall
  have hencloses : Encloses disabled c [.token keyword, .node j cs] brace fs close := by
    refine ⟨by rw [hc]; rfl, ?_, fun y hy => ?_, fun y hy => ?_⟩
    · rw [Element.opens, hkind, hbrace]
      rfl
    · obtain ⟨front, e, back, hsplit, rfl⟩ := Cursor.exists_of_mem_childrenFrom hy
      have hlength := congrArg List.length hsplit
      simp only [List.length_cons, List.length_nil, List.length_append] at hlength
      exact block?_of_ne (.inr (.inl ⟨hkind, by omega⟩))
    · obtain ⟨front, e, back, -, rfl⟩ := Cursor.exists_of_mem_childrenFrom hy
      refine block?_of_ne (.inr (.inl ⟨hkind, ?_⟩))
      rw [List.length_cons, List.length_cons, List.length_nil]
      omega
  have hfront : ∀ e ∈ [Element.token keyword, .node j cs], e.kind ≠ .switchCase := by
    rw [List.forall_mem_cons, List.forall_mem_singleton]
    refine ⟨ne_of_isToken hall.1 rfl, ?_⟩
    rintro rfl
    cases hj
  exact ⟨_, brace, fs, close, hencloses, rfl, hfront, hencloses.filter_children hfront
    (ne_of_isToken hall.2.2.1 rfl) hcases (ne_of_isToken hall.2.2.2.2.1 rfl)⟩

/-- The items of a label are the parts of its block. -/
theorem exists_encloses_of_label (disabled : DisabledRegions) (hfilled : c.element.Filled)
    (hkinded : c.element.WellKinded) (hkind : c.kind = .switchCaseLabel) : ∃ keyword fs colon,
      Encloses disabled c [] keyword fs colon ∧
      (∀ e ∈ fs, ∃ p gs, e = .node .switchCaseItem (p :: gs)) ∧
      items c = placesBehind c [] keyword fs := by
  obtain ⟨es, hc⟩ := exists_node_of_kind hkinded hkind rfl
  rw [hc] at hfilled hkinded
  obtain ⟨keyword, colon, fs, rfl, hkeyword, hitems⟩ := hfilled.exists_labelItems
  obtain ⟨-, hall⟩ := (Element.wellKinded_node _ _).mp hkinded
  simp only [Element.wellKindedAll_cons, Element.wellKinded_token, Element.wellKindedAll_append] at hall
  have hencloses : Encloses disabled c [] keyword fs colon := by
    refine ⟨by rw [hc]; rfl, ?_, fun y hy => absurd hy List.not_mem_nil, fun y hy => ?_⟩
    · rw [Element.opens, hkind, hkeyword]
      rfl
    · obtain ⟨front, e, back, -, rfl⟩ := Cursor.exists_of_mem_childrenFrom hy
      refine block?_of_ne (.inr (.inr ⟨by rw [hkind]; decide, ?_⟩))
      rw [List.length_nil]
      omega
  refine ⟨keyword, fs, colon, hencloses, hitems,
    hencloses.filter_children (fun _ h => absurd h List.not_mem_nil) ?_ (fun e he => ?_) ?_⟩
  · exact ne_of_isToken hall.1 rfl
  · obtain ⟨p, gs, rfl⟩ := hitems e he
    rfl
  · exact ne_of_isToken hall.2.2.1 rfl

theorem isProper_caseBlock (switch : Cursor) : (caseBlock switch).IsProper :=
  Block.isProper_sorting (by rw [List.length_map, List.length_map])

/-- The cases lie where their block says. -/
theorem isLaid_caseBlock {fs : List Element} {close : Token} {i o : Nat}
    (hcases : c.childrenOfKind .switchCase = Cursor.childrenFrom c i o fs) :
    Element.IsLaid .switchExpr (caseBlock c) (fs ++ [.token close]) := by
  refine ⟨?_, isProper_caseBlock c⟩
  have hlens : (caseBlock c).lens = (c.childrenOfKind .switchCase).map (·.element.fullLen) := by
    rw [← map_node_cases, List.map_map]
    rfl
  have hparts : fs.map (fun e => (Element.part .switchExpr e).fullLen) =
      ((Cursor.childrenFrom c i o fs).map Cursor.element).map Element.fullLen := by
    rw [Cursor.map_element_childrenFrom]
    exact List.map_congr_left fun e _ => by rw [Element.part_of_ne (by decide)]
  rw [hlens, hcases, List.dropLast_concat, hparts, List.map_map]
  rfl

/-- The patterns lie where their block says. -/
theorem isLaid_itemBlock {fs : List Element} {colon : Token} {i o : Nat}
    (hitems : items c = Cursor.childrenFrom c i o fs) :
    Element.IsLaid .switchCaseLabel (itemBlock c) (fs ++ [.token colon]) := by
  refine ⟨?_, Block.isProper_sorting (by rw [List.length_map, List.length_map])⟩
  have hparts : fs.map (fun e => (Element.part .switchCaseLabel e).fullLen) =
      ((Cursor.childrenFrom c i o fs).map Cursor.element).map
        fun e => (Element.part .switchCaseLabel e).fullLen := by
    rw [Cursor.map_element_childrenFrom]
  rw [List.dropLast_concat, hparts, List.map_map, ← hitems]
  rfl

end Layout

/-- The plan of a file says what stands behind the children of any place in it. -/
theorem tells_plan (h : parse source = .ok tree) (hc : c ∈ (Cursor.root tree).descendants) :
    Tells (plan disabled tree) disabled c c.children := by
  intro y hy
  have hdescendant := Cursor.mem_descendants_trans hc (Cursor.mem_descendants_of_mem_children hy)
  have hkinded := wellKinded_of_mem_descendants h hdescendant
  obtain ⟨front, e, back, -, rfl⟩ := Cursor.exists_of_mem_children hy
  cases hopens : e.opens c.kind with
  | false => exact (Element.block?_of_not_opens hopens).trans (block?_of_ne (.inl hopens)).symm
  | true =>
    cases e with
    | node k es => cases hopens
    | token t =>
      refine (if_pos hopens).trans (plan_fullEnd h (List.mem_filter.mpr ⟨hdescendant, ?_⟩) fun u hu => ?_)
      · exact (Element.wellKinded_token t).mp hkinded
      · -- what opens a block is not the end of the file
        obtain rfl := List.mem_singleton.mp (Element.leaves_token t ▸ hu)
        obtain ⟨v, hv, hplaced⟩ := Cursor.exists_mem_placed (p := .root tree) (wellKinded_parse h)
          (List.mem_filter.mpr ⟨hdescendant, (Element.wellKinded_token u).mp hkinded⟩)
        obtain rfl : u = v := Element.token.inj hv
        refine len_pos_of_ne_endOfFile h (Token.snd_mem_of_mem_placed hplaced) fun hkind => ?_
        rw [Element.opens, hkind] at hopens
        simp at hopens

theorem conforms_node (h : parse source = .ok tree) (hc : c ∈ (Cursor.root tree).descendants)
    {k : SyntaxKind} {es : List Element} (hnode : c.element = .node k es)
    (hchildren : ∀ y ∈ c.children, block? disabled y = none →
      Element.Conforms (plan disabled tree) y.offset y.element) :
    Element.Conforms (plan disabled tree) c.offset c.element := by
  have htells : Tells _ disabled c c.children := tells_plan h hc
  have hkinded := wellKinded_of_mem_descendants h hc
  have hfilled := filled_of_mem_descendants h hc
  have hkind : c.kind = k := congrArg Element.kind hnode
  have hes : c.element.children = es := congrArg Element.children hnode
  rw [hnode, Element.Conforms, ← hkind, ← hes]
  by_cases hswitch : k = .switchExpr
  · subst hswitch
    obtain ⟨front, brace, fs, close, hencloses, hlength, -, hcases⟩ :=
      exists_encloses_of_switch disabled hfilled hkinded hkind
    refine hencloses.conformsIn htells (fun b hb => ?_) hchildren
    rw [hkind]
    rw [block?_of_switch hkind hlength hencloses.opens] at hb
    split_ifs at hb
    exact Option.some.inj hb ▸ isLaid_caseBlock hcases
  · by_cases hlabel : k = .switchCaseLabel
    · subst hlabel
      obtain ⟨keyword, fs, colon, hencloses, -, hitems⟩ :=
        exists_encloses_of_label disabled hfilled hkinded hkind
      refine hencloses.conformsIn htells (fun b hb => ?_) hchildren
      rw [hkind]
      rw [openerAt, List.length_nil, block?_of_label hkind hencloses.opens] at hb
      split_ifs at hb
      exact Option.some.inj hb ▸ isLaid_itemBlock hitems
    · have hk : c.kind.hasParts = false := by
        rw [hkind, SyntaxKind.hasParts, beq_eq_false_iff_ne.mpr hswitch, beq_eq_false_iff_ne.mpr hlabel]
        rfl
      rw [Element.conformsIn_iff hk]
      refine conformsAll_childrenFrom (c := c) (i := 0) fun y hy => hchildren y hy ?_
      obtain ⟨front, e, back, -, rfl⟩ := Cursor.exists_of_mem_childrenFrom hy
      exact block?_of_ne (.inl (Element.opens_eq_false hk e))

mutual
/-- Whatever stands below a file in front of its end conforms to the plan. -/
theorem conforms_plan (h : parse source = .ok tree) : ∀ (e : Element) {c : Cursor}, c.element = e →
    c ∈ (Cursor.root tree).descendants → (∀ t ∈ e.leaves, 0 < t.len) → block? disabled c = none →
      Element.Conforms (plan disabled tree) c.offset e
  | .token t, c, hc, hmem, hpos, hnone => by
    rw [Element.Conforms]
    have hkinded := wellKinded_of_mem_descendants h hmem
    rw [hc, Element.wellKinded_token] at hkinded
    have htoken : c ∈ (Cursor.root tree).tokens := List.mem_filter.mpr ⟨hmem, by
      rw [Cursor.isToken, Cursor.kind, hc]
      exact hkinded⟩
    have hplan : plan disabled tree c.fullEnd = block? disabled c := plan_fullEnd h htoken (hc ▸ hpos)
    rw [Cursor.fullEnd, hc, hnone] at hplan
    exact hplan
  | .node k es, c, hc, hmem, hpos, _ => by
    rw [← hc]
    refine conforms_node h hmem hc fun y hy => ?_
    rw [Cursor.children, hc] at hy
    refine conforms_children h es (fun x hx => ?_) (Element.leaves_node k es ▸ hpos) y hy
    refine Cursor.mem_descendants_trans hmem (Cursor.mem_descendants_of_mem_children ?_)
    rw [Cursor.children, hc]
    exact hx
theorem conforms_children (h : parse source = .ok tree) : ∀ (es : List Element) {c : Cursor} {i o : Nat},
    (∀ y ∈ Cursor.childrenFrom c i o es, y ∈ (Cursor.root tree).descendants) →
      (∀ t ∈ Element.leavesAll es, 0 < t.len) → ∀ y ∈ Cursor.childrenFrom c i o es,
        block? disabled y = none → Element.Conforms (plan disabled tree) y.offset y.element
  | [], c, i, o, _, _, y, hy, _ => absurd hy List.not_mem_nil
  | e :: es, c, i, o, hmem, hpos, y, hy, hnone => by
    rw [Element.leavesAll_cons, List.forall_mem_append] at hpos
    obtain ⟨hhead, htail⟩ := List.forall_mem_cons.mp hmem
    rcases List.mem_cons.mp hy with rfl | hy
    · exact conforms_plan h e rfl hhead hpos.1 hnone
    · exact conforms_children h es htail hpos.2 y hy hnone
end

/-- The statements of a file conform to the plan. -/
theorem conforms_items {items : List Element} {t : Token} (h : parse source = .ok tree)
    (htree : tree = .node .sourceFile (items ++ [.token t])) :
    Element.ConformsAll (plan disabled tree) 0 items := by
  have hpos : ∀ u ∈ Element.leavesAll items, 0 < u.len := by
    obtain ⟨ts, last, hleaves, hcut, -⟩ := leaves_isCut h
    rw [htree, Element.leaves_node, Element.leavesAll_append, Element.leavesAll_cons, Element.leaves_token,
      Element.leavesAll_nil, List.append_nil] at hleaves
    obtain ⟨rfl, -⟩ := List.append_inj' hleaves rfl
    exact fun u hu => (hcut u hu).len_pos
  have hchildren : (Cursor.root tree).children = Cursor.childrenFrom (.root tree) 0 0 items ++
      Cursor.childrenFrom (.root tree) (0 + items.length) (0 + Element.fullLenAll items) [.token t] := by
    have hes : (Cursor.root tree).element.children = items ++ [.token t] := by
      rw [Cursor.element, htree]
      rfl
    rw [← Cursor.childrenFrom_append, Cursor.children, hes]
    rfl
  refine conformsAll_childrenFrom (c := .root tree) (i := 0) fun y hy => ?_
  refine conforms_children h items (fun x hx => ?_) hpos y hy ?_
  · refine Cursor.mem_descendants_of_mem_children ?_
    rw [hchildren]
    exact List.mem_append_left _ hx
  · obtain ⟨front, e, back, -, rfl⟩ := Cursor.exists_of_mem_childrenFrom hy
    refine block?_of_ne (.inl (Element.opens_eq_false ?_ e))
    rw [Cursor.kind, Cursor.element, htree]
    rfl

end SortedSwitchCases

end SwiftTidy
