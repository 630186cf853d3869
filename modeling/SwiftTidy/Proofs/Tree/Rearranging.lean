import Mathlib.Data.List.Forall2
import Mathlib.Data.List.Perm.Basic
import SwiftTidy.Proofs.Tree.Omission

/-!
# Trees with parts in another order

A `Block` is a run of parts, told by their lengths, together with the order in which they are to stand,
and a `Plan` says behind which bytes there are blocks.  The parts are the cases behind the brace of a
switch, and behind the word `case` of a label the patterns of its items, whose commas stay where they are.

`Element.moved P o e` is the element `e`, which starts at byte `o`, with the parts of every block at or
below it in their order.  An element `Conforms` to the plan where the blocks lie around its own parts.
-/

namespace SwiftTidy

/-- A run of parts: their lengths, and for each place the number of the part that is to stand there. -/
structure Block where
  lens : List Nat
  order : List Nat
  deriving DecidableEq

/-- The blocks, each under the byte at which its first part starts. -/
abbrev Plan := Nat → Option Block

namespace Block

variable {α β : Type} {b : Block} {xs : List α} {ys : List β}

/-- The parts in their order. -/
def arrange (b : Block) (xs : List α) : List α := b.order.filterMap (xs[·]?)

theorem arrange_map (f : α → β) : b.arrange (xs.map f) = (b.arrange xs).map f := by
  simp only [arrange, List.map_filterMap, List.getElem?_map]

theorem mem_of_mem_arrange {x : α} (h : x ∈ b.arrange xs) : x ∈ xs := by
  obtain ⟨i, -, hi⟩ := List.mem_filterMap.mp h
  exact List.mem_of_getElem? hi

/-- What holds between the parts of two runs holds between the parts in their order. -/
theorem arrange_forall₂ {R : α → β → Prop} (h : List.Forall₂ R xs ys) :
    List.Forall₂ R (b.arrange xs) (b.arrange ys) := by
  unfold arrange
  induction b.order with
  | nil => exact .nil
  | cons i is ih =>
    rw [List.filterMap_cons, List.filterMap_cons]
    cases hx : xs[i]? with
    | none =>
      rw [List.getElem?_eq_none_iff, h.length_eq] at hx
      rw [List.getElem?_eq_none hx]
      exact ih
    | some x =>
      obtain ⟨hi, rfl⟩ := List.getElem?_eq_some_iff.mp hx
      rw [List.getElem?_eq_getElem (h.length_eq ▸ hi)]
      exact .cons (h.get hi _) ih

/-- The order names every part once. -/
def IsProper (b : Block) : Prop := b.order.Perm (List.range b.lens.length)

instance (b : Block) : Decidable b.IsProper :=
  inferInstanceAs (Decidable (b.order.Perm (List.range b.lens.length)))

theorem length_arrange (h : b.IsProper) (hlength : xs.length = b.lens.length) :
    (b.arrange xs).length = xs.length := by
  have hall : ∀ i ∈ b.order, (xs[i]?).isSome = true := by
    intro i hi
    rw [h.mem_iff, List.mem_range, ← hlength] at hi
    rw [List.getElem?_eq_getElem hi]
    rfl
  rw [arrange, List.length_filterMap_eq_countP, List.countP_eq_length.mpr hall, h.length_eq,
    List.length_range, hlength]

end Block

/-- Whether parts of a node of this kind may be moved. -/
def SyntaxKind.hasParts (k : SyntaxKind) : Bool := k == .switchExpr || k == .switchCaseLabel

namespace Element

/-! ### Parts -/

/-- Whether the element is the token of a node of kind `k` behind which the parts of the node stand. -/
def opens (k : SyntaxKind) : Element → Bool
  | token t => k == .switchExpr && t.kind == .leftBrace || k == .switchCaseLabel && t.kind == .caseKw
  | node _ _ => false

/-- The part of a child that moves: a case as it is, and of an item its pattern. -/
def part (k : SyntaxKind) (e : Element) : Element :=
  match k, e with
  | .switchCaseLabel, node _ (p :: _) => p
  | _, e => e

/-- A child with another part. -/
def withPart (k : SyntaxKind) (e p : Element) : Element :=
  match k, e with
  | .switchCaseLabel, node j (_ :: rest) => node j (p :: rest)
  | _, _ => p

/-- The children behind the token that opens a block, with their parts in order; the last of them closes
the block. -/
def arranged (k : SyntaxKind) (b : Block) (es : List Element) : List Element :=
  List.zipWith (withPart k) es.dropLast (b.arrange (es.dropLast.map (part k))) ++ es.getLast?.toList

/-- The block that an element opens in a node of kind `k`; behind it is byte `o`. -/
def block? (P : Plan) (k : SyntaxKind) (o : Nat) (e : Element) : Option Block :=
  if e.opens k then P o else none

mutual
/-- The element, which starts at byte `o`, with the parts of all blocks in order. -/
def moved (P : Plan) : (o : Nat) → Element → Element
  | _, token t => token t
  | o, node k es => node k (movedIn P k o es)
/-- The elements, the first of which starts at byte `o`, with the parts of all blocks below them in
order. -/
def movedAll (P : Plan) : (o : Nat) → List Element → List Element
  | _, [] => []
  | o, e :: es => moved P o e :: movedAll P (o + e.fullLen) es
/-- The children of a node of kind `k`, the first of which starts at byte `o`, with the parts of all blocks
in order. -/
def movedIn (P : Plan) (k : SyntaxKind) : (o : Nat) → List Element → List Element
  | _, [] => []
  | o, e :: es =>
    moved P o e ::
      match block? P k (o + e.fullLen) e with
      | some b => arranged k b (movedAll P (o + e.fullLen) es)
      | none => movedIn P k (o + e.fullLen) es
end

/-- The block lies around the parts of the children, in front of the last of them. -/
structure IsLaid (k : SyntaxKind) (b : Block) (es : List Element) : Prop where
  lens : b.lens = es.dropLast.map fun e => (part k e).fullLen
  proper : b.IsProper

mutual
/-- Whether every block at or below the element lies around parts of a node, and no other token opens
one. -/
def Conforms (P : Plan) : (o : Nat) → Element → Prop
  | o, token t => P (o + t.fullLen) = none
  | o, node k es => ConformsIn P k o es
/-- Whether each of the elements conforms to the plan. -/
def ConformsAll (P : Plan) : (o : Nat) → List Element → Prop
  | _, [] => True
  | o, e :: es => Conforms P o e ∧ ConformsAll P (o + e.fullLen) es
/-- Whether the children of a node of kind `k` conform to the plan. -/
def ConformsIn (P : Plan) (k : SyntaxKind) : (o : Nat) → List Element → Prop
  | _, [] => True
  | o, e :: es =>
    match block? P k (o + e.fullLen) e with
    | some b => IsLaid k b es ∧ ConformsAll P (o + e.fullLen) es
    | none => Conforms P o e ∧ ConformsIn P k (o + e.fullLen) es
end

/-- No block stands behind any of the children of a node of kind `k`. -/
def Shut (P : Plan) (k : SyntaxKind) : (o : Nat) → List Element → Prop
  | _, [] => True
  | o, e :: es => block? P k (o + e.fullLen) e = none ∧ Shut P k (o + e.fullLen) es

variable {P : Plan} {b : Block} {o : Nat} {k : SyntaxKind} {e : Element} {es fs : List Element}

/-! ### Equations -/

@[simp] theorem moved_token (t : Token) : moved P o (token t) = token t := by rw [moved]

@[simp] theorem moved_node (k : SyntaxKind) (es : List Element) :
    moved P o (node k es) = node k (movedIn P k o es) := by
  rw [moved]

@[simp] theorem kind_moved (e : Element) : (moved P o e).kind = e.kind := by
  cases e <;> simp [Element.kind]

@[simp] theorem movedAll_nil : movedAll P o [] = [] := by rw [movedAll]

@[simp] theorem movedAll_cons (e : Element) (es : List Element) :
    movedAll P o (e :: es) = moved P o e :: movedAll P (o + e.fullLen) es := by
  rw [movedAll]

theorem movedAll_append (es fs : List Element) :
    movedAll P o (es ++ fs) = movedAll P o es ++ movedAll P (o + fullLenAll es) fs := by
  induction es generalizing o with
  | nil => simp [fullLenAll]
  | cons e es ih => rw [List.cons_append, movedAll_cons, movedAll_cons, ih, fullLenAll, ← Nat.add_assoc,
      List.cons_append]

theorem conformsAll_append (es fs : List Element) :
    ConformsAll P o (es ++ fs) ↔ ConformsAll P o es ∧ ConformsAll P (o + fullLenAll es) fs := by
  induction es generalizing o with
  | nil => simp [ConformsAll, fullLenAll]
  | cons e es ih =>
    rw [List.cons_append, ConformsAll, ConformsAll, ih, fullLenAll, ← Nat.add_assoc, and_assoc]

theorem conformsAll_single (e : Element) : ConformsAll P o [e] ↔ Conforms P o e := by
  rw [ConformsAll, ConformsAll, and_true]

/-! ### Nodes without blocks -/

theorem block?_of_not_opens (h : e.opens k = false) : block? P k o e = none := by
  rw [block?, h]
  rfl

theorem Shut.of_not_opens (h : ∀ e ∈ es, e.opens k = false) : Shut P k o es := by
  induction es generalizing o with
  | nil => trivial
  | cons e es ih =>
    obtain ⟨hhead, htail⟩ := List.forall_mem_cons.mp h
    exact ⟨block?_of_not_opens hhead, ih htail⟩

theorem movedIn_append (h : Shut P k o es) :
    movedIn P k o (es ++ fs) = movedAll P o es ++ movedIn P k (o + fullLenAll es) fs := by
  induction es generalizing o with
  | nil => simp [fullLenAll]
  | cons e es ih =>
    obtain ⟨hhead, htail⟩ := h
    rw [List.cons_append, movedIn, hhead]
    dsimp only
    rw [ih htail, movedAll_cons, fullLenAll, ← Nat.add_assoc, List.cons_append]

theorem conformsIn_append (h : Shut P k o es) :
    ConformsIn P k o (es ++ fs) ↔ ConformsAll P o es ∧ ConformsIn P k (o + fullLenAll es) fs := by
  induction es generalizing o with
  | nil => simp [ConformsAll, fullLenAll]
  | cons e es ih =>
    obtain ⟨hhead, htail⟩ := h
    rw [List.cons_append, ConformsIn, hhead]
    dsimp only
    rw [ih htail, ConformsAll, fullLenAll, ← Nat.add_assoc, and_assoc]

theorem opens_eq_false (hk : k.hasParts = false) (e : Element) : e.opens k = false := by
  rw [SyntaxKind.hasParts, Bool.or_eq_false_iff] at hk
  cases e with
  | token t => rw [opens, hk.1, hk.2]; rfl
  | node j es => rfl

/-- Where no block stands behind a child. -/
theorem movedIn_of_shut (h : Shut P k o es) : movedIn P k o es = movedAll P o es := by
  have h : movedIn P k o (es ++ []) = _ := movedIn_append h
  rwa [List.append_nil, movedIn, List.append_nil] at h

theorem conformsIn_of_shut (h : Shut P k o es) : ConformsIn P k o es ↔ ConformsAll P o es := by
  have h : ConformsIn P k o (es ++ []) ↔ _ := conformsIn_append h
  rwa [List.append_nil, ConformsIn, and_true] at h

theorem movedIn_eq (hk : k.hasParts = false) : movedIn P k o es = movedAll P o es :=
  movedIn_of_shut (.of_not_opens fun e _ => opens_eq_false hk e)

theorem conformsIn_iff (hk : k.hasParts = false) : ConformsIn P k o es ↔ ConformsAll P o es :=
  conformsIn_of_shut (.of_not_opens fun e _ => opens_eq_false hk e)

/-! ### Where a block opens -/

theorem block?_eq_some : block? P k o e = some b ↔ e.opens k = true ∧ P o = some b := by
  unfold block?
  split <;> simp_all

theorem movedIn_of_block (h : block? P k (o + e.fullLen) e = some b) :
    movedIn P k o (e :: es) = moved P o e :: arranged k b (movedAll P (o + e.fullLen) es) := by
  rw [movedIn, h]

theorem movedIn_of_none (h : block? P k (o + e.fullLen) e = none) :
    movedIn P k o (e :: es) = moved P o e :: movedIn P k (o + e.fullLen) es := by
  rw [movedIn, h]

theorem conformsIn_of_block (h : block? P k (o + e.fullLen) e = some b) :
    ConformsIn P k o (e :: es) ↔ IsLaid k b es ∧ ConformsAll P (o + e.fullLen) es := by
  rw [ConformsIn, h]

theorem conformsIn_of_none (h : block? P k (o + e.fullLen) e = none) :
    ConformsIn P k o (e :: es) ↔ Conforms P o e ∧ ConformsIn P k (o + e.fullLen) es := by
  rw [ConformsIn, h]

/-! ### Parts in order -/

theorem part_of_ne (hk : k ≠ .switchCaseLabel) (e : Element) : part k e = e := by
  unfold part
  split
  · exact absurd rfl hk
  · rfl

theorem withPart_of_ne (hk : k ≠ .switchCaseLabel) (e p : Element) : withPart k e p = p := by
  unfold withPart
  split
  · exact absurd rfl hk
  · rfl

theorem stripped_part (e : Element) : (part k e).stripped = part k e.stripped := by
  by_cases hk : k = .switchCaseLabel
  · subst hk
    match e with
    | token t => rw [stripped_token]; simp [part]
    | node j [] => simp [part]
    | node j (p :: es) => simp [part]
  · rw [part_of_ne hk, part_of_ne hk]

theorem stripped_withPart (e p : Element) : (withPart k e p).stripped = withPart k e.stripped p.stripped := by
  by_cases hk : k = .switchCaseLabel
  · subst hk
    match e with
    | token t => rw [stripped_token]; simp [withPart]
    | node j [] => simp [withPart]
    | node j (p :: es) => simp [withPart]
  · rw [withPart_of_ne hk, withPart_of_ne hk]

theorem strippedAll_arranged (es : List Element) :
    strippedAll (arranged k b es) = arranged k b (strippedAll es) := by
  have hparts : (es.map stripped).dropLast.map (part k) = (es.dropLast.map (part k)).map stripped := by
    rw [← List.map_dropLast, List.map_map, List.map_map]
    exact List.map_congr_left fun e _ => (stripped_part e).symm
  have hwith : ∀ ps : List Element, (List.zipWith (withPart k) es.dropLast ps).map stripped =
      List.zipWith (withPart k) (es.dropLast.map stripped) (ps.map stripped) := by
    intro ps
    rw [List.map_zipWith, List.zipWith_map]
    simp only [stripped_withPart]
  simp only [arranged, strippedAll_eq_map, List.map_append]
  rw [hparts, hwith, ← Block.arrange_map, List.map_dropLast, List.getLast?_map]
  cases es.getLast? <;> rfl

/-- Cases stand in their order in front of the brace. -/
theorem arranged_switchExpr (hproper : b.IsProper) (hlength : es.length = b.lens.length) :
    arranged .switchExpr b (es ++ [e]) = b.arrange es ++ [e] := by
  have hparts : es.map (part .switchExpr) = es := by
    rw [List.map_congr_left fun e _ => part_of_ne (by decide) e, List.map_id']
  have hwith : List.zipWith (withPart .switchExpr) es (b.arrange es) = b.arrange es := by
    have hlength := Block.length_arrange hproper hlength
    have hsnd : ∀ p ∈ es.zip (b.arrange es), Function.uncurry (withPart .switchExpr) p = p.2 :=
      fun p _ => withPart_of_ne (by decide) p.1 p.2
    rw [← List.map_uncurry_zip_eq_zipWith, List.map_congr_left hsnd]
    exact List.map_snd_zip (Nat.le_of_eq hlength)
  rw [arranged, List.dropLast_concat, List.getLast?_concat, hparts, hwith]
  rfl

/-- The items of a label with these patterns, a comma behind each but the last, without trivia. -/
def labelItems : List Element → List Element
  | [] => []
  | [p] => [node .switchCaseItem [p]]
  | p :: q :: ps => node .switchCaseItem [p, token ⟨.comma, ",", [], []⟩] :: labelItems (q :: ps)

theorem part_labelItems (ps : List Element) : (labelItems ps).map (part .switchCaseLabel) = ps := by
  fun_induction labelItems ps with
  | case1 => rfl
  | case2 => rfl
  | case3 p q ps ih => rw [List.map_cons, ih]; rfl

theorem withPart_labelItems (ps qs : List Element) (h : qs.length = ps.length) :
    List.zipWith (withPart .switchCaseLabel) (labelItems ps) qs = labelItems qs := by
  fun_induction labelItems ps generalizing qs with
  | case1 =>
    rw [List.length_eq_zero_iff.mp h]
    rfl
  | case2 p =>
    obtain ⟨q, rfl⟩ := List.length_eq_one_iff.mp h
    rfl
  | case3 p p' ps ih =>
    match qs, h with
    | q :: q' :: qs, h =>
      rw [List.zipWith_cons_cons, ih (q' :: qs) (Nat.succ.inj h)]
      rfl

/-- The commas of a label stay where they are. -/
theorem arranged_labelItems (hproper : b.IsProper) (hlength : es.length = b.lens.length) :
    arranged .switchCaseLabel b (labelItems es ++ [e]) = labelItems (b.arrange es) ++ [e] := by
  rw [arranged, List.dropLast_concat, List.getLast?_concat, part_labelItems,
    withPart_labelItems _ _ (Block.length_arrange hproper hlength)]
  rfl

end Element

end SwiftTidy
