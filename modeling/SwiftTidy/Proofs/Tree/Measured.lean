import SwiftTidy.Proofs.Tree.Building

/-!
# Elements that keep their lengths

A node keeps the number of its bytes, which is added up from its children when the node is built.  Here the
number is a part of the node (`Measured`); without the numbers a tree is the plain one (`erase`).

Nodes are built from their children and in no other way (`Made`), so each keeps the number of bytes that it
renders to (`Made.exact`).  An edit at an edge puts the changed child in its place and builds the nodes above
it once more (`mapEdge`).  Whatever it gives is made again, and without the numbers it is the plain edit
(`made_mapEdge`); and it gives something as long as 32 bits hold the length (`exists_mapEdge_eq_ok`).
-/

namespace SwiftTidy

/-! ### Sums in 32 bits -/

theorem Offset.eq_of_add_eq_ok {a b c : Nat} (h : add a b = .ok c) : c = a + b := by
  rw [add] at h
  split at h <;> cases h
  rfl

theorem Offset.eq_of_foldlM_add_eq_ok {a n : Nat} {as : List Nat} (h : as.foldlM add a = .ok n) :
    n = a + as.sum := by
  induction as generalizing a with
  | nil =>
    cases h
    rfl
  | cons b as ih =>
    rw [List.foldlM_cons] at h
    obtain ⟨c, hc, h⟩ := Except.bind_eq_ok.mp h
    rw [ih h, eq_of_add_eq_ok hc, List.sum_cons, Nat.add_assoc]

theorem Offset.eq_of_sum_eq_ok {as : List Nat} {n : Nat} (h : sum as = .ok n) : n = as.sum := by
  rw [eq_of_foldlM_add_eq_ok h, Nat.zero_add]

/-- A token is measured right or not at all. -/
theorem Token.eq_of_measure_eq_ok {t : Token} {n : Nat} (h : t.measure = .ok n) : n = t.fullLen := by
  rw [measure] at h
  obtain ⟨leading, hleading, h⟩ := Except.bind_eq_ok.mp h
  obtain ⟨trailing, htrailing, h⟩ := Except.bind_eq_ok.mp h
  obtain ⟨front, hfront, h⟩ := Except.bind_eq_ok.mp h
  rw [Offset.eq_of_add_eq_ok h, Offset.eq_of_add_eq_ok hfront, Offset.eq_of_sum_eq_ok hleading,
    Offset.eq_of_sum_eq_ok htrailing, Trivia.sum_map_len, Trivia.sum_map_len, fullLen]

/-! ### Edges -/

/-- An end of an element. -/
inductive Edge where
  | first
  | last

namespace Element

/-- Applies `f` to the leaf at the edge; `none` when there is no leaf. -/
def mapEdgeToken? : Edge → (Token → Token) → Element → Option Element
  | .first => mapFirstToken?
  | .last => mapLastToken?

/-- Applies `f` to the leaf at the edge of a list of elements. -/
def mapEdgeTokenOf? : Edge → (Token → Token) → List Element → Option (List Element)
  | .first => mapFirstTokenOf?
  | .last => mapLastTokenOf?

/-- Applies `f` to the leaf at the edge; an element without leaves stays as it is. -/
def mapEdgeToken : Edge → (Token → Token) → Element → Element
  | .first => mapFirstToken
  | .last => mapLastToken

variable {edge : Edge} {f : Token → Token}

theorem mapEdgeToken_eq (e : Element) : e.mapEdgeToken edge f = (e.mapEdgeToken? edge f).getD e := by
  cases edge <;> rfl

theorem mapEdgeToken?_token (t : Token) :
    (Element.token t).mapEdgeToken? edge f = some (.token (f t)) := by
  cases edge
  · exact mapFirstToken?.eq_1 f t
  · exact mapLastToken?.eq_1 f t

theorem mapEdgeToken?_node (k : SyntaxKind) (es : List Element) :
    (Element.node k es).mapEdgeToken? edge f = (mapEdgeTokenOf? edge f es).map (.node k) := by
  cases edge
  · exact mapFirstToken?.eq_2 f k es
  · exact mapLastToken?.eq_2 f k es

end Element

/-! ### Trees with lengths -/

/-- An element whose nodes keep their lengths. -/
inductive Measured where
  | token (t : Token)
  | node (kind : SyntaxKind) (length : Nat) (children : List Measured)

namespace Measured

mutual
/-- The element without the lengths that its nodes keep. -/
def erase : Measured → Element
  | token t => .token t
  | node k _ gs => .node k (eraseAll gs)
/-- The elements without the lengths that their nodes keep. -/
def eraseAll : List Measured → List Element
  | [] => []
  | g :: gs => g.erase :: eraseAll gs
end

/-- The number of bytes: a token is measured, and a node has kept its length. -/
def measure : Measured → Except Fault Nat
  | token t => t.measure
  | node _ n _ => .ok n

/-- A node that keeps the length which is added up from its children. -/
def make (k : SyntaxKind) (gs : List Measured) : Except Fault Measured := do
  let lens ← gs.mapM measure
  return node k (← Offset.sum lens) gs

mutual
/-- Applies `f` to the leaf at the edge and makes the nodes above it anew. -/
def mapEdge? (edge : Edge) (f : Token → Token) : Measured → Except Fault (Option Measured)
  | token t => .ok (some (token (f t)))
  | node k _ gs => do
    match ← mapEdgeOf? edge f gs with
    | none => return none
    | some gs' => return some (← make k gs')
/-- Applies `f` to the leaf at the edge of a list of elements: elements without leaves are passed over. -/
def mapEdgeOf? (edge : Edge) (f : Token → Token) :
    List Measured → Except Fault (Option (List Measured))
  | [] => .ok none
  | g :: gs =>
    match edge with
    | .first => do
      match ← mapEdge? .first f g with
      | some g' => return some (g' :: gs)
      | none => return (← mapEdgeOf? .first f gs).map (g :: ·)
    | .last => do
      match ← mapEdgeOf? .last f gs with
      | some gs' => return some (g :: gs')
      | none => return (← mapEdge? .last f g).map (· :: gs)
end

/-- Applies `f` to the leaf at the edge; an element without leaves stays as it is. -/
def mapEdge (edge : Edge) (f : Token → Token) (g : Measured) : Except Fault Measured := do
  return (← g.mapEdge? edge f).getD g

/-- What can be built: tokens, and nodes that are made from what can be built. -/
inductive Made : Measured → Prop
  | token (t : Token) : Made (.token t)
  | node {k : SyntaxKind} {gs : List Measured} {g : Measured} (hgs : ∀ x ∈ gs, Made x)
      (hmake : make k gs = .ok g) : Made g

/-- Every node at or below keeps the number of bytes that it renders to. -/
inductive Exact : Measured → Prop
  | token (t : Token) : Exact (.token t)
  | node {k : SyntaxKind} {n : Nat} {gs : List Measured} (hgs : ∀ x ∈ gs, Exact x)
      (hn : n = (Element.node k (eraseAll gs)).fullText.utf8ByteSize) : Exact (.node k n gs)

variable {k : SyntaxKind} {n : Nat} {g g' : Measured} {gs : List Measured}

theorem eraseAll_eq_map (gs : List Measured) : eraseAll gs = gs.map erase := by
  induction gs with
  | nil => rw [eraseAll, List.map_nil]
  | cons g gs ih => rw [eraseAll, ih, List.map_cons]

theorem sum_map_fullLen (gs : List Measured) :
    (gs.map fun g => g.erase.fullLen).sum = Element.fullLenAll (eraseAll gs) := by
  rw [← Element.sum_map_fullLen, eraseAll_eq_map, List.map_map]
  rfl

/-! ### Lengths -/

/-- A node that is made has the children that it is made from. -/
theorem exists_of_make_eq_ok (h : make k gs = .ok g) :
    ∃ lens n, gs.mapM measure = .ok lens ∧ Offset.sum lens = .ok n ∧ g = .node k n gs := by
  rw [make] at h
  obtain ⟨lens, hlens, h⟩ := Except.bind_eq_ok.mp h
  obtain ⟨n, hn, h⟩ := Except.bind_eq_ok.mp h
  cases h
  exact ⟨lens, n, hlens, hn, rfl⟩

theorem erase_of_make_eq_ok (h : make k gs = .ok g) : g.erase = .node k (eraseAll gs) := by
  obtain ⟨lens, n, -, -, rfl⟩ := exists_of_make_eq_ok h
  rw [erase]

/-- What is kept is what is measured. -/
theorem Exact.eq_of_measure_eq_ok (hg : g.Exact) (h : g.measure = .ok n) : n = g.erase.fullLen := by
  cases hg with
  | token t =>
    rw [erase, Element.fullLen]
    exact Token.eq_of_measure_eq_ok h
  | node _ hn =>
    cases h
    rw [erase, hn, Element.utf8ByteSize_fullText]

theorem Exact.measure_eq_ok (hg : g.Exact) (h : g.erase.fullLen < Offset.limit) :
    g.measure = .ok g.erase.fullLen := by
  cases hg with
  | token t =>
    rw [erase, Element.fullLen] at h ⊢
    exact Token.measure_eq_ok h
  | node _ hn => rw [measure, hn, erase, Element.utf8ByteSize_fullText]

/-- A node that is made from exact elements is exact. -/
theorem exact_of_make_eq_ok (hgs : ∀ x ∈ gs, x.Exact) (h : make k gs = .ok g) : g.Exact := by
  obtain ⟨lens, n, hlens, hn, rfl⟩ := exists_of_make_eq_ok h
  refine .node hgs ?_
  rw [Offset.eq_of_sum_eq_ok hn, Element.utf8ByteSize_fullText, Element.fullLen, ← sum_map_fullLen,
    Except.eq_map_of_mapM_eq_ok hlens fun x hx n hn => (hgs x hx).eq_of_measure_eq_ok hn]

/-- A node can be made if 32 bits hold its length. -/
theorem exists_make_eq_ok (hgs : ∀ x ∈ gs, x.Exact)
    (h : Element.fullLenAll (eraseAll gs) < Offset.limit) : ∃ g, make k gs = .ok g := by
  have hlens : gs.mapM measure = .ok (gs.map fun x => x.erase.fullLen) := by
    refine Except.mapM_eq_ok fun x hx => (hgs x hx).measure_eq_ok (Nat.lt_of_le_of_lt ?_ h)
    rw [eraseAll_eq_map]
    exact Element.fullLen_le_of_mem (List.mem_map_of_mem hx)
  refine ⟨.node k (Element.fullLenAll (eraseAll gs)) gs, ?_⟩
  rw [make, hlens]
  show (Offset.sum (gs.map fun x => x.erase.fullLen) >>= fun n => pure (node k n gs)) = _
  rw [Offset.sum_eq_ok (by rwa [sum_map_fullLen]), sum_map_fullLen]
  rfl

namespace Made

theorem exact (h : g.Made) : g.Exact := by
  induction h with
  | token t => exact .token t
  | node _ hmake ih => exact exact_of_make_eq_ok ih hmake

theorem children (h : (Measured.node k n gs).Made) : ∀ x ∈ gs, x.Made := by
  cases h with
  | node hgs hmake =>
    obtain ⟨lens, m, -, -, heq⟩ := exists_of_make_eq_ok hmake
    cases heq
    exact hgs

end Made

mutual
/-- An element can be built if 32 bits hold its length. -/
theorem exists_made : ∀ {e : Element}, e.fullLen < Offset.limit → ∃ g : Measured, g.Made ∧ g.erase = e
  | .token t, _ => ⟨token t, .token t, by rw [erase]⟩
  | .node k es, h => by
    rw [Element.fullLen] at h
    obtain ⟨gs, hgs, rfl⟩ := exists_madeAll h
    obtain ⟨g, hg⟩ := exists_make_eq_ok (k := k) (fun x hx => (hgs x hx).exact) h
    exact ⟨g, .node hgs hg, erase_of_make_eq_ok hg⟩
theorem exists_madeAll : ∀ {es : List Element}, Element.fullLenAll es < Offset.limit →
    ∃ gs : List Measured, (∀ x ∈ gs, x.Made) ∧ eraseAll gs = es
  | [], _ => ⟨[], List.forall_mem_nil _, by rw [eraseAll]⟩
  | e :: es, h => by
    rw [Element.fullLenAll] at h
    obtain ⟨g, hg, rfl⟩ := exists_made (Nat.lt_of_le_of_lt (Nat.le_add_right _ _) h)
    obtain ⟨gs, hgs, rfl⟩ := exists_madeAll (Nat.lt_of_le_of_lt (Nat.le_add_left _ _) h)
    exact ⟨g :: gs, List.forall_mem_cons.mpr ⟨hg, hgs⟩, by rw [eraseAll]⟩
end

/-! ### Edits at the edges -/

variable {f : Token → Token} {edge : Edge}

theorem mapEdge?_node_cases {r : Option Measured} (h : (node k n gs).mapEdge? edge f = .ok r) :
    (mapEdgeOf? edge f gs = .ok none ∧ r = none) ∨
    ∃ gs' g', mapEdgeOf? edge f gs = .ok (some gs') ∧ make k gs' = .ok g' ∧ r = some g' := by
  rw [mapEdge?] at h
  obtain ⟨r', hr', h⟩ := Except.bind_eq_ok.mp h
  cases r' with
  | none =>
    cases h
    exact .inl ⟨hr', rfl⟩
  | some gs' =>
    obtain ⟨g', hmake, h⟩ := Except.bind_eq_ok.mp h
    cases h
    exact .inr ⟨gs', g', hr', hmake, rfl⟩

/-- From the front: the first element is edited, or it has no leaf and the others are. -/
theorem mapEdgeOf?_first_cases {r : Option (List Measured)}
    (h : mapEdgeOf? .first f (g :: gs) = .ok r) :
    (∃ g', g.mapEdge? .first f = .ok (some g') ∧ r = some (g' :: gs)) ∨
    ∃ r', g.mapEdge? .first f = .ok none ∧ mapEdgeOf? .first f gs = .ok r' ∧ r = r'.map (g :: ·) := by
  rw [mapEdgeOf?] at h
  obtain ⟨r₁, hr₁, h⟩ := Except.bind_eq_ok.mp h
  cases r₁ with
  | some g' =>
    cases h
    exact .inl ⟨g', hr₁, rfl⟩
  | none =>
    obtain ⟨r₂, hr₂, h⟩ := Except.bind_eq_ok.mp h
    cases h
    exact .inr ⟨r₂, hr₁, hr₂, rfl⟩

/-- From the back: the others are edited, or they have no leaf and the first element is. -/
theorem mapEdgeOf?_last_cases {r : Option (List Measured)}
    (h : mapEdgeOf? .last f (g :: gs) = .ok r) :
    (∃ gs', mapEdgeOf? .last f gs = .ok (some gs') ∧ r = some (g :: gs')) ∨
    ∃ r', mapEdgeOf? .last f gs = .ok none ∧ g.mapEdge? .last f = .ok r' ∧ r = r'.map (· :: gs) := by
  rw [mapEdgeOf?] at h
  obtain ⟨r₁, hr₁, h⟩ := Except.bind_eq_ok.mp h
  cases r₁ with
  | some gs' =>
    cases h
    exact .inl ⟨gs', hr₁, rfl⟩
  | none =>
    obtain ⟨r₂, hr₂, h⟩ := Except.bind_eq_ok.mp h
    cases h
    exact .inr ⟨r₂, hr₁, hr₂, rfl⟩

mutual
/-- Without the lengths, an edit at an edge is the plain one. -/
theorem erase_mapEdge? : ∀ {edge : Edge} {g : Measured} {r : Option Measured},
    g.mapEdge? edge f = .ok r → r.map erase = g.erase.mapEdgeToken? edge f
  | edge, token t, r, h => by
    rw [mapEdge?] at h
    cases h
    rw [erase, Element.mapEdgeToken?_token, Option.map_some, erase]
  | edge, node k n gs, r, h => by
    rw [erase, Element.mapEdgeToken?_node]
    obtain ⟨hgs, rfl⟩ | ⟨gs', g', hgs, hmake, rfl⟩ := mapEdge?_node_cases h
    · rw [← eraseAll_mapEdgeOf? hgs]
      rfl
    · rw [← eraseAll_mapEdgeOf? hgs]
      exact congrArg some (erase_of_make_eq_ok hmake)
theorem eraseAll_mapEdgeOf? : ∀ {edge : Edge} {gs : List Measured} {r : Option (List Measured)},
    mapEdgeOf? edge f gs = .ok r → r.map eraseAll = Element.mapEdgeTokenOf? edge f (eraseAll gs)
  | edge, [], r, h => by
    rw [mapEdgeOf?] at h
    cases h
    rw [eraseAll]
    cases edge <;> rfl
  | .first, g :: gs, r, h => by
    rw [eraseAll, Element.mapEdgeTokenOf?, Element.mapFirstTokenOf?]
    obtain ⟨g', hg, rfl⟩ | ⟨r', hg, hgs, rfl⟩ := mapEdgeOf?_first_cases h
    · have hedit : some g'.erase = g.erase.mapFirstToken? f := erase_mapEdge? hg
      rw [← hedit, Option.map_some, eraseAll]
    · have hnone : none = g.erase.mapFirstToken? f := erase_mapEdge? hg
      have hedit : r'.map eraseAll = Element.mapFirstTokenOf? f (eraseAll gs) := eraseAll_mapEdgeOf? hgs
      rw [← hnone, ← hedit, Option.map_map, Option.map_map]
      exact congrArg (Option.map · r') (funext fun gs' => eraseAll.eq_2 g gs')
  | .last, g :: gs, r, h => by
    rw [eraseAll, Element.mapEdgeTokenOf?, Element.mapLastTokenOf?]
    obtain ⟨gs', hgs, rfl⟩ | ⟨r', hgs, hg, rfl⟩ := mapEdgeOf?_last_cases h
    · have hedit : some (eraseAll gs') = Element.mapLastTokenOf? f (eraseAll gs) :=
        eraseAll_mapEdgeOf? hgs
      rw [← hedit, Option.map_some, eraseAll]
    · have hnone : none = Element.mapLastTokenOf? f (eraseAll gs) := eraseAll_mapEdgeOf? hgs
      have hedit : r'.map erase = g.erase.mapLastToken? f := erase_mapEdge? hg
      rw [← hnone, ← hedit, Option.map_map, Option.map_map]
      exact congrArg (Option.map · r') (funext fun g' => eraseAll.eq_2 g' gs)
end

mutual
/-- What an edit at an edge gives is made again. -/
theorem made_mapEdge? : ∀ {edge : Edge} {g : Measured} {r : Option Measured}, g.Made →
    g.mapEdge? edge f = .ok r → ∀ g' ∈ r, g'.Made
  | edge, token t, r, _, h, g', hg' => by
    rw [mapEdge?] at h
    cases h
    cases hg'
    exact .token (f t)
  | edge, node k n gs, r, hg, h, g', hg' => by
    obtain ⟨-, rfl⟩ | ⟨gs', x, hgs, hmake, rfl⟩ := mapEdge?_node_cases h
    · cases hg'
    · cases hg'
      exact .node (made_mapEdgeOf? hg.children hgs gs' rfl) hmake
theorem made_mapEdgeOf? : ∀ {edge : Edge} {gs : List Measured} {r : Option (List Measured)},
    (∀ x ∈ gs, x.Made) → mapEdgeOf? edge f gs = .ok r → ∀ gs' ∈ r, ∀ x ∈ gs', x.Made
  | edge, [], r, _, h, gs', hgs' => by
    rw [mapEdgeOf?] at h
    cases h
    cases hgs'
  | .first, g :: gs, r, hmade, h, gs', hgs' => by
    obtain ⟨hg, hgs⟩ := List.forall_mem_cons.mp hmade
    obtain ⟨x, hx, rfl⟩ | ⟨r', -, hr', rfl⟩ := mapEdgeOf?_first_cases h
    · cases hgs'
      exact List.forall_mem_cons.mpr ⟨made_mapEdge? hg hx x rfl, hgs⟩
    · obtain ⟨xs, rfl, rfl⟩ := Option.map_eq_some_iff.mp hgs'
      exact List.forall_mem_cons.mpr ⟨hg, made_mapEdgeOf? hgs hr' xs rfl⟩
  | .last, g :: gs, r, hmade, h, gs', hgs' => by
    obtain ⟨hg, hgs⟩ := List.forall_mem_cons.mp hmade
    obtain ⟨xs, hxs, rfl⟩ | ⟨r', -, hr', rfl⟩ := mapEdgeOf?_last_cases h
    · cases hgs'
      exact List.forall_mem_cons.mpr ⟨hg, made_mapEdgeOf? hgs hxs xs rfl⟩
    · obtain ⟨x, rfl, rfl⟩ := Option.map_eq_some_iff.mp hgs'
      exact List.forall_mem_cons.mpr ⟨made_mapEdge? hg hr' x rfl, hgs⟩
end

mutual
/-- An edit can be made if 32 bits hold the length of what it gives. -/
theorem exists_mapEdge?_eq_ok : ∀ {edge : Edge} {g : Measured}, g.Made →
    (∀ e, g.erase.mapEdgeToken? edge f = some e → e.fullLen < Offset.limit) →
    ∃ r, g.mapEdge? edge f = .ok r
  | edge, token t, _, _ => ⟨_, by rw [mapEdge?]⟩
  | edge, node k n gs, hg, h => by
    rw [erase, Element.mapEdgeToken?_node] at h
    have hes : ∀ es, Element.mapEdgeTokenOf? edge f (eraseAll gs) = some es →
        Element.fullLenAll es < Offset.limit := by
      intro es hes
      have hlen := h (.node k es) (by rw [hes, Option.map_some])
      rwa [Element.fullLen] at hlen
    obtain ⟨r, hr⟩ := exists_mapEdgeOf?_eq_ok hg.children hes
    rw [mapEdge?, hr]
    cases r with
    | none => exact ⟨none, rfl⟩
    | some gs' =>
      have hmade := made_mapEdgeOf? hg.children hr gs' rfl
      obtain ⟨g', hg'⟩ := exists_make_eq_ok (k := k) (fun x hx => (hmade x hx).exact)
        (hes (eraseAll gs') (eraseAll_mapEdgeOf? hr).symm)
      refine ⟨some g', ?_⟩
      show (make k gs' >>= fun g' => pure (some g')) = _
      rw [hg']
      rfl
theorem exists_mapEdgeOf?_eq_ok : ∀ {edge : Edge} {gs : List Measured}, (∀ x ∈ gs, x.Made) →
    (∀ es, Element.mapEdgeTokenOf? edge f (eraseAll gs) = some es →
      Element.fullLenAll es < Offset.limit) →
    ∃ r, mapEdgeOf? edge f gs = .ok r
  | edge, [], _, _ => ⟨none, by rw [mapEdgeOf?]⟩
  | .first, g :: gs, hmade, h => by
    obtain ⟨hg, hgs⟩ := List.forall_mem_cons.mp hmade
    rw [eraseAll, Element.mapEdgeTokenOf?, Element.mapFirstTokenOf?] at h
    obtain ⟨r₁, hr₁⟩ : ∃ r, g.mapEdge? .first f = .ok r := by
      refine exists_mapEdge?_eq_ok hg fun e he => ?_
      rw [Element.mapEdgeToken?] at he
      have hlen := h (e :: eraseAll gs) (by rw [he])
      rw [Element.fullLenAll] at hlen
      omega
    rw [mapEdgeOf?, hr₁]
    cases r₁ with
    | some g' => exact ⟨_, rfl⟩
    | none =>
      -- the plain edit passes over the same element, so its result bounds that of the others
      have he : g.erase.mapFirstToken? f = none := (erase_mapEdge? hr₁).symm
      obtain ⟨r₂, hr₂⟩ : ∃ r, mapEdgeOf? .first f gs = .ok r := by
        refine exists_mapEdgeOf?_eq_ok hgs fun es hes => ?_
        rw [Element.mapEdgeTokenOf?] at hes
        have hlen := h (g.erase :: es) (by rw [he, hes]; rfl)
        rw [Element.fullLenAll] at hlen
        omega
      refine ⟨r₂.map (g :: ·), ?_⟩
      show (mapEdgeOf? .first f gs >>= fun gs' => pure (gs'.map (g :: ·))) = _
      rw [hr₂]
      rfl
  | .last, g :: gs, hmade, h => by
    obtain ⟨hg, hgs⟩ := List.forall_mem_cons.mp hmade
    rw [eraseAll, Element.mapEdgeTokenOf?, Element.mapLastTokenOf?] at h
    obtain ⟨r₁, hr₁⟩ : ∃ r, mapEdgeOf? .last f gs = .ok r := by
      refine exists_mapEdgeOf?_eq_ok hgs fun es hes => ?_
      rw [Element.mapEdgeTokenOf?] at hes
      have hlen := h (g.erase :: es) (by rw [hes])
      rw [Element.fullLenAll] at hlen
      omega
    rw [mapEdgeOf?, hr₁]
    cases r₁ with
    | some gs' => exact ⟨_, rfl⟩
    | none =>
      have hes : Element.mapLastTokenOf? f (eraseAll gs) = none := (eraseAll_mapEdgeOf? hr₁).symm
      obtain ⟨r₂, hr₂⟩ : ∃ r, g.mapEdge? .last f = .ok r := by
        refine exists_mapEdge?_eq_ok hg fun e he => ?_
        rw [Element.mapEdgeToken?] at he
        have hlen := h (e :: eraseAll gs) (by rw [hes, he]; rfl)
        rw [Element.fullLenAll] at hlen
        omega
      refine ⟨r₂.map (· :: gs), ?_⟩
      show (mapEdge? .last f g >>= fun g' => pure (g'.map (· :: gs))) = _
      rw [hr₂]
      rfl
end

/-- What an edit at an edge gives is made again, and without the lengths it is what the plain edit gives. -/
theorem made_mapEdge (hg : g.Made) (h : g.mapEdge edge f = .ok g') :
    g'.Made ∧ g'.erase = g.erase.mapEdgeToken edge f := by
  rw [mapEdge] at h
  obtain ⟨r, hr, h⟩ := Except.bind_eq_ok.mp h
  rw [Element.mapEdgeToken_eq, ← erase_mapEdge? hr]
  cases r with
  | none =>
    cases h
    exact ⟨hg, rfl⟩
  | some x =>
    cases h
    exact ⟨made_mapEdge? hg hr x rfl, rfl⟩

/-- An edit can be made if 32 bits hold the length of what it gives. -/
theorem exists_mapEdge_eq_ok (hg : g.Made)
    (h : (g.erase.mapEdgeToken edge f).fullLen < Offset.limit) : ∃ g', g.mapEdge edge f = .ok g' := by
  obtain ⟨r, hr⟩ : ∃ r, g.mapEdge? edge f = .ok r := exists_mapEdge?_eq_ok hg fun e he => by
    rwa [Element.mapEdgeToken_eq, he, Option.getD_some] at h
  refine ⟨r.getD g, ?_⟩
  rw [mapEdge, hr]
  rfl

end Measured

end SwiftTidy
