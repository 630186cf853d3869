import Mathlib.Data.List.ModifyLast
import SwiftTidy.Proofs.Tree.Measured
import SwiftTidy.Proofs.Tree.Omission

/-!
# Edits at the edges of an element

An edit at an edge changes one leaf, the first or the last one, however deep below nodes without leaves the
search for it goes, and all else stays where it is (`edgeEdits`): the nodes with their kinds, the other
leaves, and the length that a node keeps is the number of bytes that it renders to.

What is left of an element without its tokens is its `outline`; elements of one shape have the same.
-/

namespace SwiftTidy

/-- What is left of an element without its tokens. -/
inductive Outline where
  | leaf
  | node (kind : SyntaxKind) (children : List Outline)

namespace Element

mutual
/-- The nodes of an element, and where its leaves are. -/
def outline : Element → Outline
  | token _ => .leaf
  | node k es => .node k (outlineAll es)
/-- The nodes of a list of elements, and where its leaves are. -/
def outlineAll : List Element → List Outline
  | [] => []
  | e :: es => e.outline :: outlineAll es
end

variable {f : Token → Token}

/-! ### One leaf at an edge -/

/-- A relation that holds between a leaf and the edited leaf, and is passed on from a child to the node
above it. -/
structure ReachesUp (f : Token → Token) (R : Element → Element → Prop) : Prop where
  token : ∀ t, R (.token t) (.token (f t))
  node : ∀ k front back e e', R e e' →
    R (.node k (front ++ e :: back)) (.node k (front ++ e' :: back))

variable {R : Element → Element → Prop}

mutual
/-- It holds between an element and what an edit at its edge makes of it. -/
theorem ReachesUp.edited (hR : ReachesUp f R) : ∀ (edge : Edge) {e e' : Element},
    e.mapEdgeToken? edge f = some e' → R e e'
  | edge, .token t, e', h => by
    rw [mapEdgeToken?_token] at h
    cases h
    exact hR.token t
  | edge, .node k es, e', h => by
    rw [mapEdgeToken?_node] at h
    obtain ⟨es', hes', rfl⟩ := Option.map_eq_some_iff.mp h
    obtain ⟨front, e, e', back, rfl, rfl, he⟩ := hR.exists_edited edge hes'
    exact hR.node k front back e e' he
/-- Of a list of elements one is edited. -/
theorem ReachesUp.exists_edited (hR : ReachesUp f R) : ∀ (edge : Edge) {es es' : List Element},
    mapEdgeTokenOf? edge f es = some es' →
      ∃ front e e' back, es = front ++ e :: back ∧ es' = front ++ e' :: back ∧ R e e'
  | .first, [], es', h => by cases h
  | .last, [], es', h => by cases h
  | .first, e :: es, es', h => by
    rw [mapEdgeTokenOf?, mapFirstTokenOf?] at h
    cases he : e.mapFirstToken? f with
    | some e₁ =>
      rw [he] at h
      cases h
      exact ⟨[], e, e₁, es, rfl, rfl, hR.edited .first he⟩
    | none =>
      rw [he] at h
      obtain ⟨es₁, hes₁, rfl⟩ := Option.map_eq_some_iff.mp h
      obtain ⟨front, x, x', back, rfl, rfl, hx⟩ := hR.exists_edited .first hes₁
      exact ⟨e :: front, x, x', back, rfl, rfl, hx⟩
  | .last, e :: es, es', h => by
    rw [mapEdgeTokenOf?, mapLastTokenOf?] at h
    cases hes : mapLastTokenOf? f es with
    | some es₁ =>
      rw [hes] at h
      cases h
      obtain ⟨front, x, x', back, rfl, rfl, hx⟩ := hR.exists_edited .last hes
      exact ⟨e :: front, x, x', back, rfl, rfl, hx⟩
    | none =>
      rw [hes] at h
      obtain ⟨e₁, he₁, rfl⟩ := Option.map_eq_some_iff.mp h
      exact ⟨[], e, e₁, es, rfl, rfl, hR.edited .last he₁⟩
end

/-! ### Shape -/

theorem outlineAll_eq_map (es : List Element) : outlineAll es = es.map outline := by
  induction es with
  | nil => rw [outlineAll, List.map_nil]
  | cons e es ih => rw [outlineAll, ih, List.map_cons]

theorem outline_mapEdgeToken? (edge : Edge) {e e' : Element} (h : e.mapEdgeToken? edge f = some e') :
    e'.outline = e.outline := by
  have hreaches : ReachesUp f fun e e' => e'.outline = e.outline := {
    token := fun t => by rw [outline, outline]
    node := fun k front back e e' he => by
      simp only [outline, outlineAll_eq_map, List.map_append, List.map_cons, he] }
  exact hreaches.edited edge h

theorem outline_mapEdgeToken (edge : Edge) (e : Element) :
    (e.mapEdgeToken edge f).outline = e.outline := by
  rw [mapEdgeToken_eq]
  cases h : e.mapEdgeToken? edge f with
  | none => rfl
  | some e' => exact outline_mapEdgeToken? edge h

theorem outline_transplantTrivia (e donor : Element) :
    (e.transplantTrivia donor).outline = e.outline := by
  exact (outline_mapEdgeToken .last _).trans (outline_mapEdgeToken .first e)

/-! ### What is there without trivia -/

/-- A change of trivia at an edge is none of what is there without trivia. -/
theorem stripped_mapEdgeToken? (hf : ∀ t, (token (f t)).stripped = (token t).stripped) (edge : Edge)
    {e e' : Element} (h : e.mapEdgeToken? edge f = some e') : e'.stripped = e.stripped := by
  have hreaches : ReachesUp f fun e e' => e'.stripped = e.stripped := {
    token := hf
    node := fun k front back e e' he => by
      simp only [stripped_node, strippedAll_append, strippedAll_cons, he] }
  exact hreaches.edited edge h

theorem stripped_mapEdgeToken (hf : ∀ t, (token (f t)).stripped = (token t).stripped) (edge : Edge)
    (e : Element) : (e.mapEdgeToken edge f).stripped = e.stripped := by
  rw [mapEdgeToken_eq]
  cases h : e.mapEdgeToken? edge f with
  | none => rfl
  | some e' => exact stripped_mapEdgeToken? hf edge h

theorem stripped_withLeading (e : Element) (t : Trivia) : (e.withLeading t).stripped = e.stripped :=
  stripped_mapEdgeToken (fun u => by rw [stripped_token, stripped_token]) .first e

theorem stripped_withTrailing (e : Element) (t : Trivia) : (e.withTrailing t).stripped = e.stripped :=
  stripped_mapEdgeToken (fun u => by rw [stripped_token, stripped_token]) .last e

theorem stripped_transplantTrivia (e donor : Element) :
    (e.transplantTrivia donor).stripped = e.stripped :=
  (stripped_withTrailing _ _).trans (stripped_withLeading e _)

/-! ### Leaves -/

theorem leaves_mapFirstToken_eq (e : Element) : (e.mapFirstToken f).leaves = e.leaves.modifyHead f := by
  cases h : e.leaves with
  | nil => rw [mapFirstToken_of_leaves_eq_nil h, h, List.modifyHead_nil]
  | cons t ts => rw [leaves_mapFirstToken h, List.modifyHead_cons]

theorem leaves_mapLastToken_eq (e : Element) : (e.mapLastToken f).leaves = e.leaves.modifyLast f := by
  rcases List.eq_nil_or_concat e.leaves with h | ⟨ts, t, h⟩
  · rw [mapLastToken_of_leaves_eq_nil h, h]
    rfl
  · rw [List.concat_eq_append] at h
    rw [leaves_mapLastToken h, h, List.modifyLast_concat]

/-- The leaves behind the first one stay. -/
theorem tail_leaves_mapFirstToken (e : Element) : (e.mapFirstToken f).leaves.tail = e.leaves.tail := by
  rw [leaves_mapFirstToken_eq]
  cases e.leaves <;> rfl

/-- The leaves in front of the last one stay. -/
theorem dropLast_leaves_mapLastToken (e : Element) :
    (e.mapLastToken f).leaves.dropLast = e.leaves.dropLast := by
  rw [leaves_mapLastToken_eq]
  rcases List.eq_nil_or_concat e.leaves with h | ⟨ts, t, h⟩
  · rw [h]
    rfl
  · rw [h, List.concat_eq_append, List.modifyLast_concat, List.dropLast_concat, List.dropLast_concat]

/-! ### Outer trivia -/

variable {α : Type} {t : Trivia}

/-- What does not look at the trivia in front of a token finds the same in all leaves. -/
theorem map_leaves_withLeading (p : Token → α) (hp : ∀ u : Token, p { u with leading := t } = p u)
    (e : Element) : (e.withLeading t).leaves.map p = e.leaves.map p := by
  rw [withLeading, leaves_mapFirstToken_eq]
  cases e.leaves with
  | nil => rfl
  | cons u us => rw [List.modifyHead_cons, List.map_cons, List.map_cons, hp]

/-- What does not look at the trivia behind a token finds the same in all leaves. -/
theorem map_leaves_withTrailing (p : Token → α) (hp : ∀ u : Token, p { u with trailing := t } = p u)
    (e : Element) : (e.withTrailing t).leaves.map p = e.leaves.map p := by
  rw [withTrailing, leaves_mapLastToken_eq]
  rcases List.eq_nil_or_concat e.leaves with h | ⟨us, u, h⟩
  · rw [h]
    rfl
  · rw [h, List.concat_eq_append, List.modifyLast_concat, List.map_append, List.map_append,
      List.map_singleton, List.map_singleton, hp]

theorem leadingTrivia_withLeading {e : Element} (he : e.leaves ≠ []) (t : Trivia) :
    (e.withLeading t).leadingTrivia = t := by
  obtain ⟨u, us, hleaves⟩ := List.exists_cons_of_ne_nil he
  rw [leadingTrivia_eq, withLeading, leaves_mapFirstToken hleaves]
  rfl

theorem trailingTrivia_withTrailing {e : Element} (he : e.leaves ≠ []) (t : Trivia) :
    (e.withTrailing t).trailingTrivia = t := by
  rcases List.eq_nil_or_concat e.leaves with h | ⟨us, u, h⟩
  · exact absurd h he
  · rw [List.concat_eq_append] at h
    rw [trailingTrivia_eq, withTrailing, leaves_mapLastToken h, List.getLast?_concat]
    rfl

theorem leadingTrivia_withTrailing (e : Element) (t : Trivia) :
    (e.withTrailing t).leadingTrivia = e.leadingTrivia := by
  rw [leadingTrivia_eq, leadingTrivia_eq, ← List.head?_map, ← List.head?_map]
  exact congrArg (fun ts => ts.head?.getD []) (map_leaves_withTrailing Token.leading (fun _ => rfl) e)

/-- **Edits at the edges.**  An edit of the first or the last leaf keeps the shape of an element and all
other leaves, and an element without leaves it keeps as it is.  In an element that was built each node keeps
the number of bytes that it renders to, also after such an edit, and the edit can be made if 32 bits hold
the length of what it gives.  An element with leaves that takes over the outer trivia of a donor has this
trivia in front of it and behind it, and has no other text and no other trivia inside than before. -/
theorem edgeEdits (f : Token → Token) :
    (∀ e : Element,
      ((e.mapFirstToken f).outline = e.outline ∧
        (e.mapFirstToken f).leaves = e.leaves.modifyHead f) ∧
      ((e.mapLastToken f).outline = e.outline ∧
        (e.mapLastToken f).leaves = e.leaves.modifyLast f) ∧
      (e.leaves = [] → e.mapFirstToken f = e ∧ e.mapLastToken f = e)) ∧
    (∀ g : Measured, g.Made → g.Exact ∧ ∀ edge : Edge,
      (∀ g', g.mapEdge edge f = .ok g' → g'.Exact ∧ g'.erase = g.erase.mapEdgeToken edge f) ∧
      ((g.erase.mapEdgeToken edge f).fullLen < Offset.limit → ∃ g', g.mapEdge edge f = .ok g')) ∧
    ∀ e donor : Element, e.leaves ≠ [] →
      (e.transplantTrivia donor).leadingTrivia = donor.leadingTrivia ∧
      (e.transplantTrivia donor).trailingTrivia = donor.trailingTrivia ∧
      (e.transplantTrivia donor).outline = e.outline ∧
      (e.transplantTrivia donor).leaves.map (fun t => (t.kind, t.text)) =
        e.leaves.map (fun t => (t.kind, t.text)) ∧
      ((e.transplantTrivia donor).leaves.map Token.leading).tail = (e.leaves.map Token.leading).tail ∧
      ((e.transplantTrivia donor).leaves.map Token.trailing).dropLast =
        (e.leaves.map Token.trailing).dropLast := by
  refine ⟨fun e => ⟨⟨outline_mapEdgeToken .first e, leaves_mapFirstToken_eq e⟩,
    ⟨outline_mapEdgeToken .last e, leaves_mapLastToken_eq e⟩, fun hnil =>
      ⟨mapFirstToken_of_leaves_eq_nil hnil, mapLastToken_of_leaves_eq_nil hnil⟩⟩,
    fun g hg => ⟨hg.exact, fun edge => ⟨fun g' h => ?_, Measured.exists_mapEdge_eq_ok hg⟩⟩,
    fun e donor he => ?_⟩
  · obtain ⟨hmade, herase⟩ := Measured.made_mapEdge hg h
    exact ⟨hmade.exact, herase⟩
  have hleaves : (e.withLeading donor.leadingTrivia).leaves ≠ [] := by
    obtain ⟨t, ts, ht⟩ := List.exists_cons_of_ne_nil he
    rw [withLeading, leaves_mapFirstToken ht]
    exact List.cons_ne_nil _ _
  refine ⟨?_, trailingTrivia_withTrailing hleaves _, outline_transplantTrivia e donor, ?_, ?_, ?_⟩
  · rw [transplantTrivia, leadingTrivia_withTrailing, leadingTrivia_withLeading he]
  · rw [transplantTrivia, map_leaves_withTrailing _ (fun _ => rfl),
      map_leaves_withLeading _ (fun _ => rfl)]
  · rw [transplantTrivia, map_leaves_withTrailing Token.leading (fun _ => rfl), ← List.map_tail,
      withLeading, tail_leaves_mapFirstToken, List.map_tail]
  · rw [transplantTrivia, withTrailing, ← List.map_dropLast, dropLast_leaves_mapLastToken,
      List.map_dropLast, map_leaves_withLeading Token.trailing (fun _ => rfl)]

/-- The leaf of a call stands between two lists of arguments without leaves. -/
theorem edgeEdits_argumentLists :
    let arguments : Element := .node .argumentList []
    let call (t : Token) : Element := .node .functionCallExpr [arguments, .token t, arguments]
    let donor : Element := .token ⟨.identifier, "g", [⟨.whitespace, "  "⟩], [⟨.newline, "\n"⟩]⟩
    let t : Token := ⟨.identifier, "f", [], []⟩
    (call t).leaves ≠ [] ∧
      (call t).transplantTrivia donor =
        call ⟨.identifier, "f", [⟨.whitespace, "  "⟩], [⟨.newline, "\n"⟩]⟩ ∧
      ((call t).transplantTrivia donor).trailingTrivia = donor.trailingTrivia ∧
      ∃ g : Measured, g.Made ∧ g.erase = call t ∧
        ∃ g', g.mapEdge .last (fun t => { t with text := "fg" }) = .ok g' ∧ g'.Exact ∧
          g'.erase = call { t with text := "fg" } := by
  intro arguments call donor t
  have hedits := edgeEdits fun t => { t with text := "fg" }
  have hleaves : (call t).leaves ≠ [] := by decide
  obtain ⟨g, hg, herase⟩ : ∃ g : Measured, g.Made ∧ g.erase = call t :=
    Measured.exists_made (by decide +kernel)
  obtain ⟨hexact, hexists⟩ := (hedits.2.1 g hg).2 .last
  obtain ⟨g', hg'⟩ := hexists (by rw [herase]; decide +kernel)
  obtain ⟨hexact', herase'⟩ := hexact g' hg'
  refine ⟨hleaves, by decide +kernel, (hedits.2.2 (call t) donor hleaves).2.1, g, hg, herase, g', hg',
    hexact', ?_⟩
  rw [herase', herase]
  decide +kernel

end Element

end SwiftTidy
