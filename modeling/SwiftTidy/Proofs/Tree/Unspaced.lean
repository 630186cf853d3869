import Mathlib.Algebra.BigOperators.Group.List.Basic
import SwiftTidy.Proofs.Lint.Building
import SwiftTidy.Proofs.Lint.KeptTokens
import SwiftTidy.Proofs.Lint.Respacing

/-!
# Elements that change their slots

Trivia belongs to a slot and not to the element in it: an element that moves takes over the outer
trivia of its new slot.  If both have leaves, the edges of the slot stay as they were
(`sameEdges_transplantTrivia`), and so do those of all nodes above (`SameEdges.node`).  Elements that
are exchanged all at once take with them what they weigh (`sum_map_setAll`), whatever is weighed:
their lengths or their leaves.

`Element.unspaced` is an element with no trivia but its comments.  It tells the kinds of an element,
its lexemes and its comments (`lexemes_unspaced`, `comments_unspaced`), and an element that moves into
the slot of another stays the same up to spaces when no comment is at their edges
(`unspaced_transplantTrivia`).
-/

namespace SwiftTidy

namespace Element

variable {e e' e'' donor : Element} {es es' : List Element}

/-! ### Edges -/

/-- Two elements with the same outer trivia, both with leaves or both without. -/
structure SameEdges (e e' : Element) : Prop where
  front : e'.leaves.head?.map Token.leading = e.leaves.head?.map Token.leading
  back : e'.leaves.getLast?.map Token.trailing = e.leaves.getLast?.map Token.trailing

theorem SameEdges.refl (e : Element) : SameEdges e e := ⟨rfl, rfl⟩

theorem SameEdges.trans (h : SameEdges e e') (h' : SameEdges e' e'') : SameEdges e e'' :=
  ⟨h'.front.trans h.front, h'.back.trans h.back⟩

theorem SameEdges.leavesAll (h : List.Forall₂ SameEdges es es') :
    (leavesAll es').head?.map Token.leading = (leavesAll es).head?.map Token.leading ∧
      (leavesAll es').getLast?.map Token.trailing = (leavesAll es).getLast?.map Token.trailing := by
  induction h with
  | nil => exact ⟨rfl, rfl⟩
  | cons hhead _ ih =>
    rw [leavesAll_cons, leavesAll_cons, List.head?_append, List.head?_append, List.getLast?_append,
      List.getLast?_append, Option.map_or, Option.map_or, Option.map_or, Option.map_or, ih.1, ih.2,
      hhead.front, hhead.back]
    exact ⟨rfl, rfl⟩

/-- A node keeps its edges when its children do. -/
theorem SameEdges.node (k : SyntaxKind) (h : List.Forall₂ SameEdges es es') :
    SameEdges (.node k es) (.node k es') := by
  obtain ⟨hfront, hback⟩ := leavesAll h
  exact ⟨by rwa [leaves_node, leaves_node], by rwa [leaves_node, leaves_node]⟩

theorem SameEdges.outerTrivia (h : SameEdges e e') :
    e'.leadingTrivia = e.leadingTrivia ∧ e'.trailingTrivia = e.trailingTrivia := by
  rw [leadingTrivia_eq, leadingTrivia_eq, h.front, trailingTrivia_eq, trailingTrivia_eq, h.back]
  exact ⟨rfl, rfl⟩

/-- Where the edges stay and the whole gets no longer, what is between does not either. -/
theorem SameEdges.len_le (h : SameEdges e e') (hlen : e'.fullLen ≤ e.fullLen) : e'.len ≤ e.len := by
  rw [len, len, h.outerTrivia.1, h.outerTrivia.2]
  omega

/-- Where the edges stay and the whole is as long, what is between is too. -/
theorem SameEdges.len_eq (h : SameEdges e e') (hlen : e'.fullLen = e.fullLen) : e'.len = e.len := by
  rw [len, len, h.outerTrivia.1, h.outerTrivia.2, hlen]

/-- An element with leaves that moves into the slot of another takes over its edges. -/
theorem sameEdges_transplantTrivia (he : e.leaves ≠ []) (hdonor : donor.leaves ≠ []) :
    SameEdges donor (e.transplantTrivia donor) := by
  have hfront : donor.leaves.head?.map Token.leading = some donor.leadingTrivia := by
    rw [leadingTrivia_eq, List.head?_eq_some_head hdonor]
    rfl
  have hback : donor.leaves.getLast?.map Token.trailing = some donor.trailingTrivia := by
    rw [trailingTrivia_eq, List.getLast?_eq_some_getLast hdonor]
    rfl
  obtain ⟨t, ts, hleaves⟩ := List.exists_cons_of_ne_nil he
  have hfirst : (e.withLeading donor.leadingTrivia).leaves =
      { t with leading := donor.leadingTrivia } :: ts :=
    leaves_mapFirstToken hleaves
  rcases List.eq_nil_or_concat ts with rfl | ⟨us, u, rfl⟩
  · have hlast : (e.transplantTrivia donor).leaves =
        [{ t with leading := donor.leadingTrivia, trailing := donor.trailingTrivia }] :=
      leaves_mapLastToken (show _ = [] ++ [_] from hfirst)
    exact ⟨by rw [hlast, hfront]; rfl, by rw [hlast, hback]; rfl⟩
  · have hlast : (e.transplantTrivia donor).leaves =
        ({ t with leading := donor.leadingTrivia } :: us) ++
          [{ u with trailing := donor.trailingTrivia }] := by
      refine leaves_mapLastToken ?_
      rw [hfirst, List.concat_eq_append, List.cons_append]
    exact ⟨by rw [hlast, hfront]; rfl, by rw [hlast, List.getLast?_concat, hback]; rfl⟩

theorem sameLeafCount_transplantTrivia (e donor : Element) :
    e.SameLeafCount (e.transplantTrivia donor) :=
  (sameLeafCount_mapLastToken _ _).trans (sameLeafCount_mapFirstToken _ e)

theorem sum_map_length_leaves (es : List Element) :
    (es.map fun e => e.leaves.length).sum = (leavesAll es).length := by
  induction es with
  | nil => rw [leavesAll_nil]; rfl
  | cons e es ih => rw [List.map_cons, List.sum_cons, ih, leavesAll_cons, List.length_append]

/-! ### Exchanges -/

/-- An element that comes in place of another at an index. -/
structure Move where
  slot : Nat
  old : Element
  new : Element

/-- Elements with those at some indices exchanged. -/
def setAll (es : List Element) (ms : List Move) : List Element :=
  ms.foldl (fun es m => es.set m.slot m.new) es

/-- Exchanges of elements that are there, no two at one index. -/
structure AreMoves (es : List Element) (ms : List Move) : Prop where
  there : ∀ m ∈ ms, es[m.slot]? = some m.old
  distinct : (ms.map Move.slot).Nodup

/-- After the first of some exchanges the others can still be made. -/
theorem AreMoves.tail {m : Move} {ms : List Move} (h : AreMoves es (m :: ms)) :
    AreMoves (es.set m.slot m.new) ms := by
  have hdistinct := h.distinct
  rw [List.map_cons, List.nodup_cons] at hdistinct
  refine ⟨fun n hn => ?_, hdistinct.2⟩
  have hne : m.slot ≠ n.slot := fun heq => hdistinct.1 (heq ▸ List.mem_map_of_mem hn)
  rw [List.getElem?_set_ne hne]
  exact h.there n (List.mem_cons_of_mem m hn)

/-- Elements that are exchanged take what they weigh with them. -/
theorem sum_map_setAll (weight : Element → Nat) {ms : List Move} (h : AreMoves es ms) :
    ((setAll es ms).map weight).sum + (ms.map fun m => weight m.old).sum =
      (es.map weight).sum + (ms.map fun m => weight m.new).sum := by
  induction ms generalizing es with
  | nil => rfl
  | cons m ms ih =>
    have hrest := ih h.tail
    have hset := sum_map_set weight (h.there m List.mem_cons_self) m.new
    have hcons : setAll es (m :: ms) = setAll (es.set m.slot m.new) ms := rfl
    rw [hcons, List.map_cons, List.map_cons, List.sum_cons, List.sum_cons]
    omega

/-- Exchanges that keep the edges one by one keep the edges of all elements. -/
theorem forall₂_sameEdges_setAll {ms : List Move} (hes : List.Forall₂ SameEdges es es')
    (h : AreMoves es' ms) (hms : ∀ m ∈ ms, SameEdges m.old m.new) :
    List.Forall₂ SameEdges es (setAll es' ms) := by
  induction ms generalizing es' with
  | nil => exact hes
  | cons m ms ih =>
    rw [List.forall_mem_cons] at hms
    refine ih ?_ h.tail hms.2
    exact forall₂_set hes (h.there m List.mem_cons_self) fun e he => he.trans hms.1

end Element

namespace Token

/-- The token with no trivia around it but comments. -/
def unspaced (t : Token) : Token :=
  { t with leading := t.leading.filter (·.isComment), trailing := t.trailing.filter (·.isComment) }

@[simp] theorem unspaced_unspaced (t : Token) : t.unspaced.unspaced = t.unspaced := by
  rw [unspaced, unspaced, List.filter_filter, List.filter_filter]
  simp only [Bool.and_self]

end Token

namespace Element

variable {e e' donor : Element} {es es' : List Element} {f : Token → Token}

mutual
/-- The element with no trivia but comments. -/
def unspaced : Element → Element
  | token t => token t.unspaced
  | node k es => node k (unspacedAll es)
/-- The elements with no trivia but comments. -/
def unspacedAll : List Element → List Element
  | [] => []
  | e :: es => unspaced e :: unspacedAll es
end

@[simp] theorem unspaced_token (t : Token) : (token t).unspaced = token t.unspaced := by
  rw [unspaced]

@[simp] theorem unspaced_node (k : SyntaxKind) (es : List Element) :
    (node k es).unspaced = node k (es.map unspaced) := by
  have hall : ∀ es, unspacedAll es = es.map unspaced := by
    intro es
    induction es with
    | nil => rw [unspacedAll, List.map_nil]
    | cons e es ih => rw [unspacedAll, ih, List.map_cons]
  rw [unspaced, hall]

@[simp] theorem kind_unspaced (e : Element) : e.unspaced.kind = e.kind := by
  cases e with
  | token t => rw [unspaced_token]; rfl
  | node k es => rw [unspaced_node]; rfl

@[simp] theorem children_unspaced (e : Element) : e.unspaced.children = e.children.map unspaced := by
  cases e with
  | token t => rw [unspaced_token]; rfl
  | node k es => rw [unspaced_node]; rfl

/-- The leaves below some elements, one element after the other. -/
theorem leavesAll_eq_flatMap (es : List Element) : leavesAll es = es.flatMap leaves := by
  induction es with
  | nil => rw [leavesAll_nil, List.flatMap_nil]
  | cons e es ih => rw [leavesAll_cons, List.flatMap_cons, ih]

mutual
theorem leaves_unspaced : ∀ e : Element, e.unspaced.leaves = e.leaves.map Token.unspaced
  | token t => by rw [unspaced_token, leaves_token, leaves_token]; rfl
  | node k es => by rw [unspaced_node, leaves_node, leaves_node, leavesAll_unspaced es]
theorem leavesAll_unspaced : ∀ es : List Element,
    leavesAll (es.map unspaced) = (leavesAll es).map Token.unspaced
  | [] => by rw [List.map_nil, leavesAll_nil]; rfl
  | e :: es => by
    rw [List.map_cons, leavesAll_cons, leavesAll_cons, List.map_append, leaves_unspaced e,
      leavesAll_unspaced es]
end

mutual
@[simp] theorem unspaced_unspaced : ∀ e : Element, e.unspaced.unspaced = e.unspaced
  | token t => by rw [unspaced_token, unspaced_token, Token.unspaced_unspaced]
  | node k es => by
    rw [unspaced_node, unspaced_node, unspacedAll_unspacedAll es]
theorem unspacedAll_unspacedAll : ∀ es : List Element,
    (es.map unspaced).map unspaced = es.map unspaced
  | [] => rfl
  | e :: es => by
    rw [List.map_cons, List.map_cons, unspaced_unspaced e, unspacedAll_unspacedAll es]
end

/-! ### Lexemes and comments -/

/-- The kinds and texts of the tokens of an element, in source order. -/
def lexemes (e : Element) : List (SyntaxKind × String) := e.leaves.map Token.lexeme

/-- The comments of an element, in source order. -/
def comments (e : Element) : Trivia := Token.pieces (·.isComment) e.leaves

@[simp] theorem lexemes_node (k : SyntaxKind) (es : List Element) :
    (node k es).lexemes = es.flatMap lexemes := by
  rw [lexemes, leaves_node, leavesAll_eq_flatMap, List.map_flatMap]
  rfl

@[simp] theorem comments_node (k : SyntaxKind) (es : List Element) :
    (node k es).comments = es.flatMap comments := by
  rw [comments, leaves_node, leavesAll_eq_flatMap, Token.pieces, List.flatMap_assoc]
  rfl

@[simp] theorem lexemes_unspaced (e : Element) : e.unspaced.lexemes = e.lexemes := by
  rw [lexemes, lexemes, leaves_unspaced, List.map_map]
  rfl

@[simp] theorem comments_unspaced (e : Element) : e.unspaced.comments = e.comments := by
  rw [comments, comments, leaves_unspaced, Token.pieces, Token.pieces, List.flatMap_map]
  refine congrArg (List.flatMap · e.leaves) (funext fun t => ?_)
  rw [Token.unspaced, List.filter_append, List.filter_append, List.filter_filter, List.filter_filter]
  simp only [Bool.and_self]

/-- What holds of an element without its spaces holds of its lexemes. -/
theorem lexemes_eq_of_unspaced (h : e'.unspaced = e.unspaced) : e'.lexemes = e.lexemes := by
  rw [← lexemes_unspaced, h, lexemes_unspaced]

theorem comments_eq_of_unspaced (h : e'.unspaced = e.unspaced) : e'.comments = e.comments := by
  rw [← comments_unspaced, h, comments_unspaced]

/-- The comments around a leaf are comments of the element. -/
theorem filter_isComment_eq_nil {t : Token} (h : e.comments = []) (ht : t ∈ e.leaves) :
    t.leading.filter (·.isComment) = [] ∧ t.trailing.filter (·.isComment) = [] := by
  have hnone := List.flatMap_eq_nil_iff.mp h t ht
  rwa [List.filter_append, List.append_eq_nil_iff] at hnone

theorem comments_eq_nil_of_mem {k : SyntaxKind} (h : (node k es).comments = []) (he : e ∈ es) :
    e.comments = [] := by
  rw [comments_node] at h
  exact List.flatMap_eq_nil_iff.mp h e he

/-! ### Edges -/

/-- No comment is in the outer trivia of the element. -/
structure ClearEdges (e : Element) : Prop where
  front : e.leadingTrivia.filter (·.isComment) = []
  back : e.trailingTrivia.filter (·.isComment) = []

/-- An element without comments has none at its edges. -/
theorem ClearEdges.of_comments (h : e.comments = []) : ClearEdges e := by
  constructor
  · rw [leadingTrivia_eq]
    cases hhead : e.leaves.head? with
    | none => rfl
    | some t => exact (filter_isComment_eq_nil h (List.mem_of_head? hhead)).1
  · rw [trailingTrivia_eq]
    cases hlast : e.leaves.getLast? with
    | none => rfl
    | some t => exact (filter_isComment_eq_nil h (List.mem_of_getLast? hlast)).2

theorem ClearEdges.of_sameEdges (h : ClearEdges e) (hsame : SameEdges e e') : ClearEdges e' := by
  obtain ⟨hfront, hback⟩ := h
  constructor
  · rwa [leadingTrivia_eq, hsame.front, ← leadingTrivia_eq]
  · rwa [trailingTrivia_eq, hsame.back, ← trailingTrivia_eq]

mutual
theorem unspaced_mapFirstToken? : ∀ {e e' : Element},
    (∀ t ∈ e.leaves.head?, (f t).unspaced = t.unspaced) → e.mapFirstToken? f = some e' →
    e'.unspaced = e.unspaced
  | token t, e', h, he' => by
    rw [mapFirstToken?, Option.some.injEq] at he'
    rw [← he', unspaced_token, unspaced_token, h t (by rw [leaves_token]; rfl)]
  | node k es, e', h, he' => by
    rw [mapFirstToken?] at he'
    obtain ⟨es', hes', rfl⟩ := Option.map_eq_some_iff.mp he'
    rw [leaves_node] at h
    rw [unspaced_node, unspaced_node, unspaced_mapFirstTokenOf? h hes']
theorem unspaced_mapFirstTokenOf? : ∀ {es es' : List Element},
    (∀ t ∈ (leavesAll es).head?, (f t).unspaced = t.unspaced) → mapFirstTokenOf? f es = some es' →
    es'.map unspaced = es.map unspaced
  | [], es', _, hes' => by
    rw [mapFirstTokenOf?] at hes'
    cases hes'
  | e :: es, es', h, hes' => by
    rw [leavesAll_cons] at h
    rw [mapFirstTokenOf?] at hes'
    cases hfirst : e.mapFirstToken? f with
    | some e' =>
      rw [hfirst] at hes'
      cases hes'
      have he := unspaced_mapFirstToken? (fun t ht => h t (by
        rw [List.head?_append, Option.mem_def.mp ht]; rfl)) hfirst
      rw [List.map_cons, List.map_cons, he]
    | none =>
      -- an element in which nothing is found has no leaf
      have hleaves := leaves_mapFirstToken? (f := f) e
      rw [hfirst, Option.map_none, eq_comm, Option.map_eq_none_iff, List.head?_eq_none_iff] at hleaves
      rw [hleaves, List.nil_append] at h
      rw [hfirst] at hes'
      obtain ⟨fs, hfs, rfl⟩ := Option.map_eq_some_iff.mp hes'
      rw [List.map_cons, List.map_cons, unspaced_mapFirstTokenOf? h hfs]
end

mutual
theorem unspaced_mapLastToken? : ∀ {e e' : Element},
    (∀ t ∈ e.leaves.getLast?, (f t).unspaced = t.unspaced) → e.mapLastToken? f = some e' →
    e'.unspaced = e.unspaced
  | token t, e', h, he' => by
    rw [mapLastToken?, Option.some.injEq] at he'
    rw [← he', unspaced_token, unspaced_token, h t (by rw [leaves_token]; rfl)]
  | node k es, e', h, he' => by
    rw [mapLastToken?] at he'
    obtain ⟨es', hes', rfl⟩ := Option.map_eq_some_iff.mp he'
    rw [leaves_node] at h
    rw [unspaced_node, unspaced_node, unspaced_mapLastTokenOf? h hes']
theorem unspaced_mapLastTokenOf? : ∀ {es es' : List Element},
    (∀ t ∈ (leavesAll es).getLast?, (f t).unspaced = t.unspaced) → mapLastTokenOf? f es = some es' →
    es'.map unspaced = es.map unspaced
  | [], es', _, hes' => by
    rw [mapLastTokenOf?] at hes'
    cases hes'
  | e :: es, es', h, hes' => by
    rw [leavesAll_cons] at h
    rw [mapLastTokenOf?] at hes'
    cases hlast : mapLastTokenOf? f es with
    | some fs =>
      rw [hlast] at hes'
      cases hes'
      have hfs := unspaced_mapLastTokenOf? (fun t ht => h t (by
        rw [List.getLast?_append, Option.mem_def.mp ht]; rfl)) hlast
      rw [List.map_cons, List.map_cons, hfs]
    | none =>
      have hleaves := leavesAll_mapLastTokenOf? (f := f) es
      rw [hlast, Option.map_none, eq_comm, Option.map_eq_none_iff,
        List.getLast?_eq_none_iff] at hleaves
      rw [hleaves, List.append_nil] at h
      rw [hlast] at hes'
      obtain ⟨e', he', rfl⟩ := Option.map_eq_some_iff.mp hes'
      rw [List.map_cons, List.map_cons, unspaced_mapLastToken? h he']
end

theorem unspaced_mapFirstToken (h : ∀ t ∈ e.leaves.head?, (f t).unspaced = t.unspaced) :
    (e.mapFirstToken f).unspaced = e.unspaced := by
  rw [mapFirstToken]
  cases hfirst : e.mapFirstToken? f with
  | none => rfl
  | some e' => exact unspaced_mapFirstToken? h hfirst

theorem unspaced_mapLastToken (h : ∀ t ∈ e.leaves.getLast?, (f t).unspaced = t.unspaced) :
    (e.mapLastToken f).unspaced = e.unspaced := by
  rw [mapLastToken]
  cases hlast : e.mapLastToken? f with
  | none => rfl
  | some e' => exact unspaced_mapLastToken? h hlast

theorem unspaced_withLeading {l : Trivia}
    (h : l.filter (·.isComment) = e.leadingTrivia.filter (·.isComment)) :
    (e.withLeading l).unspaced = e.unspaced := by
  refine unspaced_mapFirstToken fun t ht => ?_
  rw [leadingTrivia_eq, Option.mem_def.mp ht] at h
  rw [Token.unspaced, Token.unspaced, h]
  rfl

theorem unspaced_withTrailing {l : Trivia}
    (h : l.filter (·.isComment) = e.trailingTrivia.filter (·.isComment)) :
    (e.withTrailing l).unspaced = e.unspaced := by
  refine unspaced_mapLastToken fun t ht => ?_
  rw [trailingTrivia_eq, Option.mem_def.mp ht] at h
  rw [Token.unspaced, Token.unspaced, h]
  rfl

/-- An element that moves into the slot of another stays the same up to spaces when there is no
comment at their edges. -/
theorem unspaced_transplantTrivia (h : e.ClearEdges) (hdonor : donor.ClearEdges) :
    (e.transplantTrivia donor).unspaced = e.unspaced := by
  rw [transplantTrivia, unspaced_withTrailing, unspaced_withLeading]
  · rw [hdonor.front, h.front]
  · rw [trailingTrivia_withLeading, hdonor.back, h.back]

end Element

end SwiftTidy
