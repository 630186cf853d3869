import SwiftTidy.Proofs.Data.Except
import SwiftTidy.Proofs.Text.Offset
import SwiftTidy.Proofs.Tree.Ranges

/-!
# Building elements with lengths of 32 bits

A node keeps its length, which is added up from its children when it is built; a token is measured
each time.  Here every one of these additions is checked (`Element.build`), and an edit at the edge
of an element builds the nodes on the way to the edge one by one.

Whatever is built this way is what the plain functions give, as long as 32 bits hold its length
(`build_eq_ok` and one such lemma for each edit).  How long an element is after an edit is told by
its leaves: it gains what is put at its edge and loses what was there.
-/

namespace SwiftTidy

/-! ### Measuring -/

theorem Offset.foldlM_add_eq_ok {a : Nat} {as : List Nat} (h : a + as.sum < limit) :
    as.foldlM add a = .ok (a + as.sum) := by
  induction as generalizing a with
  | nil => rfl
  | cons b as ih =>
    rw [List.sum_cons, ← Nat.add_assoc] at h
    rw [List.foldlM_cons, add_eq_ok (by omega), List.sum_cons, ← Nat.add_assoc]
    exact ih h

/-- Offsets are added up if 32 bits hold the sum. -/
theorem Offset.sum_eq_ok {as : List Nat} (h : as.sum < limit) : sum as = .ok as.sum := by
  rw [sum, foldlM_add_eq_ok (by omega), Nat.zero_add]

theorem Trivia.sum_map_len (t : Trivia) : (t.map (·.len)).sum = t.len := by
  induction t with
  | nil => rfl
  | cons p t ih => rw [List.map_cons, List.sum_cons, ih, len_cons]

/-- Trivia gets no longer when pieces are dropped. -/
theorem Trivia.len_le_of_sublist {s t : Trivia} (h : List.Sublist s t) : s.len ≤ t.len := by
  induction h with
  | slnil => exact Nat.le_refl _
  | cons p _ ih =>
    rw [len_cons]
    omega
  | cons_cons p _ ih =>
    rw [len_cons, len_cons]
    omega

/-- The number of bytes of a token with the trivia around it, added up in 32 bits. -/
def Token.measure (t : Token) : Except Fault Nat := do
  let leading ← Offset.sum (t.leading.map (·.len))
  let trailing ← Offset.sum (t.trailing.map (·.len))
  let front ← Offset.add leading t.len
  Offset.add front trailing

theorem Token.measure_eq_ok {t : Token} (h : t.fullLen < Offset.limit) :
    t.measure = .ok t.fullLen := by
  rw [fullLen] at h
  rw [measure, Offset.sum_eq_ok (by rw [Trivia.sum_map_len]; omega),
    Offset.sum_eq_ok (by rw [Trivia.sum_map_len]; omega), Trivia.sum_map_len, Trivia.sum_map_len]
  show (Offset.add t.leading.len t.len >>= fun front => Offset.add front t.trailing.len) = _
  rw [Offset.add_eq_ok (by omega)]
  exact Offset.add_eq_ok h

namespace Element

/-- The number of bytes of an element: a token is measured, and a node has kept its length. -/
def measure : Element → Except Fault Nat
  | .token t => t.measure
  | .node _ es => .ok (fullLenAll es)

/-- A node with its length added up from its children. -/
def build (k : SyntaxKind) (es : List Element) : Except Fault Element := do
  let lens ← es.mapM measure
  let _ ← Offset.sum lens
  return .node k es

theorem measure_eq_ok {e : Element} (h : e.fullLen < Offset.limit) : e.measure = .ok e.fullLen := by
  cases e with
  | token t => exact Token.measure_eq_ok h
  | node k es => rw [measure, fullLen]

theorem sum_map_fullLen (es : List Element) : (es.map fullLen).sum = fullLenAll es := by
  induction es with
  | nil => rw [fullLenAll]; rfl
  | cons e es ih => rw [List.map_cons, List.sum_cons, ih, fullLenAll]

theorem fullLen_le_of_mem {e : Element} {es : List Element} (h : e ∈ es) :
    e.fullLen ≤ fullLenAll es := by
  obtain ⟨front, back, rfl⟩ := List.append_of_mem h
  rw [fullLenAll_append, fullLenAll]
  omega

/-- A list of elements none of which got longer did not get longer. -/
theorem fullLenAll_le_of_forall₂ {es es' : List Element}
    (h : List.Forall₂ (fun e e' => e'.fullLen ≤ e.fullLen) es es') :
    fullLenAll es' ≤ fullLenAll es := by
  induction h with
  | nil => exact Nat.le_refl _
  | cons hhead _ ih =>
    rw [fullLenAll, fullLenAll]
    exact Nat.add_le_add hhead ih

/-- A member that is exchanged takes what it weighs with it. -/
theorem sum_map_set {α : Type} (weight : α → Nat) {xs : List α} {i : Nat} {old : α}
    (h : xs[i]? = some old) (x : α) :
    ((xs.set i x).map weight).sum + weight old = (xs.map weight).sum + weight x := by
  induction xs generalizing i with
  | nil => cases h
  | cons y xs ih =>
    cases i with
    | zero =>
      cases h
      rw [List.set_cons_zero, List.map_cons, List.map_cons, List.sum_cons, List.sum_cons]
      omega
    | succ i =>
      have hrest := ih h
      rw [List.set_cons_succ, List.map_cons, List.map_cons, List.sum_cons, List.sum_cons]
      omega

/-- An element that is exchanged takes its length with it. -/
theorem fullLenAll_set {es : List Element} {i : Nat} {old : Element} (h : es[i]? = some old)
    (e : Element) : fullLenAll (es.set i e) + old.fullLen = fullLenAll es + e.fullLen := by
  rw [← sum_map_fullLen, ← sum_map_fullLen]
  exact sum_map_set fullLen h e

/-- An element that is taken out takes its length with it. -/
theorem fullLenAll_eraseIdx {es : List Element} {i : Nat} {e : Element} (h : es[i]? = some e) :
    fullLenAll (es.eraseIdx i) + e.fullLen = fullLenAll es := by
  induction es generalizing i with
  | nil => cases h
  | cons d es ih =>
    cases i with
    | zero =>
      cases h
      rw [List.eraseIdx_cons_zero, fullLenAll]
      omega
    | succ i =>
      have hrest := ih h
      rw [List.eraseIdx_cons_succ, fullLenAll, fullLenAll]
      omega

/-- **Building a node**: a node can be built if 32 bits hold its length. -/
theorem build_eq_ok (k : SyntaxKind) {es : List Element} (h : fullLenAll es < Offset.limit) :
    build k es = .ok (.node k es) := by
  have hlens : es.mapM measure = .ok (es.map fullLen) := Except.mapM_eq_ok fun e he =>
    measure_eq_ok (Nat.lt_of_le_of_lt (fullLen_le_of_mem he) h)
  rw [build, hlens]
  show (Offset.sum (es.map fullLen) >>= fun _ => pure (Element.node k es)) = _
  rw [Offset.sum_eq_ok (by rw [sum_map_fullLen]; exact h)]
  rfl

/-! ### Edits at the edges -/

mutual
/-- Applies `f` to the first leaf and builds the nodes above it. -/
def buildMapFirst? (f : Token → Token) : Element → Except Fault (Option Element)
  | .token t => .ok (some (.token (f t)))
  | .node k es => do
    match ← buildMapFirstOf? f es with
    | none => return none
    | some es' => return some (← build k es')
/-- Applies `f` to the first leaf of a list of elements and builds the nodes above it. -/
def buildMapFirstOf? (f : Token → Token) : List Element → Except Fault (Option (List Element))
  | [] => .ok none
  | e :: es => do
    match ← buildMapFirst? f e with
    | some e' => return some (e' :: es)
    | none => return (← buildMapFirstOf? f es).map (e :: ·)
end

mutual
/-- Applies `f` to the last leaf and builds the nodes above it. -/
def buildMapLast? (f : Token → Token) : Element → Except Fault (Option Element)
  | .token t => .ok (some (.token (f t)))
  | .node k es => do
    match ← buildMapLastOf? f es with
    | none => return none
    | some es' => return some (← build k es')
/-- Applies `f` to the last leaf of a list of elements and builds the nodes above it. -/
def buildMapLastOf? (f : Token → Token) : List Element → Except Fault (Option (List Element))
  | [] => .ok none
  | e :: es => do
    match ← buildMapLastOf? f es with
    | some es' => return some (e :: es')
    | none => return (← buildMapLast? f e).map (· :: es)
end

/-- Applies `f` to the first leaf; an element without leaves stays as it is. -/
def buildMapFirst (f : Token → Token) (e : Element) : Except Fault Element := do
  return (← buildMapFirst? f e).getD e

/-- Applies `f` to the last leaf; an element without leaves stays as it is. -/
def buildMapLast (f : Token → Token) (e : Element) : Except Fault Element := do
  return (← buildMapLast? f e).getD e

/-- The element with other trivia in front. -/
def buildWithLeading (e : Element) (t : Trivia) : Except Fault Element :=
  e.buildMapFirst fun x => { x with leading := t }

/-- The element with other trivia behind. -/
def buildWithTrailing (e : Element) (t : Trivia) : Except Fault Element :=
  e.buildMapLast fun x => { x with trailing := t }

/-- The element with the outer trivia of `donor`: first that in front, then that behind. -/
def buildTransplant (e donor : Element) : Except Fault Element := do
  (← e.buildWithLeading donor.leadingTrivia).buildWithTrailing donor.trailingTrivia

variable {f : Token → Token}

mutual
theorem buildMapFirst?_eq_ok : ∀ e : Element,
    (∀ e', e.mapFirstToken? f = some e' → e'.fullLen < Offset.limit) →
    e.buildMapFirst? f = .ok (e.mapFirstToken? f)
  | .token t, _ => by rw [buildMapFirst?, mapFirstToken?]
  | .node k es, h => by
    have hes : ∀ es', mapFirstTokenOf? f es = some es' → fullLenAll es' < Offset.limit := by
      intro es' hes'
      have hlen := h (.node k es') (by rw [mapFirstToken?, hes', Option.map_some])
      rwa [fullLen] at hlen
    rw [buildMapFirst?, buildMapFirstOf?_eq_ok es hes, mapFirstToken?]
    cases hes' : mapFirstTokenOf? f es with
    | none => rfl
    | some es' =>
      show (build k es' >>= fun e' => pure (some e')) = _
      rw [build_eq_ok k (hes es' hes')]
      rfl
theorem buildMapFirstOf?_eq_ok : ∀ es : List Element,
    (∀ es', mapFirstTokenOf? f es = some es' → fullLenAll es' < Offset.limit) →
    buildMapFirstOf? f es = .ok (mapFirstTokenOf? f es)
  | [], _ => by rw [buildMapFirstOf?, mapFirstTokenOf?]
  | e :: es, h => by
    rw [mapFirstTokenOf?] at h
    have he : ∀ e', e.mapFirstToken? f = some e' → e'.fullLen < Offset.limit := by
      intro e' he'
      have hlen := h (e' :: es) (by rw [he'])
      rw [fullLenAll] at hlen
      omega
    rw [buildMapFirstOf?, buildMapFirst?_eq_ok e he, mapFirstTokenOf?]
    cases he' : e.mapFirstToken? f with
    | some e' => rfl
    | none =>
      have hes : ∀ es', mapFirstTokenOf? f es = some es' → fullLenAll es' < Offset.limit := by
        intro es' hes'
        have hlen := h (e :: es') (by rw [he', hes']; rfl)
        rw [fullLenAll] at hlen
        omega
      show (buildMapFirstOf? f es >>= fun es' => pure (es'.map (e :: ·))) = _
      rw [buildMapFirstOf?_eq_ok es hes]
      rfl
end

mutual
theorem buildMapLast?_eq_ok : ∀ e : Element,
    (∀ e', e.mapLastToken? f = some e' → e'.fullLen < Offset.limit) →
    e.buildMapLast? f = .ok (e.mapLastToken? f)
  | .token t, _ => by rw [buildMapLast?, mapLastToken?]
  | .node k es, h => by
    have hes : ∀ es', mapLastTokenOf? f es = some es' → fullLenAll es' < Offset.limit := by
      intro es' hes'
      have hlen := h (.node k es') (by rw [mapLastToken?, hes', Option.map_some])
      rwa [fullLen] at hlen
    rw [buildMapLast?, buildMapLastOf?_eq_ok es hes, mapLastToken?]
    cases hes' : mapLastTokenOf? f es with
    | none => rfl
    | some es' =>
      show (build k es' >>= fun e' => pure (some e')) = _
      rw [build_eq_ok k (hes es' hes')]
      rfl
theorem buildMapLastOf?_eq_ok : ∀ es : List Element,
    (∀ es', mapLastTokenOf? f es = some es' → fullLenAll es' < Offset.limit) →
    buildMapLastOf? f es = .ok (mapLastTokenOf? f es)
  | [], _ => by rw [buildMapLastOf?, mapLastTokenOf?]
  | e :: es, h => by
    rw [mapLastTokenOf?] at h
    have hes : ∀ es', mapLastTokenOf? f es = some es' → fullLenAll es' < Offset.limit := by
      intro es' hes'
      have hlen := h (e :: es') (by rw [hes'])
      rw [fullLenAll] at hlen
      omega
    rw [buildMapLastOf?, buildMapLastOf?_eq_ok es hes, mapLastTokenOf?]
    cases hes' : mapLastTokenOf? f es with
    | some es' => rfl
    | none =>
      have he : ∀ e', e.mapLastToken? f = some e' → e'.fullLen < Offset.limit := by
        intro e' he'
        have hlen := h (e' :: es) (by rw [hes', he']; rfl)
        rw [fullLenAll] at hlen
        omega
      show (buildMapLast? f e >>= fun e' => pure (e'.map (· :: es))) = _
      rw [buildMapLast?_eq_ok e he]
      rfl
end

/-- The first leaf can be changed if 32 bits hold the length of what this gives. -/
theorem buildMapFirst_eq_ok {e : Element} (h : (e.mapFirstToken f).fullLen < Offset.limit) :
    e.buildMapFirst f = .ok (e.mapFirstToken f) := by
  rw [buildMapFirst, buildMapFirst?_eq_ok e fun e' he' => by
    rwa [mapFirstToken, he', Option.getD_some] at h]
  rfl

/-- The last leaf can be changed if 32 bits hold the length of what this gives. -/
theorem buildMapLast_eq_ok {e : Element} (h : (e.mapLastToken f).fullLen < Offset.limit) :
    e.buildMapLast f = .ok (e.mapLastToken f) := by
  rw [buildMapLast, buildMapLast?_eq_ok e fun e' he' => by
    rwa [mapLastToken, he', Option.getD_some] at h]
  rfl

/-! ### Lengths after an edit -/

section

variable {e : Element}

/-- What is put in front of an element with leaves comes in place of what was there. -/
theorem fullLen_withLeading (he : e.leaves ≠ []) (t : Trivia) :
    (e.withLeading t).fullLen + e.leadingTrivia.len = e.fullLen + t.len := by
  obtain ⟨u, us, hleaves⟩ := List.exists_cons_of_ne_nil he
  rw [fullLen_eq e, leadingTrivia_eq, withLeading, hleaves, fullLen_eq, leaves_mapFirstToken hleaves,
    Token.fullLenAll_cons, Token.fullLenAll_cons, Token.fullLen, Token.fullLen, List.head?_cons,
    Option.map_some, Option.getD_some]
  show t.len + u.len + u.trailing.len + _ + _ = _
  omega

/-- What is put behind an element with leaves comes in place of what was there. -/
theorem fullLen_withTrailing (he : e.leaves ≠ []) (t : Trivia) :
    (e.withTrailing t).fullLen + e.trailingTrivia.len = e.fullLen + t.len := by
  obtain ⟨us, u, hleaves⟩ := (List.eq_nil_or_concat' _).resolve_left he
  rw [fullLen_eq e, trailingTrivia_eq, withTrailing, hleaves, fullLen_eq, leaves_mapLastToken hleaves,
    Token.fullLenAll_append, Token.fullLenAll_append, Token.fullLenAll_cons, Token.fullLenAll_cons,
    Token.fullLen, Token.fullLen, List.getLast?_concat, Option.map_some, Option.getD_some]
  show _ + (u.leading.len + u.len + t.len + _) + _ = _
  omega

theorem trailingTrivia_withLeading (e : Element) (t : Trivia) :
    (e.withLeading t).trailingTrivia = e.trailingTrivia := by
  rw [trailingTrivia_eq, trailingTrivia_eq, withLeading]
  cases hleaves : e.leaves with
  | nil => rw [mapFirstToken_of_leaves_eq_nil hleaves, hleaves]
  | cons u us =>
    rw [leaves_mapFirstToken hleaves]
    cases us with
    | nil => rfl
    | cons v us => rfl

/-- An element with leaves that takes over outer trivia is as long as this trivia and what is between. -/
theorem fullLen_transplantTrivia (he : e.leaves ≠ []) (donor : Element) :
    (e.transplantTrivia donor).fullLen =
      donor.leadingTrivia.len + e.len + donor.trailingTrivia.len := by
  have hfront := fullLen_withLeading he donor.leadingTrivia
  have hleaves : (e.withLeading donor.leadingTrivia).leaves ≠ [] := by
    obtain ⟨u, us, hleaves⟩ := List.exists_cons_of_ne_nil he
    rw [withLeading, leaves_mapFirstToken hleaves]
    exact List.cons_ne_nil _ _
  have hback := fullLen_withTrailing hleaves donor.trailingTrivia
  have hlen := (len_add e).1
  rw [trailingTrivia_withLeading] at hback
  rw [transplantTrivia]
  omega

end

/-- An element without leaves stays as it is, and what is put in front of any other comes in place of what
was there. -/
theorem fullLen_withLeading_le (e : Element) (t : Trivia) :
    (e.withLeading t).fullLen + e.leadingTrivia.len ≤ e.fullLen + t.len := by
  by_cases he : e.leaves = []
  · rw [withLeading, mapFirstToken_of_leaves_eq_nil he, leadingTrivia_eq, he]
    exact Nat.le_add_right _ _
  · exact (fullLen_withLeading he t).le

theorem fullLen_withTrailing_le (e : Element) (t : Trivia) :
    (e.withTrailing t).fullLen + e.trailingTrivia.len ≤ e.fullLen + t.len := by
  by_cases he : e.leaves = []
  · rw [withTrailing, mapLastToken_of_leaves_eq_nil he, trailingTrivia_eq, he]
    exact Nat.le_add_right _ _
  · exact (fullLen_withTrailing he t).le

theorem fullLen_transplantTrivia_le (e donor : Element) :
    (e.transplantTrivia donor).fullLen ≤
      donor.leadingTrivia.len + e.len + donor.trailingTrivia.len := by
  have hfront := fullLen_withLeading_le e donor.leadingTrivia
  have hback := fullLen_withTrailing_le (e.withLeading donor.leadingTrivia) donor.trailingTrivia
  have hlen := (len_add e).1
  rw [trailingTrivia_withLeading] at hback
  rw [transplantTrivia]
  omega

/-- Trivia can be put in front of an element if 32 bits hold both. -/
theorem buildWithLeading_eq_ok {e : Element} {t : Trivia} (h : e.fullLen + t.len < Offset.limit) :
    e.buildWithLeading t = .ok (e.withLeading t) := by
  have hle := fullLen_withLeading_le e t
  rw [withLeading] at hle ⊢
  exact buildMapFirst_eq_ok (by omega)

/-- Trivia can be put behind an element if 32 bits hold both. -/
theorem buildWithTrailing_eq_ok {e : Element} {t : Trivia} (h : e.fullLen + t.len < Offset.limit) :
    e.buildWithTrailing t = .ok (e.withTrailing t) := by
  have hle := fullLen_withTrailing_le e t
  rw [withTrailing] at hle ⊢
  exact buildMapLast_eq_ok (by omega)

/-- An element can take over the outer trivia of another if 32 bits hold both elements. -/
theorem buildTransplant_eq_ok {e donor : Element}
    (h : e.fullLen + donor.fullLen < Offset.limit) :
    e.buildTransplant donor = .ok (e.transplantTrivia donor) := by
  have hdonor := (len_add donor).1
  have hlen := (len_add e).1
  have hfront := fullLen_withLeading_le e donor.leadingTrivia
  rw [buildTransplant, buildWithLeading_eq_ok (by omega)]
  exact buildWithTrailing_eq_ok (by omega)

end Element

end SwiftTidy
