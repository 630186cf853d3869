import Mathlib.Data.List.Forall2
import SwiftTidy.Lint.Fixer
import SwiftTidy.Proofs.Directive.Lookup
import SwiftTidy.Proofs.Tree.Places
import SwiftTidy.Tree.Walk

/-!
# What a fixer records

A fixer is followed place by place: if at every place its hooks answer and what is recorded there is
known (`Behaves`), then the whole run answers and records the positions of all places in the order
in which they are left (`run_eq`).

A proposal that corrects a violation within the range that it changes is dropped exactly where the
violation is suppressed (`isAllowed_eq`): a region that held the whole range would hold its position.
-/

namespace SwiftTidy

namespace Fix

/-- A proposal with a position that is not suppressed, and lies in the range that it changes, is
allowed when all of its positions are not suppressed. -/
theorem isAllowed_of_forall {f : Fix} {d : DisabledRegions} {c : Cursor} (hd : d.IsSeparated)
    (hall : ∀ p ∈ f.positions, d.isSuppressed p = false)
    (hin : ∃ p ∈ f.positions, (f.changed.getD c.range).contains p = true) :
    f.isAllowed d c = true := by
  obtain ⟨p, hp, hrange⟩ := hin
  simp only [TextRange.contains, Bool.and_eq_true, decide_eq_true_eq] at hrange
  have hany : f.positions.any d.isSuppressed = false := by
    rw [List.any_eq_false]
    exact fun x hx => by rw [hall x hx]; exact Bool.false_ne_true
  have hcontained : d.isContainedIn (f.changed.getD c.range) = false := by
    by_contra hcontained
    rw [Bool.not_eq_false, DisabledRegions.isContainedIn_iff hd (by omega)] at hcontained
    have hsuppressed := hcontained p hrange.1 hrange.2
    rw [hall p hp] at hsuppressed
    cases hsuppressed
  rw [isAllowed, hany, hcontained]
  rfl

/-- A proposal for one violation in the range of the element is dropped where the violation is
suppressed. -/
theorem isAllowed_eq {d : DisabledRegions} {c : Cursor} {replacement : Element} {p : Nat}
    (hd : d.IsSeparated) (hp : c.position ≤ p ∧ p < c.endPosition) :
    isAllowed ⟨replacement, p, [], none⟩ d c = !d.isSuppressed p := by
  cases hs : d.isSuppressed p with
  | true => simp [isAllowed, positions, hs]
  | false =>
    refine isAllowed_of_forall hd (by simpa [positions] using hs) ⟨p, by simp [positions], ?_⟩
    show (decide (c.position ≤ p) && decide (p < c.endPosition)) = true
    rw [decide_eq_true hp.1, decide_eq_true hp.2]
    rfl

theorem isSuppressed_of_isAllowed {f : Fix} {d : DisabledRegions} {c : Cursor}
    (h : f.isAllowed d c = true) : ∀ p ∈ f.positions, d.isSuppressed p = false := by
  rw [isAllowed, Bool.not_eq_true', Bool.or_eq_false_iff, List.any_eq_false] at h
  exact fun p hp => by simpa using h.1 p hp

end Fix

namespace Fixer

/-- A proposal for one violation in the range of the element is taken where the violation is not
suppressed, and then the violation is recorded. -/
theorem accept_eq {d : DisabledRegions} {c : Cursor} (current replacement : Element) {p : Nat}
    (hd : d.IsSeparated) (hp : c.position ≤ p ∧ p < c.endPosition) :
    accept d c current (some ⟨replacement, p, [], none⟩) =
      (if d.isSuppressed p then current else replacement, [p].filter (!d.isSuppressed ·)) := by
  rw [accept, Fix.isAllowed_eq hd hp]
  cases hs : d.isSuppressed p with
  | false => simp [Fix.positions, hs]
  | true => simp [hs]

variable {x : Fixer Unit} {disabled : DisabledRegions} {Fits : Element → Element → Prop}
  {atToken atNode : Cursor → List Nat}

mutual
/-- What is recorded at and below the place `c` of the element `e`, given what is recorded at every
token and at every node. -/
def recordedOf (atToken atNode : Cursor → List Nat) : (e : Element) → (c : Cursor) → List Nat
  | .token _, c => atToken c
  | .node _ es, c => recordedOfAll atToken atNode es c 0 c.offset ++ atNode c
/-- What is recorded below the children `es` of `p` from index `i` and offset `o` on. -/
def recordedOfAll (atToken atNode : Cursor → List Nat) :
    (es : List Element) → (p : Cursor) → (i o : Nat) → List Nat
  | [], _, _, _ => []
  | e :: es, p, i, o =>
    recordedOf atToken atNode e (.child p i o e) ++
      recordedOfAll atToken atNode es p (i + 1) (o + e.fullLen)
end

mutual
theorem recordedOf_nodes (f : Cursor → List Nat) : ∀ (e : Element) (c : Cursor),
    recordedOf (fun _ => []) f e c = (Cursor.postorderOf e c).flatMap f
  | .token t, c => by rw [recordedOf, Cursor.postorderOf, List.flatMap_nil]
  | .node k es, c => by
    rw [recordedOf, Cursor.postorderOf, List.flatMap_append, recordedOfAll_nodes f es,
      List.flatMap_singleton]
theorem recordedOfAll_nodes (f : Cursor → List Nat) : ∀ (es : List Element) (p : Cursor)
    (i o : Nat), recordedOfAll (fun _ => []) f es p i o = (Cursor.postorderOfAll es p i o).flatMap f
  | [], p, i, o => by rw [recordedOfAll, Cursor.postorderOfAll, List.flatMap_nil]
  | e :: es, p, i, o => by
    rw [recordedOfAll, Cursor.postorderOfAll, List.flatMap_append, recordedOf_nodes f e,
      recordedOfAll_nodes f es]
end

mutual
theorem recordedOf_tokens (f : Cursor → List Nat) : ∀ (e : Element) (c : Cursor), e.WellKinded →
    c.element = e → recordedOf f (fun _ => []) e c = (Cursor.tokensOf e c).flatMap f
  | .token t, c, he, hc => by
    rw [recordedOf, Cursor.tokensOf_token he hc, List.flatMap_singleton]
  | .node k es, c, he, hc => by
    rw [recordedOf, Cursor.tokensOf_node he hc, List.append_nil,
      recordedOfAll_tokens f es _ _ _ ((Element.wellKinded_node k es).mp he).2]
theorem recordedOfAll_tokens (f : Cursor → List Nat) : ∀ (es : List Element) (p : Cursor)
    (i o : Nat), Element.WellKindedAll es →
    recordedOfAll f (fun _ => []) es p i o = (Cursor.tokensOfAll es p i o).flatMap f
  | [], p, i, o, _ => by rw [recordedOfAll, Cursor.tokensOfAll_nil, List.flatMap_nil]
  | e :: es, p, i, o, h => by
    obtain ⟨he, hes⟩ := (Element.wellKindedAll_cons e es).mp h
    rw [recordedOfAll, Cursor.tokensOfAll_cons, List.flatMap_append,
      recordedOf_tokens f e _ he rfl, recordedOfAll_tokens f es _ _ _ hes]
end

/-- What is known of the hooks of a fixer at a place: they answer, what they record is known, and
what becomes of the element fits it. -/
structure Behaves (x : Fixer Unit) (disabled : DisabledRegions) (Fits : Element → Element → Prop)
    (atToken atNode : Cursor → List Nat) (c : Cursor) : Prop where
  token : ∀ t, c.element = .token t → ∃ f, x.token c () = .ok (f, ()) ∧
    (accept disabled c (.token t) f).2 = atToken c ∧
    Fits (.token t) (accept disabled c (.token t) f).1
  visit : ∀ k es, c.element = .node k es → x.visit c () = .ok (true, ())
  node : ∀ k es es', c.element = .node k es → List.Forall₂ Fits es es' →
    ∃ f, x.node c (.node k es') () = .ok (f, ()) ∧
      (accept disabled c (.node k es') f).2 = atNode c ∧
      Fits (.node k es) (accept disabled c (.node k es') f).1

mutual
/-- A fixer that behaves at every place answers, and records what is recorded at every place. -/
theorem fixOf_eq : ∀ (e : Element) (c : Cursor), c.element = e →
    (∀ y ∈ Cursor.descendantsOf e c, Behaves x disabled Fits atToken atNode y) →
    ∃ e', fixOf x disabled e c () = .ok ((e', recordedOf atToken atNode e c), ()) ∧ Fits e e'
  | .token t, c, hc, h => by
    obtain ⟨f, hf, hrecorded, hfits⟩ := (h c (by rw [Cursor.descendantsOf]; simp)).token t hc
    refine ⟨(accept disabled c (.token t) f).1, ?_, hfits⟩
    rw [fixOf, hf, recordedOf, ← hrecorded]
    rfl
  | .node k es, c, hc, h => by
    rw [Cursor.descendantsOf, List.forall_mem_cons] at h
    obtain ⟨es', hes', hfits⟩ := fixOfAll_eq es c 0 c.offset h.2
    obtain ⟨f, hf, hrecorded, hfit⟩ := h.1.node k es es' hc hfits
    refine ⟨(accept disabled c (.node k es') f).1, ?_, hfit⟩
    rw [fixOf, h.1.visit k es hc, recordedOf, ← hrecorded]
    show (do
      let ((es', below), s) ← fixOfAll x disabled es c 0 c.offset ()
      let (fix, s) ← x.node c (.node k es') s
      let (e', here) := accept disabled c (.node k es') fix
      return ((e', below ++ here), s)) = _
    rw [hes']
    show (do
      let (fix, s) ← x.node c (.node k es') ()
      let (e', here) := accept disabled c (.node k es') fix
      return ((e', recordedOfAll atToken atNode es c 0 c.offset ++ here), s)) = _
    rw [hf]
    rfl
theorem fixOfAll_eq : ∀ (es : List Element) (p : Cursor) (i o : Nat),
    (∀ y ∈ Cursor.descendantsOfAll es p i o, Behaves x disabled Fits atToken atNode y) →
    ∃ es', fixOfAll x disabled es p i o () =
        .ok ((es', recordedOfAll atToken atNode es p i o), ()) ∧ List.Forall₂ Fits es es'
  | [], p, i, o, _ => ⟨[], by rw [fixOfAll, recordedOfAll]; rfl, .nil⟩
  | e :: es, p, i, o, h => by
    rw [Cursor.descendantsOfAll, List.forall_mem_append] at h
    obtain ⟨e', he', hfit⟩ := fixOf_eq e (.child p i o e) rfl h.1
    obtain ⟨es', hes', hfits⟩ := fixOfAll_eq es p (i + 1) (o + e.fullLen) h.2
    refine ⟨e' :: es', ?_, .cons hfit hfits⟩
    rw [fixOfAll, he', recordedOfAll]
    show (do
      let ((es', later), s) ← fixOfAll x disabled es p (i + 1) (o + e.fullLen) ()
      return ((e' :: es', recordedOf atToken atNode e (.child p i o e) ++ later), s)) = _
    rw [hes']
    rfl
end

/-- **A whole run**: a fixer that behaves at every place of a tree answers, and records what is
recorded at every place, in increasing order. -/
theorem run_eq {tree : Element}
    (h : ∀ y ∈ (Cursor.root tree).descendants, Behaves x disabled Fits atToken atNode y) :
    ∃ fixed, run x () disabled tree =
      .ok ⟨fixed, (recordedOf atToken atNode tree (.root tree)).mergeSort (· ≤ ·)⟩ := by
  obtain ⟨e', he', -⟩ := fixOf_eq tree (.root tree) rfl h
  rw [run, he']
  cases e' with
  | token t => exact ⟨tree, rfl⟩
  | node k es => exact ⟨.node k es, rfl⟩

/-! ### What becomes of a place

Where what is recorded at a place is not known beforehand, or what becomes of an element depends on
where it stands, a pass is followed by a relation between a place, what becomes of its element and
what is recorded at and below it. -/

/-- What is known of the hooks of a fixer at a place: they answer, and what becomes of the element is
related to the place if this holds of all children. -/
structure Makes (x : Fixer Unit) (disabled : DisabledRegions)
    (Made : Cursor → Element → List Nat → Prop) (c : Cursor) : Prop where
  token : ∀ t, c.element = .token t → ∃ f, x.token c () = .ok (f, ()) ∧
    Made c (accept disabled c (.token t) f).1 (accept disabled c (.token t) f).2
  visit : ∀ k es, c.element = .node k es → x.visit c () = .ok (true, ())
  node : ∀ k es ms, c.element = .node k es →
    List.Forall₂ (fun y m => Made y m.1 m.2) c.children ms →
    ∃ f, x.node c (.node k (ms.map Prod.fst)) () = .ok (f, ()) ∧
      Made c (accept disabled c (.node k (ms.map Prod.fst)) f).1
        (ms.flatMap Prod.snd ++ (accept disabled c (.node k (ms.map Prod.fst)) f).2)

section Makes

variable {Made : Cursor → Element → List Nat → Prop}

mutual
/-- What one place makes of its element holds of all that is made below a place. -/
theorem made_fixOf : ∀ (e : Element) (c : Cursor), c.element = e →
    (∀ y ∈ Cursor.descendantsOf e c, Makes x disabled Made y) →
    ∃ e' ps, fixOf x disabled e c () = .ok ((e', ps), ()) ∧ Made c e' ps
  | .token t, c, hc, h => by
    obtain ⟨f, hf, hmade⟩ := (h c (by rw [Cursor.descendantsOf]; simp)).token t hc
    refine ⟨_, _, ?_, hmade⟩
    rw [fixOf, hf]
    rfl
  | .node k es, c, hc, h => by
    rw [Cursor.descendantsOf, List.forall_mem_cons] at h
    obtain ⟨ms, hms, hmade⟩ := made_fixOfAll es c 0 c.offset h.2
    have hchildren : c.children = Cursor.childrenFrom c 0 c.offset es := by
      rw [Cursor.children, hc]
      rfl
    obtain ⟨f, hf, hnode⟩ := h.1.node k es ms hc (hchildren ▸ hmade)
    refine ⟨_, _, ?_, hnode⟩
    rw [fixOf, h.1.visit k es hc]
    show (do
      let ((es', below), s) ← fixOfAll x disabled es c 0 c.offset ()
      let (fix, s) ← x.node c (.node k es') s
      let (e', here) := accept disabled c (.node k es') fix
      return ((e', below ++ here), s)) = _
    rw [hms]
    show (do
      let (fix, s) ← x.node c (.node k (ms.map Prod.fst)) ()
      let (e', here) := accept disabled c (.node k (ms.map Prod.fst)) fix
      return ((e', ms.flatMap Prod.snd ++ here), s)) = _
    rw [hf]
    rfl
theorem made_fixOfAll : ∀ (es : List Element) (p : Cursor) (i o : Nat),
    (∀ y ∈ Cursor.descendantsOfAll es p i o, Makes x disabled Made y) →
    ∃ ms, fixOfAll x disabled es p i o () =
        .ok ((ms.map Prod.fst, ms.flatMap Prod.snd), ()) ∧
      List.Forall₂ (fun y m => Made y m.1 m.2) (Cursor.childrenFrom p i o es) ms
  | [], p, i, o, _ => ⟨[], by rw [fixOfAll]; rfl, .nil⟩
  | e :: es, p, i, o, h => by
    rw [Cursor.descendantsOfAll, List.forall_mem_append] at h
    obtain ⟨e', ps, he', hmade⟩ := made_fixOf e (.child p i o e) rfl h.1
    obtain ⟨ms, hms, hmades⟩ := made_fixOfAll es p (i + 1) (o + e.fullLen) h.2
    refine ⟨(e', ps) :: ms, ?_, .cons hmade hmades⟩
    rw [fixOfAll, he']
    show (do
      let ((es', later), s) ← fixOfAll x disabled es p (i + 1) (o + e.fullLen) ()
      return ((e' :: es', ps ++ later), s)) = _
    rw [hms]
    rfl
end

/-- **What a pass makes of a tree**: a root that has become a token is kept as it was. -/
theorem made_run {tree : Element} (h : ∀ y ∈ (Cursor.root tree).descendants, Makes x disabled Made y) :
    ∃ e' ps outcome, run x () disabled tree = .ok outcome ∧ Made (.root tree) e' ps ∧
      outcome.corrections = ps.mergeSort (· ≤ ·) ∧
      (outcome.tree = e' ∨ (∃ t, e' = .token t) ∧ outcome.tree = tree) := by
  obtain ⟨e', ps, he', hmade⟩ := made_fixOf tree (.root tree) rfl h
  refine ⟨e', ps, ?_⟩
  rw [run, he']
  cases e' with
  | token t => exact ⟨⟨tree, ps.mergeSort (· ≤ ·)⟩, rfl, hmade, rfl, .inr ⟨⟨t, rfl⟩, rfl⟩⟩
  | node k es => exact ⟨⟨.node k es, ps.mergeSort (· ≤ ·)⟩, rfl, hmade, rfl, .inl rfl⟩

/-- What a pass makes of a tree of which no token is made. -/
theorem made_run_of_not_token {tree : Element}
    (h : ∀ y ∈ (Cursor.root tree).descendants, Makes x disabled Made y)
    (htoken : ∀ t ps, ¬ Made (.root tree) (.token t) ps) :
    ∃ ps outcome, run x () disabled tree = .ok outcome ∧ Made (.root tree) outcome.tree ps ∧
      outcome.corrections = ps.mergeSort (· ≤ ·) := by
  obtain ⟨e', ps, outcome, hrun, hmade, hcorrections, htree⟩ := made_run h
  rcases htree with rfl | ⟨⟨t, rfl⟩, -⟩
  · exact ⟨ps, outcome, hrun, hmade, hcorrections⟩
  · exact absurd hmade (htoken t ps)

end Makes

/-- A fixer that visits nothing below the root records what it proposes for the root, and a node that
is taken becomes the tree. -/
theorem run_of_visit_eq_false (disabled : DisabledRegions) {k : SyntaxKind} {es : List Element}
    {fix : Option Fix}
    (hvisit : x.visit (.root (.node k es)) () = .ok (false, ()))
    (hnode : x.node (.root (.node k es)) (.node k es) () = .ok (fix, ())) :
    ∃ fixed, run x () disabled (.node k es) = .ok ⟨fixed,
        (accept disabled (.root (.node k es)) (.node k es) fix).2.mergeSort (· ≤ ·)⟩ ∧
      ∀ j fs, (accept disabled (.root (.node k es)) (.node k es) fix).1 = .node j fs →
        fixed = .node j fs := by
  have hfix : fixOf x disabled (.node k es) (.root (.node k es)) () =
      .ok (accept disabled (.root (.node k es)) (.node k es) fix, ()) := by
    rw [fixOf, hvisit]
    show (do
      let (fix, s) ← x.node (.root (.node k es)) (.node k es) ()
      return (accept disabled (.root (.node k es)) (.node k es) fix, s)) = _
    rw [hnode]
    rfl
  rw [run, hfix]
  cases (accept disabled (.root (.node k es)) (.node k es) fix) with
  | mk e' positions =>
    cases e' with
    | token t => exact ⟨.node k es, rfl, fun _ _ h => by cases h⟩
    | node j fs => exact ⟨.node j fs, rfl, fun _ _ h => h⟩

end Fixer

end SwiftTidy
