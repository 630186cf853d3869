import SwiftTidy.Lint.Rule
import SwiftTidy.Proofs.Lint.Fixes
import SwiftTidy.Proofs.Tree.Building

/-!
# Fixing a tree with lengths of 32 bits

The run of a fixer in which every node is built with its length added up in 32 bits (`buildOf`).
The hooks may check their own steps too: `Checks` says of the hooks of a fixer with checks that at
one place they answer as those without, and what becomes of the element there keeps what is needed
further up.  If this is so at every place, the checked run gives the outcome of the plain one
(`buildRun_eq`).
-/

namespace SwiftTidy

namespace Fixer

variable {σ : Type}

mutual
/-- Fixes the element `e`, which `c` points at, and builds the nodes whose children were fixed. -/
def buildOf (x : Fixer σ) (disabled : DisabledRegions) :
    (e : Element) → (c : Cursor) → σ → Except Fault ((Element × List Nat) × σ)
  | .token t, c, s => do
    let (fix, s) ← x.token c s
    return (accept disabled c (.token t) fix, s)
  | .node k es, c, s => do
    match ← x.visit c s with
    | (true, s) =>
      let ((es', below), s) ← buildOfAll x disabled es c 0 c.offset s
      let current ← Element.build k es'
      let (fix, s) ← x.node c current s
      let (e', here) := accept disabled c current fix
      return ((e', below ++ here), s)
    | (false, s) =>
      let (fix, s) ← x.node c (.node k es) s
      return (accept disabled c (.node k es) fix, s)
/-- Fixes the children `es` of `p` from index `i` and offset `o` on, and builds the nodes. -/
def buildOfAll (x : Fixer σ) (disabled : DisabledRegions) :
    (es : List Element) → (p : Cursor) → (i o : Nat) → σ →
      Except Fault ((List Element × List Nat) × σ)
  | [], _, _, _, s => return (([], []), s)
  | e :: es, p, i, o, s => do
    let ((e', here), s) ← buildOf x disabled e (.child p i o e) s
    let ((es', later), s) ← buildOfAll x disabled es p (i + 1) (o + e.fullLen) s
    return ((e' :: es', here ++ later), s)
end

/-- Fixes a tree and builds its nodes.  A root that was replaced by a token is kept as it was. -/
def buildRun (x : Fixer σ) (start : σ) (disabled : DisabledRegions) (tree : Element) :
    Except Fault FixOutcome := do
  let ((fixed, positions), _) ← buildOf x disabled tree (.root tree) start
  let tree :=
    match fixed with
    | .node k es => .node k es
    | .token _ => tree
  return ⟨tree, positions.mergeSort (· ≤ ·)⟩

variable {x checked : Fixer Unit} {disabled : DisabledRegions} {Fits Keeps : Element → Element → Prop}
  {atToken atNode : Cursor → List Nat}

/-- What holds of the element as it is and of every replacement holds after a proposal. -/
theorem accept_of {P : Element → Prop} {c : Cursor} {current : Element} {fix : Option Fix}
    (hcurrent : P current) (hfix : ∀ f ∈ fix, P f.replacement) :
    P (accept disabled c current fix).1 := by
  cases fix with
  | none => exact hcurrent
  | some f =>
    rw [accept]
    split_ifs
    · exact hfix f rfl
    · exact hcurrent

/-- What is known of the hooks of a fixer with checks at a place: they answer as those of the fixer
without, and what becomes of the element keeps what the nodes above rely on. -/
structure Checks (checked x : Fixer Unit) (disabled : DisabledRegions)
    (Fits Keeps : Element → Element → Prop) (c : Cursor) : Prop where
  token : ∀ t f, c.element = .token t → x.token c () = .ok (f, ()) →
    checked.token c () = .ok (f, ()) ∧ Keeps (.token t) (accept disabled c (.token t) f).1
  visit : checked.visit c () = x.visit c ()
  node : ∀ k es es' f, c.element = .node k es → List.Forall₂ Fits es es' →
    List.Forall₂ Keeps es es' → x.node c (.node k es') () = .ok (f, ()) →
    Element.fullLenAll es' < Offset.limit ∧ checked.node c (.node k es') () = .ok (f, ()) ∧
      Keeps (.node k es) (accept disabled c (.node k es') f).1

mutual
/-- A checked run below a place answers as the plain one. -/
theorem buildOf_eq : ∀ (e : Element) (c : Cursor), c.element = e →
    (∀ y ∈ Cursor.descendantsOf e c, Behaves x disabled Fits atToken atNode y) →
    (∀ y ∈ Cursor.descendantsOf e c, Checks checked x disabled Fits Keeps y) →
    ∃ e' ps, fixOf x disabled e c () = .ok ((e', ps), ()) ∧
      buildOf checked disabled e c () = .ok ((e', ps), ()) ∧ Keeps e e'
  | .token t, c, hc, hbehaves, hchecks => by
    have hmem : c ∈ Cursor.descendantsOf (.token t) c := by rw [Cursor.descendantsOf]; simp
    obtain ⟨f, hf, -, -⟩ := (hbehaves c hmem).token t hc
    obtain ⟨hchecked, hkeeps⟩ := (hchecks c hmem).token t f hc hf
    refine ⟨_, (accept disabled c (.token t) f).2, ?_, ?_, hkeeps⟩
    · rw [fixOf, hf]
      rfl
    · rw [buildOf, hchecked]
      rfl
  | .node k es, c, hc, hbehaves, hchecks => by
    rw [Cursor.descendantsOf, List.forall_mem_cons] at hbehaves hchecks
    obtain ⟨es', hes', hfits⟩ := fixOfAll_eq es c 0 c.offset hbehaves.2
    obtain ⟨fs, ps, hfs, hbuild, hkeeps⟩ := buildOfAll_eq es c 0 c.offset hbehaves.2 hchecks.2
    obtain ⟨rfl, rfl⟩ := Prod.mk.inj (Prod.mk.inj (Except.ok.inj (hes'.symm.trans hfs))).1
    obtain ⟨f, hf, -, -⟩ := hbehaves.1.node k es es' hc hfits
    obtain ⟨hlen, hchecked, hkeep⟩ := hchecks.1.node k es es' f hc hfits hkeeps hf
    have hvisit := hbehaves.1.visit k es hc
    refine ⟨_, recordedOfAll atToken atNode es c 0 c.offset ++
      (accept disabled c (.node k es') f).2, ?_, ?_, hkeep⟩
    · rw [fixOf, hvisit]
      simp only [bind, Except.bind, hes', hf]
      rfl
    · rw [buildOf, hchecks.1.visit, hvisit]
      simp only [bind, Except.bind, hbuild, Element.build_eq_ok k hlen, hchecked]
      rfl
theorem buildOfAll_eq : ∀ (es : List Element) (p : Cursor) (i o : Nat),
    (∀ y ∈ Cursor.descendantsOfAll es p i o, Behaves x disabled Fits atToken atNode y) →
    (∀ y ∈ Cursor.descendantsOfAll es p i o, Checks checked x disabled Fits Keeps y) →
    ∃ es' ps, fixOfAll x disabled es p i o () = .ok ((es', ps), ()) ∧
      buildOfAll checked disabled es p i o () = .ok ((es', ps), ()) ∧ List.Forall₂ Keeps es es'
  | [], p, i, o, _, _ => ⟨[], [], by rw [fixOfAll]; rfl, by rw [buildOfAll]; rfl, .nil⟩
  | e :: es, p, i, o, hbehaves, hchecks => by
    rw [Cursor.descendantsOfAll, List.forall_mem_append] at hbehaves hchecks
    obtain ⟨e', here, he, hbuild, hkeep⟩ :=
      buildOf_eq e (.child p i o e) rfl hbehaves.1 hchecks.1
    obtain ⟨es', later, hes, hbuilds, hkeeps⟩ :=
      buildOfAll_eq es p (i + 1) (o + e.fullLen) hbehaves.2 hchecks.2
    refine ⟨e' :: es', here ++ later, ?_, ?_, .cons hkeep hkeeps⟩
    · rw [fixOfAll, he]
      simp only [bind, Except.bind, hes]
      rfl
    · rw [buildOfAll, hbuild]
      simp only [bind, Except.bind, hbuilds]
      rfl
end

/-- **A checked run**: a fixer whose hooks check their steps and answer at every place gives the
outcome of the fixer without checks. -/
theorem buildRun_eq {tree : Element}
    (hbehaves : ∀ y ∈ (Cursor.root tree).descendants, Behaves x disabled Fits atToken atNode y)
    (hchecks : ∀ y ∈ (Cursor.root tree).descendants, Checks checked x disabled Fits Keeps y) :
    ∃ outcome, x.run () disabled tree = .ok outcome ∧
      checked.buildRun () disabled tree = .ok outcome := by
  obtain ⟨e', ps, hfix, hbuild, -⟩ := buildOf_eq tree (.root tree) rfl hbehaves hchecks
  rw [run, buildRun, hfix, hbuild]
  exact ⟨_, rfl, rfl⟩

/-- The checked run of a fixer that visits nothing below the root builds no node itself. -/
theorem buildRun_of_visit_eq_false (disabled : DisabledRegions) {k : SyntaxKind}
    {es : List Element} {fix : Option Fix}
    (hvisit : x.visit (.root (.node k es)) () = .ok (false, ()))
    (hnode : x.node (.root (.node k es)) (.node k es) () = .ok (fix, ()))
    (hvisit' : checked.visit (.root (.node k es)) () = .ok (false, ()))
    (hnode' : checked.node (.root (.node k es)) (.node k es) () = .ok (fix, ())) :
    ∃ outcome, x.run () disabled (.node k es) = .ok outcome ∧
      checked.buildRun () disabled (.node k es) = .ok outcome := by
  rw [run, buildRun, fixOf, buildOf]
  simp only [bind, Except.bind, hvisit, hnode, hvisit', hnode']
  exact ⟨_, rfl, rfl⟩

end Fixer

namespace Rule

/-- Corrects the source once, with every node built in 32 bits; `none` for a rule that does not
correct. -/
def buildFix? (r : Rule) (ctx : Context) : Option (Except Fault FixOutcome) :=
  r.fixer?.map fun fixer =>
    (fixer ctx).buildRun () (ctx.unit.disabledRegions r.description) ctx.unit.tree

/-- The rule runs through as its checked form `q` does: both find the same and correct the same, and
no step of either fails. -/
structure RunsAs (r q : Rule) (ctx : Context) : Prop where
  validate : ∃ vs, q.validate ctx = .ok vs ∧ r.validate ctx = .ok vs
  fix : (q.buildFix? ctx = none ∧ r.fix? ctx = none) ∨
    ∃ outcome, q.buildFix? ctx = some (.ok outcome) ∧ r.fix? ctx = some (.ok outcome)

variable {r q : Rule} {ctx : Context}

theorem RunsAs.of_find {vs : List Violation} (hq : q.find ctx = .ok vs) (hr : r.find ctx = .ok vs)
    (hfix : (q.buildFix? ctx = none ∧ r.fix? ctx = none) ∨
      ∃ outcome, q.buildFix? ctx = some (.ok outcome) ∧ r.fix? ctx = some (.ok outcome)) :
    r.RunsAs q ctx := by
  refine ⟨⟨Violation.sort vs, ?_, ?_⟩, hfix⟩
  · rw [Rule.validate, hq]
    rfl
  · rw [Rule.validate, hr]
    rfl

end Rule

end SwiftTidy
