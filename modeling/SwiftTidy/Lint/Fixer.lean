import SwiftTidy.Directive.Regions
import SwiftTidy.Tree.Cursor

/-!
# Fixing a tree

A fixer proposes replacements for tokens and nodes while a tree is rebuilt from its leaves up.  It
sees the place in the tree as it was and, for a node, what has become of it so far.  A proposal is
dropped where the rule is disabled: when one of its positions is suppressed, or when all that it
changes lies in a disabled region.
-/

namespace SwiftTidy

/-- A proposed replacement. -/
structure Fix where
  replacement : Element
  /-- The position of the violation that it corrects. -/
  position : Nat
  /-- The positions of other violations that it corrects too. -/
  alsoAt : List Nat := []
  /-- The range that it changes; without one it is the range of the replaced element. -/
  changed : Option TextRange := none

namespace Fix

/-- The positions of all violations that a replacement corrects. -/
def positions (f : Fix) : List Nat := f.position :: f.alsoAt

/-- Whether the disabled regions leave room for a replacement of the element at `c`. -/
def isAllowed (f : Fix) (disabled : DisabledRegions) (c : Cursor) : Bool :=
  !(f.positions.any disabled.isSuppressed || disabled.isContainedIn (f.changed.getD c.range))

end Fix

/-- What proposes replacements, with a state of type `σ`. -/
structure Fixer (σ : Type) where
  /-- Called before the children of a node; the answer says whether to visit them. -/
  visit : Cursor → σ → Except Fault (Bool × σ) := fun _ s => .ok (true, s)
  /-- Called after the children of a node, with the node as it is by then. -/
  node : Cursor → Element → σ → Except Fault (Option Fix × σ) := fun _ _ s => .ok (none, s)
  /-- Called for every token. -/
  token : Cursor → σ → Except Fault (Option Fix × σ) := fun _ s => .ok (none, s)

/-- A fixed tree, with the positions of the corrected violations in increasing order. -/
structure FixOutcome where
  tree : Element
  corrections : List Nat

namespace FixOutcome

/-- Whether nothing was corrected. -/
def isUnchanged (o : FixOutcome) : Bool := o.corrections.isEmpty

end FixOutcome

namespace Fixer

variable {σ : Type}

/-- The element at `c` after a proposal: the replacement if it is allowed, else `current`, each
with the positions that were corrected. -/
def accept (disabled : DisabledRegions) (c : Cursor) (current : Element) :
    Option Fix → Element × List Nat
  | none => (current, [])
  | some f => if f.isAllowed disabled c then (f.replacement, f.positions) else (current, [])

mutual
/-- Fixes the element `e`, which `c` points at. -/
def fixOf (x : Fixer σ) (disabled : DisabledRegions) :
    (e : Element) → (c : Cursor) → σ → Except Fault ((Element × List Nat) × σ)
  | .token t, c, s => do
    let (fix, s) ← x.token c s
    return (accept disabled c (.token t) fix, s)
  | .node k es, c, s => do
    match ← x.visit c s with
    | (true, s) =>
      let ((es', below), s) ← fixOfAll x disabled es c 0 c.offset s
      let (fix, s) ← x.node c (.node k es') s
      let (e', here) := accept disabled c (.node k es') fix
      return ((e', below ++ here), s)
    | (false, s) =>
      let (fix, s) ← x.node c (.node k es) s
      return (accept disabled c (.node k es) fix, s)
/-- Fixes the children `es` of `p` from index `i` and offset `o` on. -/
def fixOfAll (x : Fixer σ) (disabled : DisabledRegions) :
    (es : List Element) → (p : Cursor) → (i o : Nat) → σ →
      Except Fault ((List Element × List Nat) × σ)
  | [], _, _, _, s => return (([], []), s)
  | e :: es, p, i, o, s => do
    let ((e', here), s) ← fixOf x disabled e (.child p i o e) s
    let ((es', later), s) ← fixOfAll x disabled es p (i + 1) (o + e.fullLen) s
    return ((e' :: es', here ++ later), s)
end

/-- Fixes a tree.  A root that was replaced by a token is kept as it was. -/
def run (x : Fixer σ) (start : σ) (disabled : DisabledRegions) (tree : Element) :
    Except Fault FixOutcome := do
  let ((fixed, positions), _) ← fixOf x disabled tree (.root tree) start
  let tree :=
    match fixed with
    | .node k es => .node k es
    | .token _ => tree
  return ⟨tree, positions.mergeSort (· ≤ ·)⟩

end Fixer

end SwiftTidy
