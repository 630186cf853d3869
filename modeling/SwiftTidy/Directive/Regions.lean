import SwiftTidy.Directive.Command

/-!
# Where rules are disabled

The commands of a file are processed in order, which gives at every offset the set of rules that
are disabled there.  Each command opens a region that lasts until the next command; the regions in
which one rule is disabled are merged into an ordered list of disjoint regions, and a position is
looked up in it by bisection.
-/

namespace SwiftTidy

/-- A part of a file and the rules disabled in it; without an end it runs to the end of the
file. -/
structure DisabledRegion where
  rules : RuleSet
  start : Nat
  stop : Option Nat
  deriving DecidableEq, Inhabited

/-- Whether an offset is in front of an end that may be missing. -/
def beforeStop (offset : Nat) : Option Nat → Bool
  | none => true
  | some stop => offset < stop

namespace DisabledRegion

/-- Whether an offset lies in the region. -/
def contains (r : DisabledRegion) (offset : Nat) : Bool :=
  r.start ≤ offset && beforeStop offset r.stop

/-- Whether a range lies within the region. -/
def containsRange (r : DisabledRegion) (q : TextRange) : Bool :=
  r.start ≤ q.start && r.stop.all fun stop => q.stop ≤ stop

end DisabledRegion

/-- Halves the stretch of `size` places from `base` on until one is left: the last place at which
the test holds, if the test holds up to some place and not behind it.  `fuel` bounds the number of
steps. -/
def bisect (test : Nat → Bool) : (fuel base size : Nat) → Nat
  | 0, base, _ => base
  | fuel + 1, base, size =>
    if size ≤ 1 then base
    else
      let half := size / 2
      bisect test fuel (if test (base + half) then base + half else base) (size - half)

/-- The number of elements in front of the first at which the test fails, in an array in which it
holds up to some place and not behind it. -/
def partitionPoint {α : Type} (xs : Array α) (test : α → Bool) : Nat :=
  let testAt (i : Nat) : Bool := (xs[i]?).any test
  if xs.size = 0 then 0
  else
    let base := bisect testAt xs.size 0 xs.size
    if testAt base then base + 1 else base

/-- The disabled regions of one rule: ordered, and apart from each other. -/
structure DisabledRegions where
  regions : Array DisabledRegion
  deriving DecidableEq, Inhabited

namespace DisabledRegions

/-- No region at all. -/
def none : DisabledRegions := ⟨#[]⟩

/-- Whether there is no region. -/
def isEmpty (d : DisabledRegions) : Bool := d.regions.isEmpty

/-- The last region that does not start behind an offset. -/
def lastFrom? (d : DisabledRegions) (offset : Nat) : Option DisabledRegion :=
  match partitionPoint d.regions (·.start ≤ offset) with
  | 0 => Option.none
  | i + 1 => d.regions[i]?

/-- Whether an offset lies in a region. -/
def isSuppressed (d : DisabledRegions) (offset : Nat) : Bool :=
  (d.lastFrom? offset).any (·.contains offset)

/-- Whether a range lies within one region. -/
def isContainedIn (d : DisabledRegions) (q : TextRange) : Bool :=
  (d.lastFrom? q.start).any (·.containsRange q)

end DisabledRegions

/-- A directive that disables one rule, up to the command that ends it. -/
structure DisableSpan where
  rule : String
  start : Nat
  stop : Option Nat
  /-- The offset of the directive. -/
  origin : Nat
  deriving DecidableEq, Inhabited

/-- Whether an offset lies in the span. -/
def DisableSpan.contains (s : DisableSpan) (offset : Nat) : Bool :=
  s.start ≤ offset && beforeStop offset s.stop

/-- What is known after some commands: the disabled rules, and what each directive for a line that
is not over yet changed. -/
structure SweepState where
  disabled : RuleSet
  pendingLines : List (Nat × Action × RuleSet)
  deriving DecidableEq, Inhabited

namespace SweepState

/-- Before the first command no rule is disabled. -/
def start : SweepState := ⟨RuleSet.empty, []⟩

/-- Takes the first directive with the given origin out of the open ones.  The last one moves into
its place. -/
def close (origin : Nat) (pendingLines : List (Nat × Action × RuleSet)) :
    Option ((Action × RuleSet) × List (Nat × Action × RuleSet)) :=
  match pendingLines.findIdx? (·.1 == origin) with
  | none => none
  | some i =>
    match pendingLines[i]?, pendingLines.getLast? with
    | some (_, change), some last => some (change, (pendingLines.set i last).dropLast)
    | _, _ => none

/-- The state after one more command.  The end of a line takes back exactly what its start
changed, so that a directive for a line inside an open region leaves this region as it is. -/
def step (s : SweepState) (c : AnchoredCommand) : SweepState :=
  if c.scope == .lineEnd then
    match close c.origin s.pendingLines with
    | none => s
    | some ((.disable, changed), rest) => ⟨s.disabled.difference changed, rest⟩
    | some ((.enable, changed), rest) => ⟨s.disabled.union changed, rest⟩
  else
    match c.action with
    | .disable =>
      let disabled := s.disabled.union c.rules
      let changed := disabled.difference s.disabled
      ⟨disabled, if c.scope == .lineStart then s.pendingLines ++ [(c.origin, .disable, changed)]
        else s.pendingLines⟩
    | .enable =>
      let disabled := s.disabled.subtract c.rules
      let changed := s.disabled.difference disabled
      ⟨disabled, if c.scope == .lineStart then s.pendingLines ++ [(c.origin, .enable, changed)]
        else s.pendingLines⟩

/-- The state after all commands in effect at an offset. -/
def upTo (commands : List AnchoredCommand) (offset : Nat) : SweepState :=
  (commands.filter (·.offset ≤ offset)).foldl step start

end SweepState

/-- The regions of a file with the rules disabled in each, and the directives behind them. -/
structure Regions where
  regions : List DisabledRegion
  spans : List DisableSpan
  deriving DecidableEq, Inhabited

namespace Regions

/-- The regions that the commands open from state `s` on.  Empty regions and those in which
nothing is disabled are left out. -/
def sweep (s : SweepState) : List AnchoredCommand → List DisabledRegion
  | [] => []
  | c :: cs =>
    let s' := s.step c
    let stop := cs.head?.map (·.offset)
    if s'.disabled.isEmpty || stop == some c.offset then sweep s' cs
    else ⟨s'.disabled, c.offset, stop⟩ :: sweep s' cs

/-- Whether `later` ends what `c` did to the rule. -/
def endsSpan (c : AnchoredCommand) (rule : String) (later : AnchoredCommand) : Bool :=
  match c.scope with
  | .lineStart => later.scope == .lineEnd && later.origin == c.origin
  | .file | .lineEnd =>
    later.action == .enable && later.scope != .lineEnd && later.rules.covers [rule]

/-- The spans of the commands that disable rules by name. -/
def disableSpans : List AnchoredCommand → List DisableSpan
  | [] => []
  | c :: cs =>
    (if c.action == .disable then
      c.rules.names.map fun rule =>
        ⟨rule, c.offset, (cs.find? (endsSpan c rule)).map (·.offset), c.origin⟩
    else []) ++ disableSpans cs

/-- The regions of commands that are in order. -/
def ofCommands (commands : List AnchoredCommand) : Regions :=
  ⟨sweep SweepState.start commands, disableSpans commands⟩

/-- The later of two ends, either of which may be missing. -/
def laterStop : Option Nat → Option Nat → Option Nat
  | some a, some b => some (max a b)
  | _, _ => none

/-- Merges each region into the one in front of it where they touch.  `last` is the region that
is still open. -/
def merge (last : DisabledRegion) : List DisabledRegion → List DisabledRegion
  | [] => [last]
  | r :: rs =>
    if last.stop.all (r.start ≤ ·) then
      merge ⟨last.rules.union r.rules, last.start, laterStop last.stop r.stop⟩ rs
    else last :: merge r rs

/-- The regions in which a rule known under the given identifiers is disabled. -/
def disabledRegions (rs : Regions) (ids : List String) : DisabledRegions :=
  match rs.regions.filter (·.rules.covers ids) with
  | [] => DisabledRegions.none
  | r :: rest => ⟨(merge r rest).toArray⟩

/-- Whether a rule known under the given identifiers is disabled at an offset, by looking at every
region. -/
def isSuppressed (rs : Regions) (ids : List String) (offset : Nat) : Bool :=
  rs.regions.any fun r => r.contains offset && r.rules.covers ids

end Regions

end SwiftTidy
