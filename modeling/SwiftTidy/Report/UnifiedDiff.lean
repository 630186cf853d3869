import SwiftTidy.Report.Form
import SwiftTidy.Text.Words

/-!
# Differences between texts

The lines of two texts are aligned along a longest common subsequence, and what differs is shown
in hunks with some lines around it.
-/

namespace SwiftTidy

/-- A line of an alignment of an old and a new text. -/
inductive DiffLine where
  | same (text : String)
  | removed (text : String)
  | added (text : String)
  deriving DecidableEq, Inhabited

namespace DiffLine

/-- Whether the line is in both texts. -/
def isSame : DiffLine → Bool
  | same _ => true
  | _ => false

/-- The line in the old text, if it is there. -/
def old? : DiffLine → Option String
  | same t => some t
  | removed t => some t
  | added _ => none

/-- The line in the new text, if it is there. -/
def new? : DiffLine → Option String
  | same t => some t
  | removed _ => none
  | added t => some t

/-- The line with a mark in front that says where it is. -/
def display (color : Bool) : DiffLine → String
  | same t => " " ++ t
  | removed t => Color.red.paint color ("-" ++ t)
  | added t => Color.green.paint color ("+" ++ t)

end DiffLine

namespace UnifiedDiff

/-! ### Alignment -/

/-- The lengths of longest common subsequences, of `a` and the old lines behind it with every rest
of the new lines; `below` are those without `a`. -/
def lcsRow (a : String) : (new : List String) → (below : List Nat) → List Nat
  | [], _ => [0]
  | b :: bs, below =>
    let rest := lcsRow a bs below.tail
    (if a == b then below.tail.headD 0 + 1 else max (below.headD 0) (rest.headD 0)) :: rest

/-- The lengths of longest common subsequences of every rest of the old lines, one row each, with
every rest of the new lines. -/
def lcsTable (new : List String) : (old : List String) → List (List Nat)
  | [] => [List.replicate (new.length + 1) 0]
  | a :: as =>
    let below := lcsTable new as
    lcsRow a new (below.headD []) :: below

/-- Aligns the old lines `a :: as` with new ones, where `next` aligns `as`.  The table is the one
of the lines that are left. -/
def alignFirst (a : String) (as : List String)
    (next : List String → List (List Nat) → List DiffLine) :
    (new : List String) → (table : List (List Nat)) → List DiffLine
  | [], _ => (a :: as).map .removed
  | b :: bs, table =>
    if a == b then .same a :: next bs (table.tail.map List.tail)
    else if ((table.headD []).tail.headD 0) ≤ ((table.tail.headD []).headD 0) then
      .removed a :: next (b :: bs) table.tail
    else .added b :: alignFirst a as next bs (table.map List.tail)

/-- Aligns old lines with new ones. -/
def align : (old new : List String) → (table : List (List Nat)) → List DiffLine
  | [], new, _ => new.map .added
  | a :: as, new, table => alignFirst a as (align as) new table

/-- The alignment of the lines of two texts. -/
def lines (old new : String) : List DiffLine :=
  let old := Words.lines old
  let new := Words.lines new
  align old new (lcsTable new old)

/-! ### Hunks -/

/-- The number of lines shown around each change. -/
def context : Nat := 2

/-- The indices of the lines that are not in both texts, counted from `i` on. -/
def changed : (i : Nat) → List DiffLine → List Nat
  | _, [] => []
  | i, l :: ls => if l.isSame then changed (i + 1) ls else i :: changed (i + 1) ls

/-- The stretches of lines around changes, of `count` lines in all.  Stretches that touch are
merged; `last` is the one that is still open. -/
def hunksFrom (count : Nat) : (last : Nat × Nat) → List Nat → List (Nat × Nat)
  | last, [] => [last]
  | last, i :: is =>
    let start := i - context
    let stop := min (i + context + 1) count
    if start ≤ last.2 then hunksFrom count (last.1, stop) is
    else last :: hunksFrom count (start, stop) is

/-- The stretches of lines that are shown. -/
def hunks (ls : List DiffLine) : List (Nat × Nat) :=
  match changed 0 ls with
  | [] => []
  | i :: is => hunksFrom ls.length (i - context, min (i + context + 1) ls.length) is

/-- The line above a hunk: where it starts in each text, and how many lines it has there. -/
def hunkHeader (ls : List DiffLine) (hunk : Nat × Nat) : String :=
  let front := ls.take hunk.1
  let body := (ls.take hunk.2).drop hunk.1
  let oldStart := 1 + (front.filterMap (·.old?)).length
  let newStart := 1 + (front.filterMap (·.new?)).length
  let oldCount := (body.filterMap (·.old?)).length
  let newCount := (body.filterMap (·.new?)).length
  s!"@@ -{oldStart},{oldCount} +{newStart},{newCount} @@"

/-- A hunk with the line above it. -/
def showHunk (color : Bool) (ls : List DiffLine) (hunk : Nat × Nat) : String :=
  let body := (ls.take hunk.2).drop hunk.1
  Color.cyan.paint color (hunkHeader ls hunk) ++ "\n" ++
    String.join (body.map fun l => l.display color ++ "\n")

/-- The differences between two texts of a file; nothing when their lines are the same. -/
def render (color : Bool) (path old new : String) : String :=
  let ls := lines old new
  if ls.all DiffLine.isSame then ""
  else
    "--- a/" ++ path ++ "\n+++ b/" ++ path ++ "\n" ++
      String.join ((hunks ls).map (showHunk color ls))

end UnifiedDiff

end SwiftTidy
