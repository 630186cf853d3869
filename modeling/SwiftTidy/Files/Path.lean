import SwiftTidy.Text.Words

/-!
# Paths

A path is a text; what it means is the list of its components.  Repeated and trailing slashes do
not matter, and neither does a dot, except at the start of a relative path.
-/

namespace SwiftTidy

namespace Path

/-- A component of a path. -/
inductive Component where
  /-- The slash at the start. -/
  | root
  /-- A dot at the start. -/
  | here
  /-- Two dots. -/
  | up
  | name (n : String)
  deriving DecidableEq, Inhabited

namespace Component

/-- The written form of a component. -/
def text : Component → String
  | root => "/"
  | here => "."
  | up => ".."
  | name n => n

/-- The place of the kind of a component in the order of paths. -/
def rank : Component → Nat
  | root => 0
  | here => 1
  | up => 2
  | name _ => 3

/-- The order of components: the kinds one after another, and names by their text. -/
def lt : Component → Component → Bool
  | name a, name b => a < b
  | a, b => a.rank < b.rank

end Component

/-- Whether a path starts at the root. -/
def isAbsolute (p : String) : Bool := p.toList.head? == some '/'

/-- The components of a part between slashes; only a dot at the start of a path counts. -/
def componentOf? (atStart : Bool) (part : List Char) : Option Component :=
  match part with
  | [] => none
  | ['.'] => if atStart then some .here else none
  | ['.', '.'] => some .up
  | cs => some (.name (String.ofList cs))

/-- The components of a path. -/
def components (p : String) : List Component :=
  match Words.splitOnChar '/' p.toList with
  | [] => []
  | part :: parts =>
    let rest := parts.filterMap (componentOf? false)
    if isAbsolute p then .root :: rest else (componentOf? true part).toList ++ rest

/-- Whether `p` is `front` or lies below it. -/
def startsWith (p front : String) : Bool := (components front).isPrefixOf (components p)

/-- The path `p` seen from `base`. -/
def join (base p : String) : String :=
  if isAbsolute p then p
  else if base.isEmpty || base.toList.getLast? == some '/' then base ++ p
  else base ++ "/" ++ p

/-- The order of paths: component by component. -/
def componentsLe : List Component → List Component → Bool
  | [], _ => true
  | _ :: _, [] => false
  | a :: as, b :: bs => a.lt b || (a == b && componentsLe as bs)

/-- Whether `p` does not come behind `q` in the order of paths. -/
def le (p q : String) : Bool := componentsLe (components p) (components q)

/-- The written form of components. -/
def ofComponents : List Component → String
  | .root :: cs => "/" ++ "/".intercalate (cs.map Component.text)
  | cs => "/".intercalate (cs.map Component.text)

/-- The parts of a path without those at the end that mean nothing; the first part stays. -/
def trimParts : List (List Char) → List (List Char)
  | [] => []
  | first :: rest =>
    first :: (rest.reverse.dropWhile fun p => p.isEmpty || p == ['.']).reverse

/-- The path of the directory that holds a path, as it is written there.  There is none above the
root and above the empty path. -/
def parent? (p : String) : Option String :=
  match trimParts (Words.splitOnChar '/' p.toList) with
  | [] => none
  | [first] => if first.isEmpty then none else some ""
  | parts =>
    match trimParts parts.dropLast with
    | [[]] => some "/"
    | front => some ("/".intercalate (front.map String.ofList))

/-- A path and all paths above it, at most `fuel` of them. -/
def ancestorsFrom : (fuel : Nat) → (p : String) → List String
  | 0, p => [p]
  | fuel + 1, p =>
    match parent? p with
    | none => [p]
    | some q => p :: ancestorsFrom fuel q

/-- A path and all paths above it. -/
def ancestors (p : String) : List String := ancestorsFrom p.length p

/-- The part of the name of a file behind its last dot, unless that dot is the first character. -/
def extension? (p : String) : Option String :=
  match (components p).getLast? with
  | some (.name n) =>
    let behind := n.toList.reverse.takeWhile (· != '.')
    match n.toList.reverse.drop behind.length with
    | '.' :: _ :: _ => some (String.ofList behind.reverse)
    | _ => none
  | _ => none

/-- The components of a path seen from a directory. -/
def absoluteComponents (cwd p : String) : List Component :=
  if isAbsolute p then components p
  else components cwd ++ (components p).filter (· != .here)

/-- The path of `p` seen from `base`, if it lies there; the whole path otherwise.  Both are seen
from the directory `cwd`. -/
def relativeTo (cwd base p : String) : String :=
  let front := absoluteComponents cwd base
  let whole := absoluteComponents cwd p
  if front.isPrefixOf whole then ofComponents (whole.drop front.length) else ofComponents whole

end Path

end SwiftTidy
