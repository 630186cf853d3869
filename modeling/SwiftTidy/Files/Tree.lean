import SwiftTidy.Files.Path

/-!
# Files

What the command line needs from the world around it, in any monad, and a file system as a value: files
with their contents, found by the names on the way from the root.
-/

namespace SwiftTidy

/-- The files and the terminal of a run, in a monad `m`.  Where something can go wrong, the answer
is what the system says about it. -/
structure FileAccess (m : Type → Type) where
  currentDirectory : m String
  isFile : String → m Bool
  /-- Every file below a directory, each path seen from where the path of the directory is. -/
  filesBelow : String → m (List String)
  read : String → m (Except String String)
  write : String → String → m (Except String Unit)
  /-- Prints to the standard output. -/
  print : String → m Unit
  /-- Prints to the standard error output. -/
  printError : String → m Unit

/-- What the system says when a file cannot be reached. -/
inductive FileError where
  | missing
  | notDirectory
  | isDirectory
  deriving DecidableEq, Inhabited

/-- The text of an error. -/
def FileError.message : FileError → String
  | missing => "No such file or directory (os error 2)"
  | notDirectory => "Not a directory (os error 20)"
  | isDirectory => "Is a directory (os error 21)"

/-- Files with their contents, and directories that are there even without files. -/
structure FileTree where
  files : List (List String × String)
  directories : List (List String)
  deriving Inhabited

namespace FileTree

/-- The parts of a path between slashes. -/
def parts (path : String) : List String := (Words.splitOnChar '/' path.toList).map String.ofList

/-- The names of a path without dots. -/
def names (path : String) : List String :=
  (Path.components path).filterMap fun
    | .name n => some n
    | _ => none

/-- The content of a file. -/
def content? (t : FileTree) (place : List String) : Option String := t.files.lookup place

/-- Whether there is a directory. -/
def isDirectory (t : FileTree) (place : List String) : Bool :=
  t.directories.any (place.isPrefixOf ·) ||
    t.files.any fun f => place.isPrefixOf f.1 && place.length < f.1.length

/-- Follows the parts of a path from a place.  Every part but a name at the end needs a directory
to start from. -/
def follow (t : FileTree) : (place : List String) → List String → Except FileError (List String)
  | place, [] => .ok place
  | place, p :: ps =>
    if t.isDirectory place then
      if p == "" || p == "." then t.follow place ps
      else if p == ".." then t.follow place.dropLast ps
      else t.follow (place ++ [p]) ps
    else if (t.content? place).isSome then .error .notDirectory
    else .error .missing

/-- The place that a path leads to, seen from a directory. -/
def resolve (t : FileTree) (cwd path : String) : Except FileError (List String) :=
  if path.isEmpty then .error .missing
  else t.follow (if Path.isAbsolute path then [] else names cwd) (parts path)

/-- Whether a path leads to a file. -/
def isFile (t : FileTree) (cwd path : String) : Bool :=
  match t.resolve cwd path with
  | .ok place => !t.isDirectory place && (t.content? place).isSome
  | .error _ => false

/-- The content of the file that a path leads to. -/
def read (t : FileTree) (cwd path : String) : Except FileError String := do
  let place ← t.resolve cwd path
  if t.isDirectory place then .error .isDirectory
  else
    match t.content? place with
    | some text => .ok text
    | none => .error .missing

/-- Puts a content into a file, which is created if it is not there. -/
def put (place : List String) (text : String) :
    List (List String × String) → List (List String × String)
  | [] => [(place, text)]
  | (q, old) :: fs => if q == place then (q, text) :: fs else (q, old) :: put place text fs

/-- Writes a file. -/
def write (t : FileTree) (cwd path text : String) : Except FileError FileTree := do
  let place ← t.resolve cwd path
  if t.isDirectory place then .error .isDirectory
  else .ok { t with files := put place text t.files }

/-- The files below the directory that a path leads to. -/
def filesBelow (t : FileTree) (cwd path : String) : List String :=
  match t.resolve cwd path with
  | .error _ => []
  | .ok place =>
    if t.isDirectory place then
      (t.files.filter fun f => place.isPrefixOf f.1).map fun f =>
        Path.join path ("/".intercalate (f.1.drop place.length))
    else []

end FileTree

/-- A file tree with a current directory, and what was printed so far. -/
structure World where
  tree : FileTree
  cwd : String
  output : String := ""
  errorOutput : String := ""
  deriving Inhabited

/-- Access to the files of a world. -/
def World.access : FileAccess (StateM World) where
  currentDirectory w := (w.cwd, w)
  isFile path w := (w.tree.isFile w.cwd path, w)
  filesBelow path w := (w.tree.filesBelow w.cwd path, w)
  read path w := ((w.tree.read w.cwd path).mapError FileError.message, w)
  write path text w :=
    match w.tree.write w.cwd path text with
    | .ok tree => (.ok (), { w with tree := tree })
    | .error e => (.error e.message, w)
  print text w := ((), { w with output := w.output ++ text })
  printError text w := ((), { w with errorOutput := w.errorOutput ++ text })

end SwiftTidy
