import SwiftTidy.Files.Tree
import SwiftTidy.Parse.SourceFile
import SwiftTidy.Text.Quoted
import SwiftTidy.Tree.Cursor

/-!
# Printing trees

One line for every element of a tree, indented by its depth.
-/

namespace SwiftTidy

namespace Dump

/-- A short description of an element: kind and range, and the text of a token. -/
def debug (c : Cursor) : String :=
  let range := c.range.display
  let kind := c.kind.name
  if c.isToken then
    let text := Quoted.quote c.text
    s!"{kind}@{range} {text}"
  else s!"{kind}@{range}"

/-- A short description of a tree: the number of its elements and its length. -/
def debugTree (tree : Element) : String :=
  let count := tree.size
  let len := tree.fullLen
  s!"SyntaxTree \x7b nodes: {count}, len: {len} \x7d"

/-- The line of an element, without the indentation. -/
def describe (c : Cursor) : String :=
  let range := c.range.display
  let kind := c.kind.name
  if c.isToken then
    let text := Quoted.quote c.text
    s!"{kind} {text} @{range}"
  else s!"{kind} @{range}"

/-- The lines of a tree. -/
def render (tree : Element) : String :=
  String.join <| (Cursor.root tree).descendants.map fun c =>
    "".pushn ' ' (2 * c.depth) ++ describe c ++ "\n"

/-- Prints the tree of the file that the first argument names; the answer is the exit code. -/
def execute {m : Type → Type} [Monad m] (fs : FileAccess m) : List String → m Nat
  | [] => do
    fs.printError "usage: dump_swift_ast <file.swift>\n"
    return 1
  | path :: _ => do
    match ← fs.read path with
    | .error cause =>
      fs.printError s!"{path}: {cause}\n"
      return 1
    | .ok source =>
      match parse source with
      | .ok tree =>
        fs.print (render tree)
        return 0
      | .error e =>
        let cause := e.display
        fs.printError s!"{path}: {cause}\n"
        return 1

end Dump

end SwiftTidy
