import SwiftTidy.Cli.Dump
import SwiftTidy.Cli.Session
import SwiftTidy.Files.Tree

/-!
# Command line

The files of the machine as a `FileAccess`, and the entry point.  The word `dump_swift_ast` in front
of the arguments prints the tree of a file instead.
-/

namespace SwiftTidy

namespace Machine

/-- Whether a path leads to a directory. -/
def isDirectory (path : String) : IO Bool := do
  try
    let place ← IO.FS.realPath path
    place.isDir
  catch _ => return false

/-- Whether a path leads to a file. -/
def isFile (path : String) : IO Bool := do
  try
    let place ← IO.FS.realPath path
    return (← place.pathExists) && !(← place.isDir)
  catch _ => return false

/-- What the system says about a path that cannot be read or written. -/
def explain (path : String) (e : IO.Error) : IO String := do
  match e with
  | .noFileOrDirectory .. => return FileError.missing.message
  | .inappropriateType .. =>
    return if ← isDirectory path then FileError.isDirectory.message
      else FileError.notDirectory.message
  | e => return toString e

/-- The files below a directory. -/
partial def filesBelow (path : String) : IO (List String) := do
  try
    let place ← IO.FS.realPath path
    let mut found : List String := []
    for entry in ← place.readDir do
      let inner := Path.join path entry.fileName
      if ← isDirectory inner then found := found ++ (← filesBelow inner)
      else found := found ++ [inner]
    return found
  catch _ => return []

/-- Reads a file. -/
def read (path : String) : IO (Except String String) := do
  try
    if ← isDirectory path then return .error FileError.isDirectory.message
    else return .ok (← IO.FS.readFile path)
  catch e => return .error (← explain path e)

/-- Writes a file. -/
def write (path text : String) : IO (Except String Unit) := do
  try
    IO.FS.writeFile path text
    return .ok ()
  catch e => return .error (← explain path e)

/-- The files and the terminal of the machine. -/
def access : FileAccess IO where
  currentDirectory := do return (← IO.currentDir).toString
  isFile := isFile
  filesBelow := filesBelow
  read := read
  write := write
  print := IO.print
  printError := IO.eprint

end Machine

end SwiftTidy

open SwiftTidy in
/-- Runs with the arguments of the command line. -/
def main (args : List String) : IO UInt32 := do
  let code ←
    match args with
    | "dump_swift_ast" :: rest => Dump.execute Machine.access rest
    | args => Session.execute Machine.access args
  return code.toUInt32
