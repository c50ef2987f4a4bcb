/-!
# CommandLine.Folder — what a path leads to

A path leads to a file, to a folder, or nowhere.  Here is the plain case of a working folder that holds one file, seen
through relative paths: a step to the folder itself or to the one above is a folder, the file is found by its name, and
nothing lies below a file.
-/
namespace Cdcl
namespace CommandLine

/-- What opening a path gives.  A folder can be opened, but not read. -/
inductive Source
  | missing
  | folder
  | file (bytes : ByteArray)

def pathParts (path : String) : List String := path.splitOn "/"

/-- The name of the last part that names something, unless it is the folder above. -/
def fileName? (path : String) : Option String :=
  match ((pathParts path).filter fun part => part != "" && part != ".").getLast? with
  | some ".." => none
  | last => last

/-- What follows the last point of a file's name, if the point is not at its beginning. -/
def extension? (path : String) : Option String := do
  let name ← fileName? path
  let pieces := name.splitOn "."
  if pieces.length < 2 || pieces.dropLast == [""] then none else pieces.getLast?

structure Folder where
  name : String
  bytes : ByteArray

namespace Folder

/-- Follows the parts of a path.  The place is so many folders above, or at the file. -/
def follow (f : Folder) : List String → Option Nat → Source
  | [], none => .file f.bytes
  | [], some _ => .folder
  | _ :: _, none => .missing
  | part :: rest, some above =>
    if part == "" || part == "." then follow f rest (some above)
    else if part == ".." then follow f rest (some (above + 1))
    else if above == 0 && part == f.name then follow f rest none
    else .missing

/-- What a path leads to from the folder.  Of absolute paths only the root is known. -/
def look (f : Folder) (path : String) : Source :=
  if path.isEmpty then .missing
  else if path.startsWith "/" then
    if (pathParts path).all fun part => part == "" || part == "." || part == ".." then .folder else .missing
  else follow f (pathParts path) (some 0)

end Folder

end CommandLine
end Cdcl
