import Cdcl.CommandLine
/-!
# Main — the program

Opens the file, prints the lines and ends with the code.
-/
namespace Cdcl

/-- What an open file holds, if it can be read. -/
def readSource (handle : IO.FS.Handle) : IO CommandLine.Source := do
  try
    let bytes ← handle.readBinToEnd
    pure (.file bytes)
  catch _ => pure .folder

/-- What a path leads to on this machine. -/
def lookAt (path : String) : IO CommandLine.Source := do
  try
    let handle ← IO.FS.Handle.mk path .read
    readSource handle
  catch _ => pure .missing

/-- Fuel for as long as anyone waits. -/
def programFuel : Nat := 1000000000000000000

end Cdcl

open Cdcl in
def main (words : List String) : IO UInt32 := do
  let source ← match CommandLine.read words with
    | .request { path := some path, .. } => lookAt path
    | _ => pure .missing
  let output := CommandLine.run programFuel (fun _ => source) words
  output.lines.forM IO.println
  return output.code.toUInt32
