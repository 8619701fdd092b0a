import Tunebook.Command

/-! The program `abc`: reads the files that its arguments name and prints what the command answers.
-/
namespace Tunebook.Command

/-- Codes may come as negative numbers of 32 bits. -/
def codeOf (code : UInt32) : Nat :=
  if code < 0x80000000 then code.toNat else (-code).toNat

def readErrorOf : IO.Error → ReadError
  | .noFileOrDirectory _ code description => .ofCode description (codeOf code)
  | .inappropriateType _ code description => .ofCode description (codeOf code)
  | .permissionDenied _ code description => .ofCode description (codeOf code)
  | .invalidArgument _ code description => .ofCode description (codeOf code)
  | .otherError code description => .ofCode description (codeOf code)
  | e => .system (toString e) 0

def readFile (path : String) : IO (Except ReadError (List UInt8)) := do
  try
    let bytes ← IO.FS.readBinFile path
    return .ok bytes.toList
  catch e => return .error (readErrorOf e)

/-- The files at these paths, and no others. -/
def readFiles (paths : List String) : IO Files := do
  let contents ← paths.mapM fun path => return (path, ← readFile path)
  return fun path => (contents.lookup path).getD (.error .missing)

end Tunebook.Command

open Tunebook

def main (args : List String) : IO UInt32 := do
  let invocation := Command.Invocation.read args
  let files ← match invocation with
    | .ok i => Command.readFiles i.paths
    | .error _ => Command.readFiles []
  if let .ok i := invocation then
    for entry in Command.log files i do
      IO.eprintln s!"[{entry.level.label}] {entry.message}"
  let answer := Command.run files args
  IO.print answer.output
  IO.eprint answer.errors
  return answer.exitCode.toUInt32
