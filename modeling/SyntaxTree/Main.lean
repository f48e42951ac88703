import SyntaxTree.Command.Run

/-!
# The command

The outer layer: the files of the machine, and printing what a run ends in.
-/

namespace SyntaxTree

/-- Run an action on a file and sort out why it fails. -/
def attempt {α : Type} (action : IO α) : IO (Except FileError α) := do
  try
    return .ok (← action)
  catch
    | .noFileOrDirectory .. => return .error .notFound
    | .resourceExhausted .. => return .error .storageFull
    | .inappropriateType .. => return .error .isADirectory
    | .invalidArgument .. => return .error .invalidFilename
    | _ => return .error .other

/-- The files of the machine. -/
def machineFiles : Files IO where
  create path := attempt do
    let _ ← IO.FS.Handle.mk path .write
  readText path := do
    match ← attempt (IO.FS.readBinFile path) with
    | .error reason => return .error reason
    | .ok content =>
      match String.fromUTF8? content with
      | some text => return .ok text
      | none => return .error .invalidData
  fill path text := attempt (IO.FS.writeFile path text)

end SyntaxTree

def main (arguments : List String) : IO UInt32 := do
  let ending ← SyntaxTree.run SyntaxTree.machineFiles arguments
  IO.print ending.printed
  for line in ending.complaints do
    IO.eprintln line
  return ending.status
