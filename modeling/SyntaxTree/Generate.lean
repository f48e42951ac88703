import SyntaxTree.Diagram.Render
import SyntaxTree.FileSystem.Basic
import SyntaxTree.Program.Diagram
import SyntaxTree.Source

/-!
# From a source file to a tree file

The output is made empty before the input is read, and it receives a text only
after the whole input was parsed. So an output that could be made holds either
nothing or a whole document, and a file that is its own output is read as empty.
-/

namespace SyntaxTree

variable {m : Type → Type} [Monad m]

/-- Parse the file at `input` and write its diagram to `output`. -/
def generate (files : Files m) (input output : String) (tally : Tally) :
    m (Except Fault Unit × Tally) := do
  match ← files.create output with
  | .error reason => return (.error (.unwritable output reason), tally)
  | .ok () =>
    match ← files.readText input with
    | .error reason => return (.error (.unreadable input reason), tally)
    | .ok text =>
      match Source.parse ⟨input, text⟩ tally with
      | (.error fault, after) => return (.error fault, after)
      | (.ok program, after) =>
        match ← files.fill output program.toDiagram.document with
        | .error reason => return (.error (.unwritable output reason), after)
        | .ok () => return (.ok (), after)

end SyntaxTree
