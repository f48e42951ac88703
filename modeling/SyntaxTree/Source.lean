import SyntaxTree.Fault.Basic
import SyntaxTree.Grammar.Match
import SyntaxTree.Program.Reading.Class

/-!
# Parsing a source

The whole way from a text to a program: match the grammar, then read the program
from the phrase. A source that is rejected counts as one error on the tally and
opens no block.
-/

namespace SyntaxTree

/-- A text with the name that faults use for it. -/
structure Source where
  name : String
  text : String
  deriving DecidableEq, Repr

namespace Source

/-- Parse a source and follow the parse on a tally. -/
def parse (source : Source) (tally : Tally) : Except Fault Program × Tally :=
  match Rule.program.phrases source.text.toList with
  | .error frontier =>
    (.error (.rejected source.name (.ofFrontier source.text.toList frontier)), tally.recordError)
  | .ok [] => (.error (.malformed source.name ⟨.noPhrase, 0, 0⟩), tally.recordError)
  | .ok (phrase :: _) =>
    match (Program.ofPhrase phrase).run.run tally with
    | (.ok program, after) => (.ok program, after)
    | (.error error, after) => (.error (.malformed source.name error), after)

end Source

end SyntaxTree
