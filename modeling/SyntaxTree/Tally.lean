/-!
# Tallies

A tally follows the reading of programs: how many blocks are open, how many were
open at most, and how many sources were rejected. One tally may serve any number
of sources.
-/

namespace SyntaxTree

structure Tally where
  depth : Nat
  deepest : Nat
  errors : Nat
  deriving DecidableEq, Repr

namespace Tally

def fresh : Tally := ⟨0, 0, 0⟩

/-- A block opens. -/
def enter (t : Tally) : Tally :=
  { t with depth := t.depth + 1, deepest := max t.deepest (t.depth + 1) }

/-- A block closes. Outside of every block this changes nothing. -/
def leave (t : Tally) : Tally :=
  { t with depth := t.depth - 1 }

def recordError (t : Tally) : Tally :=
  { t with errors := t.errors + 1 }

end Tally

end SyntaxTree
