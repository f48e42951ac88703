import SyntaxTree.Grammar.Rule

/-!
# The frontier of a match

While a match goes on, the frontier remembers the furthest offset at which a
named rule was entered and failed, and the rules that were expected there. It
survives the branches that a choice gives up, so at the end it says how far any
attempt came.

A rule that fails replaces what was recorded inside it at the same offset: the
rule itself is the better name for what was expected. It steps back only when
exactly one rule was recorded inside, which then is the more precise name.
-/

namespace SyntaxTree

structure Frontier where
  offset : Nat
  expected : List Rule
  deriving DecidableEq, Repr

namespace Frontier

/-- Nothing has failed yet. -/
def start : Frontier := ⟨0, []⟩

/-- How many rules are recorded at an offset. -/
def countAt (f : Frontier) (offset : Nat) : Nat :=
  if offset = f.offset then f.expected.length else 0

/-- A rule that was entered at an offset has failed. `known` rules were recorded
there when it was entered. -/
def record (f : Frontier) (rule : Rule) (offset known : Nat) : Frontier :=
  if f.countAt offset - known = 1 then f
  else if offset = f.offset then ⟨offset, f.expected.take known ++ [rule]⟩
  else if f.offset < offset then ⟨offset, [rule]⟩
  else f

end Frontier

end SyntaxTree
