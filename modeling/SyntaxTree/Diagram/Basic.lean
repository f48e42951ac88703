/-!
# Diagrams

A diagram is the tree that is drawn for a program. A leaf carries a piece of the
source as its value, a branch only its label and the diagrams below it.
-/

namespace SyntaxTree

inductive Diagram where
  | leaf (label value : String)
  | branch (label : String) (children : List Diagram)

namespace Diagram

/-- The number of slots that a branch is built from. -/
def slotCount : Nat := 4

/-- A branch over its occupied slots, in their order. Slots beyond the fourth do
not count. -/
def ofSlots (label : String) (slots : List (Option Diagram)) : Diagram :=
  branch label ((slots.take slotCount).filterMap id)

def label : Diagram → String
  | leaf label _ => label
  | branch label _ => label

def value? : Diagram → Option String
  | leaf _ value => some value
  | branch _ _ => none

def children : Diagram → List Diagram
  | leaf _ _ => []
  | branch _ children => children

def isLeaf (d : Diagram) : Bool := d.value?.isSome

/-- The child at an index among the occupied slots. -/
def child? (d : Diagram) (index : Nat) : Option Diagram := d.children[index]?

mutual

/-- The leaves with their labels and values, from left to right. -/
def leaves : Diagram → List (String × String)
  | leaf label value => [(label, value)]
  | branch _ children => leavesAll children

def leavesAll : List Diagram → List (String × String)
  | [] => []
  | d :: rest => leaves d ++ leavesAll rest

end

mutual

/-- The first diagram with a label, looking at a branch before what is below it
and from left to right. -/
def find? (wanted : String) : Diagram → Option Diagram
  | leaf label value => if label = wanted then some (leaf label value) else none
  | branch label children =>
    if label = wanted then some (branch label children) else findAmong? wanted children

def findAmong? (wanted : String) : List Diagram → Option Diagram
  | [] => none
  | d :: rest =>
    match find? wanted d with
    | some found => some found
    | none => findAmong? wanted rest

end

theorem leavesAll_eq_flatMap (ds : List Diagram) : leavesAll ds = ds.flatMap leaves := by
  induction ds with
  | nil => simp [leavesAll]
  | cons d rest ih => simp [leavesAll, ih]

end Diagram

end SyntaxTree
