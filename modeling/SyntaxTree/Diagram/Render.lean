import SyntaxTree.Diagram.Basic

/-!
# Drawing a diagram

Each node takes one row: the columns of the nodes around it, a glyph, and the
node itself. A column stays open, drawn as a bar, exactly while a later sibling
is still to come. The root is drawn as a last child with nothing around it.
-/

namespace SyntaxTree.Diagram

/-- What stands in front of a node: an end for a last child, else a fork. -/
def glyph (last : Bool) : String := if last then "└──" else "├──"

/-- What a node leaves in the rows below it: blank behind a last child, else a bar. -/
def column (last : Bool) : String := if last then "    " else "│   "

/-- A leaf is shown with its value, a branch by its bare label. -/
def caption : Diagram → String
  | leaf label value => "(" ++ label ++ ", " ++ value ++ ")"
  | branch label _ => label

mutual

/-- The rows of a diagram behind the columns of the nodes around it. -/
def rows (columns : String) (last : Bool) : Diagram → String
  | leaf label value =>
    columns ++ glyph last ++ caption (leaf label value) ++ "\n"
  | branch label children =>
    columns ++ glyph last ++ caption (branch label children) ++ "\n" ++
      rowsAll (columns ++ column last) children

def rowsAll (columns : String) : List Diagram → String
  | [] => ""
  | d :: rest => rows columns rest.isEmpty d ++ rowsAll columns rest

end

def render (d : Diagram) : String := rows "" true d

/-- The text of a tree file: a header, the drawing, and a blank line. -/
def document (d : Diagram) : String :=
  "Abstract Syntax Tree\n" ++ d.render ++ "\n"

end SyntaxTree.Diagram
