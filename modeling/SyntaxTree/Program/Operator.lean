/-!
# Operators

The three kinds of operators with their symbols. `ofSymbol?` reads a symbol back,
so within a kind no two operators share one.
-/

namespace SyntaxTree

/-- The binary operators of the expression ladder, loosest first. -/
inductive BinaryOp where
  | or | and
  | eq | ne
  | gt | lt | ge | le
  | add | sub
  | mul | div | mod
  deriving DecidableEq, Repr

/-- Plain and compound assignment. -/
inductive AssignOp where
  | assign
  | add | sub | mul | div | mod
  | and | xor | or
  deriving DecidableEq, Repr

/-- Stepping a place up or down by one. -/
inductive IncDecOp where
  | increment
  | decrement
  deriving DecidableEq, Repr

namespace BinaryOp

def symbol : BinaryOp → String
  | or => "||"
  | and => "&&"
  | eq => "=="
  | ne => "!="
  | gt => ">"
  | lt => "<"
  | ge => ">="
  | le => "<="
  | add => "+"
  | sub => "-"
  | mul => "*"
  | div => "/"
  | mod => "%"

def all : List BinaryOp :=
  [or, and, eq, ne, gt, lt, ge, le, add, sub, mul, div, mod]

def ofSymbol? (text : String) : Option BinaryOp :=
  all.find? fun op => op.symbol == text

theorem ofSymbol?_symbol (op : BinaryOp) : ofSymbol? op.symbol = some op := by
  cases op <;> decide

end BinaryOp

namespace AssignOp

def symbol : AssignOp → String
  | assign => "="
  | add => "+="
  | sub => "-="
  | mul => "*="
  | div => "/="
  | mod => "%="
  | and => "&="
  | xor => "^="
  | or => "|="

def all : List AssignOp :=
  [assign, add, sub, mul, div, mod, and, xor, or]

def ofSymbol? (text : String) : Option AssignOp :=
  all.find? fun op => op.symbol == text

theorem ofSymbol?_symbol (op : AssignOp) : ofSymbol? op.symbol = some op := by
  cases op <;> decide

end AssignOp

namespace IncDecOp

def symbol : IncDecOp → String
  | increment => "++"
  | decrement => "--"

def label : IncDecOp → String
  | increment => "increment"
  | decrement => "decrement"

def all : List IncDecOp := [increment, decrement]

def ofSymbol? (text : String) : Option IncDecOp :=
  all.find? fun op => op.symbol == text

theorem ofSymbol?_symbol (op : IncDecOp) : ofSymbol? op.symbol = some op := by
  cases op <;> decide

end IncDecOp

/-- What is said of a text that is no operator of the kind asked for. -/
def unknownOperator (text : String) : String := "unknown operator '" ++ text ++ "'"

end SyntaxTree
