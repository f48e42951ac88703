import Mathlib.Algebra.Ring.Nat
import SyntaxTree.Program.Basic

/-!
# The parts of a program in their order

What a program holds, read field by field: modifiers, types, names, literals and
steps, each with the label that says what it is. A construct gives the parts of its
fields one after the other, whatever its diagram looks like. Operators of
expressions and assignments are no parts, since they only say how parts are joined.

Beside it stands the number of nodes that a construct takes up in a diagram: its
own and those of its fields. Where a list hangs from a chain of nodes, each link of
the chain counts.

Both are defined for all trees, also for those that no source has.
-/

namespace SyntaxTree

/-- A part with its label. -/
abbrev Part := String × String

/-- The parts of a field that may be absent. -/
def optionParts {α : Type} (parts : α → List Part) (field : Option α) : List Part :=
  field.elim [] parts

def DataType.part (type : DataType) : Part := ("datatype", type.keyword)

def IncDecOp.part (op : IncDecOp) : Part := (op.label, op.symbol)

/-- An operator and its operand in the order of writing. -/
def IncDecOp.parts (op : IncDecOp) (fixity : Fixity) (operand : List Part) : List Part :=
  match fixity with
  | .before => op.part :: operand
  | .after => operand ++ [op.part]

/-- The empty bracket of a last dimension without a size. -/
def Dims.openEnd (dims : Dims) : List Part :=
  match dims.getLast? with
  | some none => [("bracket", "[]")]
  | _ => []

mutual

def Expr.parts : Expr → List Part
  | .number text => [("num", text)]
  | .ident name => [("id", name)]
  | .str text => [("string", text)]
  | .binary _ lhs rhs => lhs.parts ++ rhs.parts
  | .index base inside => base.parts ++ inside.parts
  | .new type dims => type.part :: Dims.sizes dims ++ Dims.openEnd dims
  | .incDec op fixity operand => op.parts fixity operand.parts

/-- The parts of the sizes that are present. -/
def Dims.sizes : List (Option Expr) → List Part
  | [] => []
  | none :: rest => Dims.sizes rest
  | some size :: rest => size.parts ++ Dims.sizes rest

end

def Dims.parts (dims : Dims) : List Part := sizes dims ++ openEnd dims

def IncDec.parts (step : IncDec) : List Part := step.op.parts step.fixity step.operand.parts

def Declarator.parts (d : Declarator) : List Part := ("id", d.name) :: optionParts Expr.parts d.init

def VarDecl.parts (decl : VarDecl) : List Part :=
  decl.type.part :: decl.declarators.flatMap Declarator.parts

def ArrayDecl.parts (decl : ArrayDecl) : List Part :=
  decl.type.part :: ("id", decl.name) :: Dims.parts decl.dims

def ArrayInitializer.parts : ArrayInitializer → List Part
  | list first rest => (first :: rest).flatMap Expr.parts
  | new type dims => type.part :: Dims.parts dims

def ArrayInit.parts (init : ArrayInit) : List Part := init.decl.parts ++ init.init.parts

def Assignment.parts (a : Assignment) : List Part := a.target.parts ++ a.value.parts

def Declaration.parts : Declaration → List Part
  | .variable decl => decl.parts
  | array decl => decl.parts

def Initialization.parts : Initialization → List Part
  | assign a => a.parts
  | array init => init.parts

def ForInit.parts : ForInit → List Part
  | declaration decl => decl.parts
  | assignment a => a.parts

def ForUpdate.parts : ForUpdate → List Part
  | incDec step => step.parts
  | assignment a => a.parts

def ForClauses.parts (clauses : ForClauses) : List Part :=
  optionParts ForInit.parts clauses.init ++ optionParts Expr.parts clauses.condition ++
    optionParts ForUpdate.parts clauses.update

mutual

def Stmt.parts : Stmt → List Part
  | .declaration decl => decl.parts
  | .initialization init => init.parts
  | .ifThen condition body => condition.parts ++ Block.parts body
  | .ifElse condition body alternative =>
    condition.parts ++ Block.parts body ++ Block.parts alternative
  | .forLoop clauses body => clauses.parts ++ Block.parts body
  | .step step => step.parts

def Block.parts : List Stmt → List Part
  | [] => []
  | stmt :: rest => stmt.parts ++ Block.parts rest

end

def Modifier.parts (m : Modifier) : List Part :=
  ("access modifier", m.access.keyword) ::
    optionParts (fun q => [("access modifier", q.keyword)]) m.qualifier

/-- The brackets of an array parameter belong to its type. -/
def Parameter.parts (p : Parameter) : List Part :=
  [("datatype", if p.isArray then p.type.keyword ++ "[]" else p.type.keyword), ("id", p.name)]

def MethodDecl.parts (method : MethodDecl) : List Part :=
  method.modifier.parts ++ method.returnType.part :: method.parameter.parts ++
    Block.parts method.body

def ClassDecl.parts (decl : ClassDecl) : List Part :=
  optionParts Modifier.parts decl.modifier ++ ("classname", decl.name) :: decl.method.parts

/-! ## Numbers of nodes -/

/-- The nodes of a field that may be absent. -/
def optionNodes {α : Type} (nodes : α → Nat) (field : Option α) : Nat := field.elim 0 nodes

mutual

def Expr.nodes : Expr → Nat
  | .number _ | .ident _ | .str _ => 1
  | .binary _ lhs rhs => 1 + lhs.nodes + rhs.nodes
  | .index base inside => 1 + base.nodes + inside.nodes
  | .new _ dims => 2 + Dims.nodes dims
  | .incDec _ _ operand => 2 + operand.nodes

/-- Each dimension is a node, with or without a size. -/
def Dims.nodes : List (Option Expr) → Nat
  | [] => 0
  | none :: rest => 1 + Dims.nodes rest
  | some size :: rest => 1 + size.nodes + Dims.nodes rest

end

/-- A declarator with a value has one more node, which joins the two. -/
def Declarator.nodes (d : Declarator) : Nat := 1 + optionNodes (fun e => 1 + e.nodes) d.init

def VarDecl.nodes (decl : VarDecl) : Nat :=
  match decl.declarators with
  | [] => 2
  | first :: rest =>
    3 + optionNodes Expr.nodes first.init + (rest.map fun d => 1 + d.nodes).sum

def ArrayDecl.nodes (decl : ArrayDecl) : Nat := 3 + Dims.nodes decl.dims

/-- Between two elements stands a comma. -/
def ArrayInitializer.nodes : ArrayInitializer → Nat
  | list first rest => first.nodes + (rest.map fun e => 1 + e.nodes).sum
  | new _ dims => 2 + Dims.nodes dims

def ArrayInit.nodes (init : ArrayInit) : Nat := 1 + init.decl.nodes + init.init.nodes

def Assignment.nodes (a : Assignment) : Nat := 1 + a.target.nodes + a.value.nodes

def Declaration.nodes : Declaration → Nat
  | .variable decl => 1 + decl.nodes
  | array decl => 1 + decl.nodes

def Initialization.nodes : Initialization → Nat
  | assign a => 1 + a.nodes
  | array init => 1 + init.nodes

def IncDec.nodes (step : IncDec) : Nat := 2 + step.operand.nodes

def ForInit.nodes : ForInit → Nat
  | declaration decl => decl.nodes
  | assignment a => a.nodes

def ForUpdate.nodes : ForUpdate → Nat
  | incDec step => step.nodes
  | assignment a => a.nodes

def ForClauses.nodes (clauses : ForClauses) : Nat :=
  1 + optionNodes ForInit.nodes clauses.init + optionNodes Expr.nodes clauses.condition +
    optionNodes ForUpdate.nodes clauses.update

mutual

/-- The two branches of a conditional have a node each. -/
def Stmt.nodes : Stmt → Nat
  | .declaration decl => 1 + decl.nodes
  | .initialization init => 1 + init.nodes
  | .ifThen condition body => 1 + condition.nodes + Block.nodes body
  | .ifElse condition body alternative =>
    3 + condition.nodes + Block.nodes body + Block.nodes alternative
  | .forLoop clauses body => 1 + clauses.nodes + Block.nodes body
  | .step step => 1 + step.nodes

def Block.nodes : List Stmt → Nat
  | [] => 0
  | stmt :: rest => stmt.nodes + Block.nodes rest

end

def Modifier.nodes (m : Modifier) : Nat := 2 + optionNodes (fun _ => 1) m.qualifier

def MethodDecl.nodes (method : MethodDecl) : Nat :=
  -- Its own node, the return type, and the parameter with its type and its name.
  5 + method.modifier.nodes + Block.nodes method.body

def ClassDecl.nodes (decl : ClassDecl) : Nat :=
  2 + optionNodes Modifier.nodes decl.modifier + decl.method.nodes

end SyntaxTree
