import SyntaxTree.Diagram.Basic
import SyntaxTree.Program.Basic

/-!
# The diagram of a program

Every construct has a `toDiagram`. The statements of a block form a chain that
leans to the right: each statement holds what follows it in the block as its
last child. Declarators, dimensions and list elements lean to the right in the
same way.

An absent part takes no slot, so the diagram does not tell which of several
optional parts of the same look was absent. The labels are the format of the
tree file and are kept to the letter.
-/

namespace SyntaxTree

open Diagram (leaf branch ofSlots)

def DataType.toDiagram (type : DataType) : Diagram := leaf "datatype" type.keyword

namespace Modifier

def toDiagram (m : Modifier) : Diagram :=
  ofSlots "modifier" [some (leaf "access modifier" m.access.keyword),
    m.qualifier.map fun q => leaf "access modifier" q.keyword]

end Modifier

namespace Parameter

def toDiagram (p : Parameter) : Diagram :=
  ofSlots "parameter"
    [some (leaf "datatype" (if p.isArray then p.type.keyword ++ "[]" else p.type.keyword)),
      some (leaf "id" p.name)]

end Parameter

/-- An increment or decrement around the diagram of its operand. -/
def IncDecOp.diagram (op : IncDecOp) (fixity : Fixity) (operand : Diagram) : Diagram :=
  match fixity with
  | .before => ofSlots "UNARY OPERATION" [some (leaf op.label op.symbol), some operand]
  | .after => ofSlots "UNARY OPERATION" [some operand, some (leaf op.label op.symbol)]

mutual

def Expr.toDiagram : Expr → Diagram
  | .number text => leaf "num" text
  | .ident name => leaf "id" name
  | .str text => leaf "string" text
  | .binary op lhs rhs => ofSlots op.symbol [some lhs.toDiagram, some rhs.toDiagram]
  | .index base index => ofSlots "bracket" [some base.toDiagram, some index.toDiagram]
  | .new type dims => ofSlots "new" [some type.toDiagram, Dims.toDiagram? dims]
  | .incDec op fixity operand => op.diagram fixity operand.toDiagram

/-- Nested brackets, outermost first. Only an innermost dimension without a size
is shown as an empty bracket. -/
def Dims.toDiagram? : List (Option Expr) → Option Diagram
  | [] => none
  | none :: rest =>
    match Dims.toDiagram? rest with
    | none => some (leaf "bracket" "[]")
    | some inner => some (ofSlots "bracket" [none, some inner])
  | some size :: rest => some (ofSlots "bracket" [some size.toDiagram, Dims.toDiagram? rest])

end

def IncDec.toDiagram (step : IncDec) : Diagram :=
  step.op.diagram step.fixity step.operand.toDiagram

namespace Declarator

/-- A declarator behind the first one. -/
def toDiagram (d : Declarator) : Diagram :=
  match d.init with
  | some value => ofSlots "=" [some (leaf "id" d.name), some value.toDiagram]
  | none => leaf "id" d.name

def continued : List Declarator → Option Diagram
  | [] => none
  | d :: rest => some (ofSlots "declaration continued" [some d.toDiagram, continued rest])

end Declarator

namespace VarDecl

def toDiagram (decl : VarDecl) : Diagram :=
  let type := some decl.type.toDiagram
  match decl.declarators with
  | [] => ofSlots "variable declaration" [type]
  | ⟨name, some value⟩ :: rest =>
    ofSlots "variable initialisation"
      [type, some (leaf "id" name), some value.toDiagram, Declarator.continued rest]
  | ⟨name, none⟩ :: rest =>
    ofSlots "variable declaration" [type, some (leaf "id" name), Declarator.continued rest]

end VarDecl

namespace ArrayDecl

def toDiagram (decl : ArrayDecl) : Diagram :=
  ofSlots "array declaration"
    [some decl.type.toDiagram, some (leaf "id" decl.name), Dims.toDiagram? decl.dims]

end ArrayDecl

namespace ArrayInitializer

/-- The elements of a list, joined by commas. -/
def elements (first : Expr) : List Expr → Diagram
  | [] => first.toDiagram
  | next :: rest => ofSlots "," [some first.toDiagram, some (elements next rest)]

def toDiagram : ArrayInitializer → Diagram
  | .list first rest => elements first rest
  | .new type dims => (Expr.new type dims).toDiagram

end ArrayInitializer

namespace ArrayInit

def toDiagram (init : ArrayInit) : Diagram :=
  ofSlots "=" [some init.decl.toDiagram, some init.init.toDiagram]

end ArrayInit

namespace Assignment

def toDiagram (a : Assignment) : Diagram :=
  ofSlots a.op.symbol [some a.target.toDiagram, some a.value.toDiagram]

end Assignment

namespace Declaration

def toDiagram : Declaration → Diagram
  | .variable decl => ofSlots "VARIABLE DECLARATION" [some decl.toDiagram]
  | .array decl => ofSlots "ARRAY DECLARATION STATEMENT" [some decl.toDiagram]

end Declaration

namespace Initialization

def toDiagram : Initialization → Diagram
  | .assign a => ofSlots "ASSIGNMENT STATEMENT" [some a.toDiagram]
  | .array init => ofSlots "ARRAY INITIALISATION STATEMENT" [some init.toDiagram]

end Initialization

namespace ForInit

def toDiagram : ForInit → Diagram
  | .declaration decl => decl.toDiagram
  | .assignment a => a.toDiagram

end ForInit

namespace ForUpdate

def toDiagram : ForUpdate → Diagram
  | .incDec step => step.toDiagram
  | .assignment a => a.toDiagram

end ForUpdate

namespace ForClauses

def toDiagram (clauses : ForClauses) : Diagram :=
  ofSlots "FOR CONDITION" [clauses.init.map ForInit.toDiagram,
    clauses.condition.map Expr.toDiagram, clauses.update.map ForUpdate.toDiagram]

end ForClauses

mutual

/-- A statement, with the diagram of what follows it in its block. -/
def Stmt.toDiagram (following : Option Diagram) : Stmt → Diagram
  | .declaration decl => ofSlots "DECLARATION" [some decl.toDiagram, following]
  | .initialization init => ofSlots "INITIALIZATION" [some init.toDiagram, following]
  | .ifThen condition body =>
    ofSlots "IF STATEMENT" [some condition.toDiagram, Block.toDiagram? body, following]
  | .ifElse condition body alternative =>
    ofSlots "IF ELSE STATEMNET"
      [some (ofSlots "IF STATEMENT" [some condition.toDiagram, Block.toDiagram? body]),
        some (ofSlots "ELSE STATEMENT" [Block.toDiagram? alternative]), following]
  | .forLoop clauses body =>
    ofSlots "FOR LOOP" [some clauses.toDiagram, Block.toDiagram? body, following]
  | .step step => ofSlots "STATEMENT" [some step.toDiagram, following]

/-- The chain of a block; an empty block has none. -/
def Block.toDiagram? : List Stmt → Option Diagram
  | [] => none
  | stmt :: rest => some (Stmt.toDiagram (Block.toDiagram? rest) stmt)

end

namespace MethodDecl

def toDiagram (method : MethodDecl) : Diagram :=
  ofSlots "METHOD DECLARATION" [some method.modifier.toDiagram, some method.returnType.toDiagram,
    some method.parameter.toDiagram, Block.toDiagram? method.body]

end MethodDecl

namespace ClassDecl

def toDiagram (decl : ClassDecl) : Diagram :=
  ofSlots "CLASS DECLARATION" [decl.modifier.map Modifier.toDiagram,
    some (leaf "classname" decl.name), some decl.method.toDiagram]

end ClassDecl

def Program.toDiagram (program : Program) : Diagram := program.root.toDiagram

end SyntaxTree
