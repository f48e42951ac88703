import SyntaxTree.Program.Basic
import SyntaxTree.Proofs.Lexeme.Basic

/-!
# Well-formed programs

The types of the tree allow more than the language. A well-formed program is one
that can be written: its names, numbers and string literals are lexemes of their
kind, only the method may return nothing, a place is where a place has to be, and
no list is empty that has to have an item.
-/

namespace SyntaxTree

open Lexeme

namespace Expr

/-- A name with any number of indices. -/
def isPlace : Expr → Bool
  | ident _ => true
  | index base _ => base.isPlace
  | _ => false

/-- The size of a dimension is a number or a name, if it is there. -/
def isSize : Option Expr → Bool
  | none => true
  | some (number text) => number? text.toList == some text.toList
  | some (ident name) => isName name.toList
  | some _ => false

end Expr

def Dims.isWellFormed (dims : Dims) : Bool := !dims.isEmpty && dims.all Expr.isSize

def DataType.isWellFormed (type : DataType) : Bool := type != .void

def Expr.isWellFormed : Expr → Bool
  | number text => number? text.toList == some text.toList
  | ident name => isName name.toList
  | str text => string? text.toList == some text.toList
  | binary _ lhs rhs => lhs.isWellFormed && rhs.isWellFormed
  | index base inside => base.isPlace && base.isWellFormed && inside.isWellFormed
  | new type dims => type.isWellFormed && Dims.isWellFormed dims
  | incDec _ _ operand => operand.isPlace && operand.isWellFormed

def IncDec.isWellFormed (step : IncDec) : Bool := step.toExpr.isWellFormed

def Declarator.isWellFormed (d : Declarator) : Bool :=
  isName d.name.toList && d.init.all Expr.isWellFormed

def VarDecl.isWellFormed (decl : VarDecl) : Bool :=
  decl.type.isWellFormed && !decl.declarators.isEmpty &&
    decl.declarators.all Declarator.isWellFormed

def ArrayDecl.isWellFormed (decl : ArrayDecl) : Bool :=
  decl.type.isWellFormed && isName decl.name.toList && decl.dims.isWellFormed

def ArrayInitializer.isWellFormed : ArrayInitializer → Bool
  | list first rest => first.isWellFormed && rest.all Expr.isWellFormed
  | new type dims => (Expr.new type dims).isWellFormed

def ArrayInit.isWellFormed (init : ArrayInit) : Bool :=
  init.decl.isWellFormed && init.init.isWellFormed

def Assignment.isWellFormed (a : Assignment) : Bool :=
  a.target.isPlace && a.target.isWellFormed && a.value.isWellFormed

def ForInit.isWellFormed : ForInit → Bool
  | declaration decl => decl.isWellFormed
  | assignment a => a.isWellFormed

def ForUpdate.isWellFormed : ForUpdate → Bool
  | incDec step => step.isWellFormed
  | assignment a => a.isWellFormed

def ForClauses.isWellFormed (clauses : ForClauses) : Bool :=
  clauses.init.all ForInit.isWellFormed && clauses.condition.all Expr.isWellFormed &&
    clauses.update.all ForUpdate.isWellFormed

def Declaration.isWellFormed : Declaration → Bool
  | .variable decl => decl.isWellFormed
  | array decl => decl.isWellFormed

def Initialization.isWellFormed : Initialization → Bool
  | assign a => a.isWellFormed
  | array init => init.isWellFormed

mutual

def Stmt.isWellFormed : Stmt → Bool
  | .declaration decl => decl.isWellFormed
  | .initialization init => init.isWellFormed
  | .ifThen condition body => condition.isWellFormed && Block.isWellFormed body
  | .ifElse condition body alternative =>
    condition.isWellFormed && Block.isWellFormed body && Block.isWellFormed alternative
  | .forLoop clauses body => clauses.isWellFormed && Block.isWellFormed body
  | .step step => step.isWellFormed

def Block.isWellFormed : List Stmt → Bool
  | [] => true
  | stmt :: rest => stmt.isWellFormed && Block.isWellFormed rest

end

def Parameter.isWellFormed (p : Parameter) : Bool :=
  p.type.isWellFormed && isName p.name.toList

def MethodDecl.isWellFormed (method : MethodDecl) : Bool :=
  method.parameter.isWellFormed && Block.isWellFormed method.body

def ClassDecl.isWellFormed (decl : ClassDecl) : Bool :=
  isName decl.name.toList && decl.method.isWellFormed

def Program.isWellFormed (program : Program) : Bool := program.root.isWellFormed

end SyntaxTree
