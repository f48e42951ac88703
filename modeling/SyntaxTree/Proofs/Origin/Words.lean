import SyntaxTree.Program.Basic

/-!
# The words of a program

The names, numbers and string literals that a construct holds, as they are kept in its
tree. Types, modifiers and operators are kept by their kind, so they are no words.
-/

namespace SyntaxTree

mutual

def Expr.words : Expr → List String
  | .number text => [text]
  | .ident name => [name]
  | .str text => [text]
  | .binary _ lhs rhs => lhs.words ++ rhs.words
  | .index base inside => base.words ++ inside.words
  | .new _ dims => Dims.words dims
  | .incDec _ _ operand => operand.words

def Dims.words : List (Option Expr) → List String
  | [] => []
  | none :: rest => Dims.words rest
  | some size :: rest => size.words ++ Dims.words rest

end

/-- The words of a part that may be absent. -/
def optionWords {α : Type} (words : α → List String) (part : Option α) : List String :=
  part.elim [] words

def IncDec.words (step : IncDec) : List String := step.operand.words

def Declarator.words (d : Declarator) : List String := d.name :: optionWords Expr.words d.init

def VarDecl.words (decl : VarDecl) : List String := decl.declarators.flatMap Declarator.words

def ArrayDecl.words (decl : ArrayDecl) : List String := decl.name :: Dims.words decl.dims

def ArrayInitializer.words : ArrayInitializer → List String
  | list first rest => first.words ++ rest.flatMap Expr.words
  | new _ dims => Dims.words dims

def ArrayInit.words (init : ArrayInit) : List String := init.decl.words ++ init.init.words

def Assignment.words (a : Assignment) : List String := a.target.words ++ a.value.words

def ForInit.words : ForInit → List String
  | declaration decl => decl.words
  | assignment a => a.words

def ForUpdate.words : ForUpdate → List String
  | incDec step => step.words
  | assignment a => a.words

def ForClauses.words (clauses : ForClauses) : List String :=
  optionWords ForInit.words clauses.init ++ optionWords Expr.words clauses.condition ++
    optionWords ForUpdate.words clauses.update

def Declaration.words : Declaration → List String
  | .variable decl => decl.words
  | array decl => decl.words

def Initialization.words : Initialization → List String
  | assign a => a.words
  | array init => init.words

mutual

def Stmt.words : Stmt → List String
  | .declaration decl => decl.words
  | .initialization init => init.words
  | .ifThen condition body => condition.words ++ Block.words body
  | .ifElse condition body alternative =>
    condition.words ++ Block.words body ++ Block.words alternative
  | .forLoop clauses body => clauses.words ++ Block.words body
  | .step step => step.words

def Block.words : List Stmt → List String
  | [] => []
  | stmt :: rest => stmt.words ++ Block.words rest

end

def Parameter.words (p : Parameter) : List String := [p.name]

def MethodDecl.words (method : MethodDecl) : List String :=
  method.parameter.words ++ Block.words method.body

def ClassDecl.words (decl : ClassDecl) : List String := decl.name :: decl.method.words

def Program.words (program : Program) : List String := program.root.words

end SyntaxTree
