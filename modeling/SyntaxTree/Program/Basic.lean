import SyntaxTree.Program.Operator

/-!
# Programs

The typed tree of a program: one class with one method, whose body is a block of
statements. Lexemes are kept as they stand in the source, so a number keeps its
digits and a string literal its quotes and escapes.

The types are wider than what can be written. Any expression may stand as an
assignment target or an array size, and lists of declarators or dimensions may
be empty; only trees that come from a source are narrower.
-/

namespace SyntaxTree

inductive Access where
  | publicAccess
  | privateAccess
  deriving DecidableEq, Repr

inductive Qualifier where
  | static
  | final
  deriving DecidableEq, Repr

inductive DataType where
  | int
  | char
  | double
  | string
  | void
  deriving DecidableEq, Repr

namespace Access

def keyword : Access → String
  | publicAccess => "public"
  | privateAccess => "private"

def ofKeyword? (text : String) : Option Access :=
  [publicAccess, privateAccess].find? fun access => access.keyword == text

end Access

namespace Qualifier

def keyword : Qualifier → String
  | static => "static"
  | final => "final"

def ofKeyword? (text : String) : Option Qualifier :=
  [static, final].find? fun qualifier => qualifier.keyword == text

end Qualifier

namespace DataType

def keyword : DataType → String
  | int => "int"
  | char => "char"
  | double => "double"
  | string => "String"
  | void => "void"

def ofKeyword? (text : String) : Option DataType :=
  [int, char, double, string, void].find? fun type => type.keyword == text

theorem ofKeyword?_keyword (type : DataType) : ofKeyword? type.keyword = some type := by
  cases type <;> decide

end DataType

structure Modifier where
  access : Access
  qualifier : Option Qualifier
  deriving DecidableEq, Repr

/-- Where an increment or decrement operator stands. -/
inductive Fixity where
  | before
  | after
  deriving DecidableEq, Repr

inductive Expr where
  | number (text : String)
  | ident (name : String)
  /-- A string literal with its quotes. -/
  | str (text : String)
  | binary (op : BinaryOp) (lhs rhs : Expr)
  | index (base index : Expr)
  /-- A new array; a dimension without a size is an empty bracket. -/
  | new (type : DataType) (dims : List (Option Expr))
  | incDec (op : IncDecOp) (fixity : Fixity) (operand : Expr)

/-- The sizes of an array's dimensions, outermost first. -/
abbrev Dims := List (Option Expr)

/-- An increment or decrement where no other expression may stand. -/
structure IncDec where
  op : IncDecOp
  fixity : Fixity
  operand : Expr

def IncDec.toExpr (step : IncDec) : Expr :=
  .incDec step.op step.fixity step.operand

structure Declarator where
  name : String
  init : Option Expr

structure VarDecl where
  type : DataType
  declarators : List Declarator

structure ArrayDecl where
  type : DataType
  name : String
  dims : Dims

inductive ArrayInitializer where
  | list (first : Expr) (rest : List Expr)
  | new (type : DataType) (dims : Dims)

structure ArrayInit where
  decl : ArrayDecl
  init : ArrayInitializer

structure Assignment where
  target : Expr
  op : AssignOp
  value : Expr

inductive ForInit where
  | declaration (decl : VarDecl)
  | assignment (assignment : Assignment)

inductive ForUpdate where
  | incDec (step : IncDec)
  | assignment (assignment : Assignment)

/-- The three clauses of a loop header, each of which may be absent. -/
structure ForClauses where
  init : Option ForInit
  condition : Option Expr
  update : Option ForUpdate

inductive Declaration where
  | variable (decl : VarDecl)
  | array (decl : ArrayDecl)

inductive Initialization where
  | assign (assignment : Assignment)
  | array (init : ArrayInit)

inductive Stmt where
  | declaration (decl : Declaration)
  | initialization (init : Initialization)
  | ifThen (condition : Expr) (body : List Stmt)
  | ifElse (condition : Expr) (body alternative : List Stmt)
  | forLoop (clauses : ForClauses) (body : List Stmt)
  /-- An increment or decrement on its own. -/
  | step (step : IncDec)

abbrev Block := List Stmt

structure Parameter where
  type : DataType
  isArray : Bool
  name : String
  deriving DecidableEq, Repr

structure MethodDecl where
  modifier : Modifier
  returnType : DataType
  parameter : Parameter
  body : Block

structure ClassDecl where
  modifier : Option Modifier
  name : String
  method : MethodDecl

structure Program where
  root : ClassDecl

end SyntaxTree
